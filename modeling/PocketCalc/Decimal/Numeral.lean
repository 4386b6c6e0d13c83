import PocketCalc.Binary64
import PocketCalc.Decimal.Basic

/-!
# Reading a numeral

A run of digits and points is read up to its second point. Its digits before and behind the first
point are written in positional notation again, with a zero for a part that is missing, and this
text is read as the nearest double. What follows has no influence, and a run without digits is zero.

The digits themselves make a decimal, `ofNumeral`: the coefficient has all of them, and those behind
the point are the places. Completing the parts keeps its value, so a run is read as the double
nearest to it (`readNumeral_eq`).
-/

namespace PocketCalc.Decimal

/-! ## Positional notation -/

/-- The decimal that a text in positional notation stands for: digits, possibly with a point before
them, among them or behind them. No other text stands for one. -/
def ofPositional? (text : List Char) : Option Decimal :=
  let whole := text.takeWhile Char.isDigit
  match text.dropWhile Char.isDigit with
  | [] => if whole.isEmpty then none else some ⟨Nat.ofDigitChars 10 whole 0, 0⟩
  | c :: fraction =>
    if c == '.' && fraction.all Char.isDigit && !(whole ++ fraction).isEmpty then
      some ⟨Nat.ofDigitChars 10 (whole ++ fraction) 0, -fraction.length⟩
    else none

/-- The double that a text in positional notation is read as. -/
def readPositional? (text : List Char) : Option Float :=
  (ofPositional? text).map fun d => Binary64.nearest d.value

/-- Digits on both sides of a point. -/
theorem ofPositional?_point {whole fraction : List Char} (hwhole : ∀ c ∈ whole, c.isDigit)
    (hfraction : ∀ c ∈ fraction, c.isDigit) (hne : whole ++ fraction ≠ []) :
    ofPositional? (whole ++ '.' :: fraction) =
      some ⟨Nat.ofDigitChars 10 (whole ++ fraction) 0, -fraction.length⟩ := by
  have hpoint : ¬ Char.isDigit '.' = true := by decide
  have htext : ('.' == '.' && fraction.all Char.isDigit && !(whole ++ fraction).isEmpty) = true := by
    simpa using And.intro hfraction (by simpa using hne)
  unfold ofPositional?
  rw [List.takeWhile_append_of_pos hwhole, List.takeWhile_cons_of_neg hpoint, List.append_nil,
    List.dropWhile_append_of_pos hwhole, List.dropWhile_cons_of_neg hpoint]
  simp only [htext, if_true]

/-! ## Runs -/

/-- The digits of a run before its first point. -/
def wholeDigits (run : List Char) : List Char := run.takeWhile Char.isDigit

/-- The digits of a run between its first point and whatever ends them. -/
def fractionDigits (run : List Char) : List Char :=
  match run.dropWhile Char.isDigit with
  | '.' :: rest => rest.takeWhile Char.isDigit
  | _ => []

theorem wholeDigits_point {whole : List Char} (h : ∀ c ∈ whole, c.isDigit) (rest : List Char) :
    wholeDigits (whole ++ '.' :: rest) = whole := by
  have hpoint : ¬ Char.isDigit '.' = true := by decide
  rw [wholeDigits, List.takeWhile_append_of_pos h, List.takeWhile_cons_of_neg hpoint,
    List.append_nil]

theorem fractionDigits_point {whole : List Char} (h : ∀ c ∈ whole, c.isDigit) (rest : List Char) :
    fractionDigits (whole ++ '.' :: rest) = rest.takeWhile Char.isDigit := by
  have hpoint : ¬ Char.isDigit '.' = true := by decide
  rw [fractionDigits, List.dropWhile_append_of_pos h, List.dropWhile_cons_of_neg hpoint]
  rfl

/-- A part of a numeral, written as a zero when it is missing. -/
def orZero : List Char → List Char
  | [] => ['0']
  | c :: cs => c :: cs

/-- The two parts of a run around a point, both of them with digits. -/
def completed (run : List Char) : List Char :=
  orZero (wholeDigits run) ++ '.' :: orZero (fractionDigits run)

/-- The double that a run of digits and points is read as. -/
def readNumeral (run : List Char) : Float :=
  if (wholeDigits run).isEmpty && (fractionDigits run).isEmpty then 0
  else (readPositional? (completed run)).getD 0

/-! ## The decimal of a run -/

/-- The number that the digits of a run make. -/
def ofNumeral (run : List Char) : Decimal :=
  ⟨Nat.ofDigitChars 10 (wholeDigits run ++ fractionDigits run) 0, -(fractionDigits run).length⟩

theorem isDigit_of_mem_wholeDigits {run : List Char} : ∀ c ∈ wholeDigits run, c.isDigit :=
  List.all_eq_true.mp List.all_takeWhile

theorem isDigit_of_mem_fractionDigits {run : List Char} : ∀ c ∈ fractionDigits run, c.isDigit := by
  unfold fractionDigits
  split
  · exact List.all_eq_true.mp List.all_takeWhile
  · exact nofun

theorem isDigit_of_mem_orZero {ds : List Char} (h : ∀ c ∈ ds, c.isDigit) :
    ∀ c ∈ orZero ds, c.isDigit := by
  cases ds with
  | nil => exact List.all_eq_true.mp rfl
  | cons c cs => exact h

/-- A zero in front of the point does not count. -/
theorem ofDigitChars_orZero_append (whole ds : List Char) :
    Nat.ofDigitChars 10 (orZero whole ++ ds) 0 = Nat.ofDigitChars 10 (whole ++ ds) 0 := by
  cases whole with
  | nil => simp [orZero, Nat.ofDigitChars_cons]
  | cons c cs => rfl

/-- A zero alone behind the point is a place more and ten times the coefficient. -/
theorem value_orZero (whole fraction : List Char) :
    value ⟨Nat.ofDigitChars 10 (orZero whole ++ orZero fraction) 0, -(orZero fraction).length⟩ =
      value ⟨Nat.ofDigitChars 10 (whole ++ fraction) 0, -fraction.length⟩ := by
  rw [ofDigitChars_orZero_append]
  cases fraction with
  | nil =>
    have hten : Nat.ofDigitChars 10 (whole ++ ['0']) 0 = 10 * Nat.ofDigitChars 10 whole 0 := by
      simp [Nat.ofDigitChars_append, Nat.ofDigitChars_cons]
    have hexponent : -((['0'] : List Char).length : Int) + 1 = -([] : List Char).length := rfl
    rw [orZero, hten, ← value_div_ten (Nat.mul_mod_right 10 _), hexponent,
      Nat.mul_div_cancel_left _ (by decide), List.append_nil]
  | cons c cs => rfl

/-- A completed run is always in positional notation, and stands for the number that the digits
make. -/
theorem readPositional?_completed (run : List Char) :
    readPositional? (completed run) = some (Binary64.nearest (ofNumeral run).value) := by
  have hne : orZero (wholeDigits run) ++ orZero (fractionDigits run) ≠ [] := by
    cases wholeDigits run <;> simp [orZero]
  unfold readPositional? completed
  rw [ofPositional?_point (isDigit_of_mem_orZero isDigit_of_mem_wholeDigits)
    (isDigit_of_mem_orZero isDigit_of_mem_fractionDigits) hne, Option.map_some, value_orZero,
    ofNumeral]

/-- A run is read as the double nearest to the number that its digits make. -/
theorem readNumeral_eq (run : List Char) :
    readNumeral run = Binary64.nearest (ofNumeral run).value := by
  unfold readNumeral
  split
  · next h =>
    simp only [Bool.and_eq_true, List.isEmpty_iff] at h
    rw [ofNumeral, h.1, h.2]
    decide +kernel
  · rw [readPositional?_completed, Option.getD_some]

/-! A missing part counts as zero, and a second point ends the numeral. -/

example : ofNumeral "1.25.7".toList = ⟨125, -2⟩ := by decide +kernel

example : readNumeral ".5".toList = 0.5 := by decide +kernel

end PocketCalc.Decimal
