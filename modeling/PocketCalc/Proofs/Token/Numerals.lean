import PocketCalc.Proofs.Binary64.TiesToEven
import PocketCalc.Proofs.Token.Lexemes

/-!
# The value of a numeral

What counts of a run of digits and points is its longest front in positional notation: digits, and
possibly a point and digits behind it (`LongestFront`). Every run has one, and it denotes the number
that the digits of the run make (`exists_longestFront`). So a run is read as the double nearest to
the number that its longest front denotes, whatever follows, and the text that is made of its parts
can always be read (`numerals_nearest`).

No number token is negative: its word is that of infinity at most, with a percent sign or without
(`Lexeme.toBits_le`).
-/

namespace PocketCalc

open Binary64 (IsNearest)

namespace Decimal

open Token (isNumeric)

/-! ## Positional notation -/

/-- The text is in positional notation and denotes the number: digits count in tens, those behind a
point in tenths. A part without digits counts as zero. -/
inductive Denotes : List Char → Rat → Prop where
  | whole {ds} : (∀ c ∈ ds, c.isDigit) → Denotes ds (Nat.ofDigitChars 10 ds 0)
  | point {ds fs} : (∀ c ∈ ds, c.isDigit) → (∀ c ∈ fs, c.isDigit) →
      Denotes (ds ++ '.' :: fs)
        (Nat.ofDigitChars 10 ds 0 + Nat.ofDigitChars 10 fs 0 / 10 ^ fs.length)

/-- `d` is the longest front of `run` in positional notation, and `v` is the number that it
denotes. -/
structure LongestFront (run d : List Char) (v : Rat) : Prop where
  front : d <+: run
  denotes : Denotes d v
  longest : ∀ e w, e <+: run → Denotes e w → e.length ≤ d.length

variable {run d : List Char} {v : Rat}

/-- The digits on both sides of a point make one coefficient. -/
theorem value_digits (ds fs : List Char) :
    value ⟨Nat.ofDigitChars 10 (ds ++ fs) 0, -fs.length⟩ =
      Nat.ofDigitChars 10 ds 0 + Nat.ofDigitChars 10 fs 0 / 10 ^ fs.length := by
  have hpos : (0 : Rat) < 10 ^ fs.length := by positivity
  rw [value, Nat.ofDigitChars_append, Nat.ofDigitChars_eq_ofDigitChars_zero, zpow_neg, zpow_natCast]
  push_cast
  field_simp

theorem Denotes.value_eq (h : Denotes d v) : v = (ofNumeral d).value := by
  cases h with
  | whole hds => simp [ofNumeral_digits hds, value]
  | point hds hfs => rw [ofNumeral_point hds hfs, value_digits]

theorem Denotes.isNumeric (h : Denotes d v) : ∀ c ∈ d, isNumeric c := by
  cases h with
  | whole hds => exact fun c hc => isNumeric_of_isDigit (hds c hc)
  | point hds hfs =>
    intro c hc
    rcases List.mem_append.mp hc with hc | hc
    · exact isNumeric_of_isDigit (hds c hc)
    · rcases List.mem_cons.mp hc with rfl | hc
      · rfl
      · exact isNumeric_of_isDigit (hfs c hc)

theorem Denotes.eq_zero (h : Denotes d v) (hd : ∀ c ∈ d, c.isDigit = false) : v = 0 := by
  have hnil : ∀ {ds : List Char}, (∀ c ∈ ds, c.isDigit) → (∀ c ∈ ds, c ∈ d) → ds = [] := by
    intro ds hds hsub
    refine List.eq_nil_iff_forall_not_mem.mpr fun c hc => ?_
    have := hd c (hsub c hc)
    rw [hds c hc] at this
    cases this
  cases h with
  | whole hds => rw [hnil hds fun c hc => hc, Nat.ofDigitChars_nil, Nat.cast_zero]
  | point hds hfs =>
    rw [hnil hds fun c hc => List.mem_append_left _ hc,
      hnil hfs fun c hc => List.mem_append_right _ (List.mem_cons_of_mem _ hc)]
    simp

/-! ## The longest front -/

/-- Characters of a class reach no farther than to the first one that is of another class. -/
theorem length_le_of_front {p : Char → Bool} {e s t : List Char} (h : e <+: s ++ t)
    (he : ∀ c ∈ e, p c) (ht : ∀ c ∈ t.head?, p c = false) : e.length ≤ s.length := by
  rcases List.prefix_or_prefix_of_prefix h (List.prefix_append s t) with hes | ⟨u, rfl⟩
  · exact hes.length_le
  · cases u with
    | nil => simp
    | cons c u =>
      obtain ⟨t', rfl⟩ := (List.prefix_append_right_inj s).mp h
      have hc := ht c rfl
      rw [he c (by simp)] at hc
      cases hc

/-- No point and no digit follow. -/
theorem longestFront_whole {ds rest : List Char} (hds : ∀ c ∈ ds, c.isDigit)
    (hrest : ∀ c ∈ rest.head?, isNumeric c = false) :
    LongestFront (ds ++ rest) ds (Nat.ofDigitChars 10 ds 0) where
  front := List.prefix_append ds rest
  denotes := .whole hds
  longest _ _ he hw := length_le_of_front he hw.isNumeric hrest

/-- Behind a point no digit follows the digits that are taken. -/
theorem longestFront_point {ds fs rest : List Char} (hds : ∀ c ∈ ds, c.isDigit)
    (hfs : ∀ c ∈ fs, c.isDigit) (hrest : ∀ c ∈ rest.head?, c.isDigit = false) :
    LongestFront (ds ++ '.' :: (fs ++ rest)) (ds ++ '.' :: fs)
      (Nat.ofDigitChars 10 ds 0 + Nat.ofDigitChars 10 fs 0 / 10 ^ fs.length) where
  front := (List.prefix_append_right_inj ds).mpr
    (List.cons_prefix_cons.mpr ⟨rfl, List.prefix_append fs rest⟩)
  denotes := .point hds hfs
  longest e w he hw := by
    cases hw with
    | whole hes =>
      have hle := length_le_of_front he hes (by simp)
      rw [List.length_append]
      omega
    | @point es gs hes hgs =>
      -- the digits before the point are the same
      obtain ⟨t, ht⟩ := he
      have hwhole := congrArg wholeDigits ht
      rw [List.append_assoc, List.cons_append, wholeDigits_point hes, wholeDigits_point hds]
        at hwhole
      subst hwhole
      have hfront : gs <+: fs ++ rest := by
        rw [List.append_assoc, List.append_cancel_left_eq, List.cons_append] at ht
        exact ⟨t, (List.cons.inj ht).2⟩
      have hle := length_le_of_front hfront hgs hrest
      simp only [List.length_append, List.length_cons]
      omega

/-- Nothing counts behind digits that neither a point nor a digit follows. -/
theorem ofNumeral_whole {ds rest : List Char} (hds : ∀ c ∈ ds, c.isDigit)
    (hrest : ∀ c ∈ rest.head?, isNumeric c = false) :
    ofNumeral (ds ++ rest) = ⟨Nat.ofDigitChars 10 ds 0, 0⟩ := by
  cases rest with
  | nil => rw [List.append_nil, ofNumeral_digits hds]
  | cons c rest =>
    have hnumeric := hrest c rfl
    simp only [isNumeric, Bool.or_eq_false_iff, beq_eq_false_iff_ne] at hnumeric
    obtain ⟨hdigit, hpoint⟩ := hnumeric
    have hw : wholeDigits (ds ++ c :: rest) = ds := by
      rw [wholeDigits, List.takeWhile_append_of_pos hds,
        List.takeWhile_cons_of_neg (by simp [hdigit]), List.append_nil]
    have hf : fractionDigits (ds ++ c :: rest) = [] := by
      rw [fractionDigits, List.dropWhile_append_of_pos hds,
        List.dropWhile_cons_of_neg (by simp [hdigit])]
      split
      · next h => exact absurd (List.cons.inj h).1 hpoint
      · rfl
    simp [ofNumeral, hw, hf]

/-- Every run has a longest front, and it denotes the number that the digits of the run make. -/
theorem exists_longestFront (run : List Char) :
    ∃ d, LongestFront run d (ofNumeral run).value := by
  obtain ⟨ds, rest, rfl, hds, hstop⟩ : ∃ ds rest, run = ds ++ rest ∧ (∀ c ∈ ds, c.isDigit) ∧
      ∀ c ∈ rest.head?, c.isDigit = false :=
    ⟨_, _, List.takeWhile_append_dropWhile.symm, isDigit_of_mem_wholeDigits, Token.head?_dropWhile⟩
  by_cases hpoint : ∃ more, rest = '.' :: more
  · obtain ⟨more, rfl⟩ := hpoint
    have hfs : ∀ c ∈ more.takeWhile Char.isDigit, c.isDigit :=
      List.all_eq_true.mp List.all_takeWhile
    have hrest : ∀ c ∈ (more.dropWhile Char.isDigit).head?, c.isDigit = false :=
      Token.head?_dropWhile
    have hfront := longestFront_point hds hfs hrest
    rw [List.takeWhile_append_dropWhile, ← value_digits] at hfront
    rw [ofNumeral, wholeDigits_point hds, fractionDigits_point hds]
    exact ⟨_, hfront⟩
  · have hrest : ∀ c ∈ rest.head?, isNumeric c = false := by
      intro c hc
      have hne : c ≠ '.' := by
        rintro rfl
        exact hpoint (List.head?_eq_some_iff.mp hc)
      simp [isNumeric, hstop c hc, hne]
    have hvalue : (ofNumeral (ds ++ rest)).value = Nat.ofDigitChars 10 ds 0 := by
      simp [ofNumeral_whole hds hrest, value]
    exact ⟨ds, hvalue ▸ longestFront_whole hds hrest⟩

/-- There is only one. -/
theorem LongestFront.unique {d' : List Char} {v' : Rat} (h : LongestFront run d v)
    (h' : LongestFront run d' v') : d' = d ∧ v' = v := by
  have hle := h.longest d' v' h'.front h'.denotes
  have hsame : d' = d :=
    (List.prefix_of_prefix_length_le h'.front h.front hle).eq_of_length_le
      (h'.longest d v h.front h.denotes)
  subst hsame
  exact ⟨rfl, h'.denotes.value_eq.trans h.denotes.value_eq.symm⟩

/-- A run is read as the double nearest to the number that its longest front denotes. -/
theorem LongestFront.readNumeral_eq (h : LongestFront run d v) :
    readNumeral run = Binary64.nearest v := by
  obtain ⟨d', h'⟩ := exists_longestFront run
  rw [Decimal.readNumeral_eq, (h'.unique h).2]

theorem Denotes.nonneg (h : Denotes d v) : 0 ≤ v := by
  cases h <;> positivity

end Decimal

namespace Token

/-! ## Number tokens -/

/-- A number token has the word of infinity or a smaller one. -/
theorem Lexeme.toBits_le {l : List Char} {x : Float} (h : Lexeme l (.number x)) :
    x.toBits.toNat ≤ Binary64.infinityWord := by
  have hnumeral : ∀ run, (Decimal.readNumeral run).toBits.toNat ≤ Binary64.infinityWord := by
    intro run
    rw [Decimal.readNumeral_eq, Binary64.toBits_nearest]
    exact Binary64.nearestWord_le_infinityWord _
  cases h with
  | numeral _ => exact hnumeral _
  | percentage _ =>
    have hhundred : Binary64.unpacked 100 =
        .finite .positive (25 * 2 ^ 48) (-46) (by decide) := by with_unfolding_all rfl
    exact Binary64.toBits_div_le (hnumeral _) hhundred
  | symbol _ hc =>
    unfold ofChar at hc
    split at hc
    · cases hc
    · split at hc
      · cases hc
      · split at hc <;> cases hc

end Token

open Decimal Token

/-- **Numerals are read as the nearest double.** A run has a longest front in positional notation, and
only this front counts. Without a digit in it the run is read as zero. Otherwise the text made of the
parts of the run is read, and gives the double nearest to the number that the front denotes, ties to
even. So runs whose fronts denote one number are read as one word. No number token of a text is
negative or has a sign, and each is a number. -/
theorem numerals_nearest :
    (∀ run, ∃ d v, LongestFront run d v) ∧
    (∀ run d v, LongestFront run d v →
      ((∀ c ∈ d, c.isDigit = false) → readNumeral run = 0) ∧
      ((∃ c ∈ d, c.isDigit) →
        readPositional? (completed run) = some (readNumeral run) ∧
        ∀ x, IsNearest v x ↔ x = readNumeral run)) ∧
    (∀ run run' d d' v, LongestFront run d v → LongestFront run' d' v →
      (readNumeral run).toBits = (readNumeral run').toBits) ∧
    ∀ (text : String) x, .number x ∈ tokens text.toList →
      0 ≤ x ∧ x.toBits.toNat < 2 ^ 63 ∧ x.isNaN = false := by
  refine ⟨?_, ?_, ?_, ?_⟩
  · intro run
    obtain ⟨d, h⟩ := exists_longestFront run
    exact ⟨d, _, h⟩
  · intro run d v h
    refine ⟨fun hd => ?_, fun _ => ⟨?_, fun x => ?_⟩⟩
    · rw [h.readNumeral_eq, h.denotes.eq_zero hd]
      decide +kernel
    · rw [readPositional?_completed, Decimal.readNumeral_eq]
    · rw [h.readNumeral_eq, Binary64.isNearest_iff h.denotes.nonneg]
  · intro run run' d d' v h h'
    rw [h.readNumeral_eq, h'.readNumeral_eq]
  · intro text x hx
    obtain ⟨l, -, hlexeme⟩ := exists_lexeme_of_mem hx
    have hle := hlexeme.toBits_le
    refine ⟨Binary64.zero_le_of_toBits_le hle, ?_, Binary64.isNaN_of_toBits_le hle⟩
    rw [Binary64.infinityWord_eq] at hle
    omega

/-- Halfway between two doubles the even one is taken, whether zeros and a second point stand around
the digits or not; a point alone is zero; and a percentage may have two points. -/
theorem numerals_nearest_samples :
    LongestFront "009007199254740993.0.7".toList "009007199254740993.0".toList 9007199254740993 ∧
    LongestFront "9007199254740993".toList "9007199254740993".toList 9007199254740993 ∧
    LongestFront "..5".toList ['.'] 0 ∧
    readNumeral "..5".toList = 0 ∧
    readPositional? (completed "009007199254740993.0.7".toList) = some 9007199254740992 ∧
    IsNearest 9007199254740993 9007199254740992 ∧
    (readNumeral "009007199254740993.0.7".toList).toBits =
      (readNumeral "9007199254740993".toList).toBits ∧
    .number (1.2 / 100) ∈ tokens "(1.2.3%)".toList ∧
    (0 : Float) ≤ 1.2 / 100 ∧ (1.2 / 100 : Float).toBits.toNat < 2 ^ 63 ∧
      (1.2 / 100 : Float).isNaN = false := by
  have hzeros : LongestFront "009007199254740993.0.7".toList "009007199254740993.0".toList
      9007199254740993 := by
    have hfront := @longestFront_point "009007199254740993".toList ['0'] ".7".toList
      (List.all_eq_true.mp rfl) (List.all_eq_true.mp rfl) (by simp)
    have hwhole : Nat.ofDigitChars 10 "009007199254740993".toList 0 = 9007199254740993 := by decide
    have hfraction : Nat.ofDigitChars 10 ['0'] 0 = 0 := by decide
    rw [hwhole, hfraction] at hfront
    norm_num at hfront
    exact hfront
  have hplain : LongestFront "9007199254740993".toList "9007199254740993".toList
      9007199254740993 :=
    @longestFront_whole "9007199254740993".toList [] (List.all_eq_true.mp rfl) nofun
  have hpoint : LongestFront "..5".toList ['.'] 0 := by
    have hfront := @longestFront_point [] [] ".5".toList nofun nofun (by simp)
    simpa using hfront
  have hread : readNumeral "009007199254740993.0.7".toList = 9007199254740992 := by
    decide +kernel
  have htoken : .number (1.2 / 100) ∈ tokens "(1.2.3%)".toList := by decide +kernel
  obtain ⟨-, hfronts, hsame, htokens⟩ := numerals_nearest
  obtain ⟨hparsed, hnearest⟩ := (hfronts _ _ _ hzeros).2 ⟨'9', by decide, by decide⟩
  rw [hread] at hparsed
  exact ⟨hzeros, hplain, hpoint, (hfronts _ _ _ hpoint).1 (by simp), hparsed,
    (hnearest _).mpr hread.symm, hsame _ _ _ _ _ hzeros hplain, htoken, htokens _ _ htoken⟩

end PocketCalc
