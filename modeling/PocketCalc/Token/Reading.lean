import PocketCalc.Decimal.Numeral
import PocketCalc.Token.Basic

/-!
# Reading tokens off a text

`read? s` takes the first token off a text: the blanks before it, its lexeme and the rest, which
together are the text again (`read?_tiles`). The rest is shorter (`read?_rest_lt`), so `tokens`,
which reads to the end, is total.

A numeral is the longest run of digits and points, with the percent sign behind it when there is
one; a name is a run of at most seven lower-case letters; any other character is a token by itself.
-/

namespace PocketCalc

namespace Token

/-! ## Character classes -/

/-- Blanks separate tokens; they are the space and the tabulation only. -/
def isBlank (c : Char) : Bool := c == ' ' || c == '\t'

/-- The characters of a numeral. -/
def isNumeric (c : Char) : Bool := c.isDigit || c == '.'

/-- The greatest number of letters in a name; the letters after them start another name. -/
def nameLimit : Nat := 7

/-! ## One token -/

/-- What is taken off the front of a text. -/
structure Reading where
  blanks : List Char
  lexeme : List Char
  token : Token
  rest : List Char

/-- The token that a character is by itself. -/
def ofChar (c : Char) : Token :=
  match Operator.ofChar? c with
  | some op => operator op
  | none => if c = '(' then leftParen else if c = ')' then rightParen else invalid c

/-- A numeral whose run of digits and points is `run`, before the text `after`. A percent sign
directly behind the run belongs to the numeral and divides it by a hundred. -/
def readNumber (run : List Char) : List Char → List Char × Token × List Char
  | '%' :: rest => (run ++ ['%'], number (Decimal.readNumeral run / 100), rest)
  | rest => (run, number (Decimal.readNumeral run), rest)

/-- The lexeme and the token at the front of the text `c :: cs`, whose first character is no blank,
and the text behind them. -/
def readFrom (c : Char) (cs : List Char) : List Char × Token × List Char :=
  if isNumeric c then
    readNumber (c :: cs.takeWhile isNumeric) (cs.dropWhile isNumeric)
  else if c.isLower then
    let name := ((c :: cs).take nameLimit).takeWhile Char.isLower
    (name, function (String.ofList name), (c :: cs).drop name.length)
  else
    ([c], ofChar c, cs)

/-- The first token of a text, or none when only blanks are left. -/
def read? (s : List Char) : Option Reading :=
  match s.dropWhile isBlank with
  | [] => none
  | c :: cs =>
    let (lexeme, token, rest) := readFrom c cs
    some ⟨s.takeWhile isBlank, lexeme, token, rest⟩

/-! ## Nothing is lost -/

theorem readNumber_tiles (run after : List Char) :
    (readNumber run after).1 ++ (readNumber run after).2.2 = run ++ after := by
  unfold readNumber
  split <;> simp

theorem takeWhile_append_drop (p : Char → Bool) (n : Nat) (s : List Char) :
    (s.take n).takeWhile p ++ s.drop ((s.take n).takeWhile p).length = s := by
  induction s generalizing n with
  | nil => simp
  | cons a s ih =>
    cases n with
    | zero => simp
    | succ n => by_cases h : p a <;> simp [h, ih]

/-- The lexeme and the text behind it are the text that was read. -/
theorem readFrom_tiles (c : Char) (cs : List Char) :
    (readFrom c cs).1 ++ (readFrom c cs).2.2 = c :: cs := by
  unfold readFrom
  split
  · rw [readNumber_tiles, List.cons_append, List.takeWhile_append_dropWhile]
  · split
    · exact takeWhile_append_drop _ _ _
    · rfl

theorem readNumber_ne_nil {run : List Char} (h : run ≠ []) (after : List Char) :
    (readNumber run after).1 ≠ [] := by
  unfold readNumber
  split <;> simp [h]

/-- A lexeme has at least one character. -/
theorem readFrom_ne_nil (c : Char) (cs : List Char) : (readFrom c cs).1 ≠ [] := by
  unfold readFrom
  split
  · exact readNumber_ne_nil (by simp) _
  · split
    · next h => simp [nameLimit, h]
    · simp

theorem read?_eq_none_iff {s : List Char} : read? s = none ↔ s.dropWhile isBlank = [] := by
  unfold read?
  split <;> simp_all

/-- Blanks, lexeme and rest are the text that was read. -/
theorem read?_tiles {s : List Char} {r : Reading} (h : read? s = some r) :
    r.blanks ++ (r.lexeme ++ r.rest) = s := by
  unfold read? at h
  split at h
  · simp at h
  · next c cs hs =>
    simp only [Option.some.injEq] at h
    subst h
    rw [readFrom_tiles, ← hs, List.takeWhile_append_dropWhile]

theorem read?_lexeme_ne_nil {s : List Char} {r : Reading} (h : read? s = some r) :
    r.lexeme ≠ [] := by
  unfold read? at h
  split at h
  · simp at h
  · next c cs _ =>
    simp only [Option.some.injEq] at h
    subst h
    exact readFrom_ne_nil c cs

/-- Reading a token leaves a shorter text. -/
theorem read?_rest_lt {s : List Char} {r : Reading} (h : read? s = some r) :
    r.rest.length < s.length := by
  have ht := congrArg List.length (read?_tiles h)
  have hl := List.length_pos_iff.mpr (read?_lexeme_ne_nil h)
  simp only [List.length_append] at ht
  omega

/-! ## All tokens -/

/-- The tokens of a text, without the mark of its end. -/
def tokens (s : List Char) : List Token :=
  match _h : read? s with
  | none => []
  | some r => r.token :: tokens r.rest
termination_by s.length
decreasing_by exact read?_rest_lt _h

theorem tokens_of_none {s : List Char} (h : read? s = none) : tokens s = [] := by
  rw [tokens]
  split <;> simp_all

theorem tokens_of_some {s : List Char} {r : Reading} (h : read? s = some r) :
    tokens s = r.token :: tokens r.rest := by
  rw [tokens]
  split <;> simp_all

end Token

end PocketCalc
