import PocketCalc.Token.Reading

/-!
# Reading with a position

A cursor reads a text token by token and counts the bytes it has passed, in UTF-8. At the end it
stays where it is and answers with the end mark for ever.
-/

namespace PocketCalc.Token

/-- The size of a text in UTF-8. -/
def byteSize : List Char → Nat
  | [] => 0
  | c :: s => c.utf8Size + byteSize s

@[simp] theorem byteSize_nil : byteSize [] = 0 := rfl

@[simp] theorem byteSize_append (s t : List Char) :
    byteSize (s ++ t) = byteSize s + byteSize t := by
  induction s with
  | nil => simp
  | cons c s ih => simp [byteSize, ih, Nat.add_assoc]

/-- A place in a text: the bytes before it and the characters after it. -/
structure Cursor where
  position : Nat
  rest : List Char

namespace Cursor

/-- The cursor before the first character. -/
def start (text : String) : Cursor := ⟨0, text.toList⟩

/-- The cursor behind the last character. -/
def atEnd (c : Cursor) : Cursor := ⟨c.position + byteSize c.rest, []⟩

/-- The next token and the cursor behind it, or none when only blanks are left. -/
def next? (c : Cursor) : Option (Token × Cursor) :=
  (read? c.rest).map fun r =>
    (r.token, ⟨c.position + byteSize r.blanks + byteSize r.lexeme, r.rest⟩)

/-- The next token and the cursor behind it; the end mark when only blanks are left. -/
def next (c : Cursor) : Token × Cursor := c.next?.getD (endMark, c.atEnd)

/-- At the end of the text the cursor stays where it is. -/
theorem next_atEnd (c : Cursor) : c.atEnd.next = (endMark, c.atEnd) := by
  simp [next, next?, atEnd, read?]

theorem next?_rest_lt {c d : Cursor} {t : Token} (h : c.next? = some (t, d)) :
    d.rest.length < c.rest.length := by
  simp only [next?, Option.map_eq_some_iff, Prod.mk.injEq] at h
  obtain ⟨r, hr, _, rfl⟩ := h
  exact read?_rest_lt hr

/-- The readings of a cursor to the end of its text: each token with the position behind it, then
the end mark, `marks` times. -/
def readings (c : Cursor) (marks : Nat) : List (Token × Nat) :=
  match _h : c.next? with
  | none => List.replicate marks (endMark, c.atEnd.position)
  | some (t, d) => (t, d.position) :: d.readings marks
termination_by c.rest.length
decreasing_by exact next?_rest_lt _h

end Cursor

end PocketCalc.Token
