import PocketCalc.Evaluation
import PocketCalc.Proofs.Postfix.Steps
import PocketCalc.Proofs.Token.Concatenation
import PocketCalc.Proofs.Token.Tiling

/-!
# Converting while reading

A conversion does not need the list of all tokens: it can take them from a cursor one at a time, and
stop at the first fault with the rest of the text unread (`pull`). This makes no difference, for the
cursor gives the tokens of the text in front of it, whatever stands behind
(`pull_eq_convert`). So a text counts through its tokens alone, and the tokens of a text are those of
its parts wherever it is cut between two tokens, or at blanks.
-/

namespace PocketCalc

open Token (Cursor Separate isBlank tokens)

namespace Postfix

/-! ## Token by token -/

/-- Converts what is in front of a cursor. The next token is asked for when the one before it has
been converted. -/
def pull (s : State) (c : Cursor) : Except CalcError (List Token) :=
  match _h : c.next? with
  | none => s.finish
  | some (t, d) => (s.advance t).bind fun p => emit p.1 (pull p.2 d)
termination_by c.rest.length
decreasing_by exact Cursor.next?_rest_lt _h

theorem pull_of_none {c : Cursor} (h : c.next? = none) (s : State) : pull s c = s.finish := by
  rw [pull]
  split
  · rfl
  · next hnext => rw [h] at hnext; cases hnext

theorem pull_of_some {c d : Cursor} {t : Token} (h : c.next? = some (t, d)) (s : State) :
    pull s c = (s.advance t).bind fun p => emit p.1 (pull p.2 d) := by
  rw [pull]
  split
  · next hnext => rw [h] at hnext; cases hnext
  · next hnext =>
    rw [h] at hnext
    cases hnext
    rfl

/-- From any state, converting while reading is converting the tokens that are still to be read. The
induction is on the text in front of the cursor. -/
theorem pull_eq_convert (s : State) (c : Cursor) :
    pull s c = convert s.operand s.inner s.outer (tokens c.rest) := by
  induction hn : c.rest.length using Nat.strongRecOn generalizing s c with
  | ind n ih =>
    cases hnext : c.next? with
    | none =>
      rw [pull_of_none hnext, Cursor.tokens_rest_of_none hnext]
      rfl
    | some r =>
      obtain ⟨t, d⟩ := r
      have htokens := Cursor.tokens_rest_of_some hnext
      have hmark : t ≠ .endMark := by
        rintro rfl
        exact Token.endMark_notMem_tokens c.rest (htokens ▸ List.mem_cons_self)
      rw [pull_of_some hnext, htokens, convert_cons hmark]
      cases s.advance t with
      | error e => rfl
      | ok p =>
        simp only [Except.bind]
        rw [ih _ (hn ▸ Cursor.next?_rest_lt hnext) p.2 d rfl]

/-- Converts a text while reading it. -/
def pullText (text : String) : Except CalcError (List Token) := pull .start (Cursor.start text)

theorem pullText_eq_ofText (text : String) : pullText text = ofText text :=
  pull_eq_convert .start (Cursor.start text)

end Postfix

/-! ## Cutting a text -/

namespace Token

/-- A text may be cut in front of a blank. -/
theorem separate_of_blank {b : Char} (hb : isBlank b) (s t : List Char) : Separate s (b :: t) := by
  simp only [isBlank, Bool.or_eq_true, beq_iff_eq] at hb
  rcases hb with rfl | rfl <;> exact separate_of_symbol rfl s t

/-- Blanks end every token. -/
theorem tokens_append_blanks {s w : List Char} (hne : w ≠ []) (hw : ∀ c ∈ w, isBlank c)
    (t : List Char) : tokens (s ++ w ++ t) = tokens s ++ tokens t := by
  obtain ⟨b, bs, rfl⟩ := List.exists_cons_of_ne_nil hne
  rw [List.append_assoc, List.cons_append, tokens_append (separate_of_blank (hw b (by simp)) s (bs ++ t)),
    ← List.cons_append, ← tokens_dropWhile_isBlank (b :: bs ++ t),
    List.dropWhile_append_of_pos hw, tokens_dropWhile_isBlank]

end Token

/-- **A text counts through its tokens.** Where no token goes on over the cut, the tokens of a text
are those of its two parts, and in particular at any blanks. Converting a text while reading it is
converting its tokens; so texts with the same tokens have the same postfix order, converted either
way, and the same value, or the same error. -/
theorem tokens_determine [Elementary] :
    (∀ s t : String, Separate s.toList t.toList →
      tokens (s ++ t).toList = tokens s.toList ++ tokens t.toList) ∧
    (∀ s w t : String, w ≠ "" → (∀ c ∈ w.toList, isBlank c) →
      tokens (s ++ w ++ t).toList = tokens s.toList ++ tokens t.toList) ∧
    (∀ s : String, Postfix.pullText s = Postfix.ofTokens (tokens s.toList)) ∧
    (∀ s t : String, tokens s.toList = tokens t.toList →
      Postfix.pullText s = Postfix.pullText t ∧ Postfix.ofText s = Postfix.ofText t ∧
        evaluate s = evaluate t) := by
  refine ⟨?_, ?_, Postfix.pullText_eq_ofText, ?_⟩
  · intro s t h
    rw [String.toList_append, Token.tokens_append h]
  · intro s w t hne hw
    have hlist : w.toList ≠ [] := by simpa using hne
    rw [String.toList_append, String.toList_append, Token.tokens_append_blanks hlist hw]
  · intro s t h
    have hofText : Postfix.ofText s = Postfix.ofText t := congrArg Postfix.ofTokens h
    refine ⟨?_, hofText, ?_⟩
    · rw [Postfix.pullText_eq_ofText, Postfix.pullText_eq_ofText, hofText]
    · rw [evaluate, evaluate, hofText]

/-- A second point and a percent sign in front of a cut, blanks between a numeral and a percent sign,
and two texts with the same tokens. -/
theorem tokens_determine_samples :
    (Separate "2 + 1.5.%".toList "7(é".toList ∧
      tokens ("2 + 1.5.%" ++ "7(é").toList = tokens "2 + 1.5.%".toList ++ tokens "7(é".toList) ∧
    (("\t " ≠ "" ∧ ∀ c ∈ "\t ".toList, isBlank c) ∧
      tokens ("1.5" ++ "\t " ++ "% 2").toList = tokens "1.5".toList ++ tokens "% 2".toList) ∧
    (tokens "2*sqrt(16)".toList = tokens " 2 *sqrt\t(16. ) ".toList ∧
      Postfix.pullText "2*sqrt(16)" = Postfix.pullText " 2 *sqrt\t(16. ) " ∧
      Postfix.ofText "2*sqrt(16)" = Postfix.ofText " 2 *sqrt\t(16. ) " ∧
      evaluate "2*sqrt(16)" = evaluate " 2 *sqrt\t(16. ) ") := by
  have hcut : Separate "2 + 1.5.%".toList "7(é".toList := by
    intro c hc d hd
    cases hc
    cases hd
    rfl
  have hall : "\t ".toList.all isBlank = true := by decide
  have hblank : ∀ c ∈ "\t ".toList, isBlank c := List.all_eq_true.mp hall
  have hsame : tokens "2*sqrt(16)".toList = tokens " 2 *sqrt\t(16. ) ".toList := by
    decide +kernel
  obtain ⟨hconcat, hblanks, -, hvalue⟩ := tokens_determine
  exact ⟨⟨hcut, hconcat _ _ hcut⟩, ⟨⟨by decide, hblank⟩, hblanks _ _ _ (by decide) hblank⟩,
    hsame, hvalue _ _ hsame⟩

end PocketCalc
