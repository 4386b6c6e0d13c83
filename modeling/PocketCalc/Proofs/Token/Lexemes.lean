import PocketCalc.Proofs.Token.Concatenation

/-!
# Lexemes

What reading finds is a lexeme and its token: a numeral, possibly with a percent sign, a name, or a
single character of another kind, each as long as it can be (`fullLexeme_of_read?`). So every token
of a text comes from a lexeme in it (`exists_lexeme_of_mem`), a refused character from itself
(`mem_of_invalid`), and behind a character that is a token by itself the tokens before it stay what
they are, whatever is added to the text (`exists_tokens_append`).
-/

namespace PocketCalc.Token

open Decimal (readNumeral)

/-- The characters are a lexeme of the token. -/
inductive Lexeme : List Char → Token → Prop where
  | numeral {run} : IsNumeral run → Lexeme run (.number (readNumeral run))
  | percentage {run} : IsNumeral run → Lexeme (run ++ ['%']) (.number (readNumeral run / 100))
  | name {name} : IsName name → Lexeme name.toList (.function name)
  | symbol {c t} : (isBlank c || isNumeric c || c.isLower) = false → ofChar c = t → Lexeme [c] t

/-- The characters are the lexeme of the token in front of the text `after`, and reach as far as
they can: a numeral takes all digits and points and then the percent sign, and only the limit of a
name keeps it from a letter. -/
inductive FullLexeme : List Char → Token → List Char → Prop where
  | numeral {run after} : IsNumeral run →
      (∀ d ∈ after.head?, isNumeric d = false ∧ d ≠ '%') →
      FullLexeme run (.number (readNumeral run)) after
  | percentage {run after} : IsNumeral run →
      FullLexeme (run ++ ['%']) (.number (readNumeral run / 100)) after
  | name {name after} : IsName name →
      (name.toList.length < nameLimit → ∀ d ∈ after.head?, d.isLower = false) →
      FullLexeme name.toList (.function name) after
  | operator {op after} : FullLexeme [op.symbol] (.operator op) after
  | leftParen {after} : FullLexeme ['('] .leftParen after
  | rightParen {after} : FullLexeme [')'] .rightParen after
  | invalid {c after} : (isBlank c || isNumeric c || c.isLower) = false →
      Operator.ofChar? c = none → c ≠ '(' → c ≠ ')' → FullLexeme [c] (.invalid c) after

theorem FullLexeme.lexeme {l after : List Char} {t : Token} (h : FullLexeme l t after) :
    Lexeme l t := by
  cases h with
  | numeral hrun _ => exact .numeral hrun
  | percentage hrun => exact .percentage hrun
  | name hname _ => exact .name hname
  | @operator op _ => exact .symbol (by cases op <;> rfl) (by simp [ofChar])
  | leftParen | rightParen => exact .symbol rfl rfl
  | invalid hclass hop hleft hright => exact .symbol hclass (by simp [ofChar, hop, hleft, hright])

/-! ## Reading finds lexemes -/

theorem head?_dropWhile {p : Char → Bool} {s : List Char} :
    ∀ d ∈ (s.dropWhile p).head?, p d = false := by
  intro d hd
  have hhead := List.head?_dropWhile_not p s
  rw [Option.mem_def.mp hd] at hhead
  exact hhead

/-- A run that ends before its limit ends before a character of another class. -/
theorem head?_drop_takeWhile {p : Char → Bool} {s : List Char} {n : Nat}
    (h : ((s.take n).takeWhile p).length < n) :
    ∀ d ∈ (s.drop ((s.take n).takeWhile p).length).head?, p d = false := by
  induction s generalizing n with
  | nil => simp
  | cons a s ih =>
    cases n with
    | zero => cases h
    | succ n =>
      by_cases ha : p a
      · simp only [List.take_succ_cons, List.takeWhile_cons, ha, if_true, List.length_cons,
          List.drop_succ_cons] at h ⊢
        exact ih (by omega)
      · simp [ha]

theorem fullLexeme_readNumber {run after : List Char} (h : IsNumeral run)
    (hstop : ∀ d ∈ after.head?, isNumeric d = false) :
    FullLexeme (readNumber run after).1 (readNumber run after).2.1 (readNumber run after).2.2 := by
  unfold readNumber
  split
  · exact .percentage h
  · next hpercent =>
    refine .numeral h fun d hd => ⟨hstop d hd, ?_⟩
    rintro rfl
    obtain ⟨rest, hrest⟩ := List.head?_eq_some_iff.mp (Option.mem_def.mp hd)
    exact hpercent rest hrest

/-- A character that neither is blank nor starts a numeral or a name is a full lexeme. -/
theorem fullLexeme_ofChar {c : Char} (h : (isBlank c || isNumeric c || c.isLower) = false)
    (after : List Char) : FullLexeme [c] (ofChar c) after := by
  unfold ofChar
  split
  · next op hop =>
    rw [Operator.ofChar?_eq_some_iff.mp hop]
    exact .operator
  · next hop =>
    split
    · next hleft =>
      rw [hleft]
      exact .leftParen
    · next hleft =>
      split
      · next hright =>
        rw [hright]
        exact .rightParen
      · next hright => exact .invalid h hop hleft hright

theorem fullLexeme_readFrom {c : Char} (hc : isBlank c = false) (cs : List Char) :
    FullLexeme (readFrom c cs).1 (readFrom c cs).2.1 (readFrom c cs).2.2 := by
  unfold readFrom
  split
  · next hnumeric =>
    refine fullLexeme_readNumber ⟨by simp, ?_⟩ head?_dropWhile
    intro d hd
    rcases List.mem_cons.mp hd with rfl | hd
    · exact hnumeric
    · exact List.mem_takeWhile_imp hd
  · next hnumeric =>
    split
    · next hlower =>
      have hname : IsName (String.ofList (((c :: cs).take nameLimit).takeWhile Char.isLower)) := by
        refine ⟨?_, ?_, ?_⟩
        · simp [nameLimit, hlower]
        · rw [String.toList_ofList]
          exact Nat.le_trans (List.takeWhile_prefix _).length_le (List.length_take_le _ _)
        · intro d hd
          rw [String.toList_ofList] at hd
          exact List.mem_takeWhile_imp hd
      have hends := head?_drop_takeWhile (p := Char.isLower) (s := c :: cs) (n := nameLimit)
      simpa using FullLexeme.name hname (by simpa using hends)
    · next hlower => exact fullLexeme_ofChar (by simp [hc, hnumeric, hlower]) cs

/-- Reading takes a lexeme off a text, and all of it. -/
theorem fullLexeme_of_read? {s : List Char} {r : Reading} (h : read? s = some r) :
    FullLexeme r.lexeme r.token r.rest := by
  unfold read? at h
  split at h
  · cases h
  · next c cs hs =>
    cases h
    exact fullLexeme_readFrom (head?_dropWhile c (by rw [hs]; rfl)) cs

theorem lexeme_of_read? {s : List Char} {r : Reading} (h : read? s = some r) :
    Lexeme r.lexeme r.token :=
  (fullLexeme_of_read? h).lexeme

/-- Every token of a text comes from a lexeme in it. -/
theorem exists_lexeme_of_mem {s : List Char} {t : Token} (h : t ∈ tokens s) :
    ∃ l, l <:+: s ∧ Lexeme l t := by
  induction hn : s.length using Nat.strongRecOn generalizing s with
  | ind n ih =>
    cases hr : read? s with
    | none => simp [tokens_of_none hr] at h
    | some r =>
      have htiles := read?_tiles hr
      rw [tokens_of_some hr] at h
      rcases List.mem_cons.mp h with rfl | h
      · exact ⟨r.lexeme, ⟨r.blanks, r.rest, by rw [List.append_assoc, htiles]⟩, lexeme_of_read? hr⟩
      · obtain ⟨l, ⟨pre, post, hl⟩, hlexeme⟩ := ih _ (hn ▸ read?_rest_lt hr) h rfl
        refine ⟨l, ⟨r.blanks ++ (r.lexeme ++ pre), post, ?_⟩, hlexeme⟩
        rw [← htiles, ← hl]
        simp

theorem eq_of_ofChar_eq_invalid {c d : Char} (h : ofChar d = .invalid c) : d = c := by
  unfold ofChar at h
  split at h
  · cases h
  · split at h
    · cases h
    · split at h
      · cases h
      · exact invalid.inj h

/-- A refused character stands in the text and starts no token. -/
theorem mem_of_invalid {s : List Char} {c : Char} (h : .invalid c ∈ tokens s) :
    c ∈ s ∧ (isNumeric c || c.isLower) = false ∧ ofChar c = .invalid c := by
  obtain ⟨l, hl, hlexeme⟩ := exists_lexeme_of_mem h
  cases hlexeme with
  | symbol hclass hchar =>
    obtain rfl := eq_of_ofChar_eq_invalid hchar
    simp only [Bool.or_eq_false_iff] at hclass
    exact ⟨hl.subset List.mem_cons_self, by simp [hclass], hchar⟩

/-! ## Behind a character that is a token by itself -/

/-- The tokens that are one character no other token goes on from or into. -/
def IsSymbol : Token → Prop
  | operator _ | leftParen | rightParen | invalid _ => True
  | number _ | function _ | endMark => False

theorem Lexeme.eq_singleton {l : List Char} {t : Token} (h : Lexeme l t) (ht : IsSymbol t) :
    ∃ c, l = [c] ∧ (isNumeric c || c.isLower) = false := by
  cases h with
  | numeral | percentage | name => exact ht.elim
  | @symbol c _ hc _ =>
    simp only [Bool.or_eq_false_iff] at hc
    exact ⟨c, rfl, by simp [hc]⟩

/-- A character that is no part of a numeral or a name ends its token. -/
theorem separate_of_getLast? {s : List Char} {c : Char} (hlast : s.getLast? = some c)
    (hc : (isNumeric c || c.isLower) = false) (t : List Char) : Separate s t := by
  intro d hd e _
  rw [Option.mem_def, hlast] at hd
  cases hd
  simp only [Bool.or_eq_false_iff] at hc
  simp [joins, hc]

/-- The text ends with a symbol, and so ends its last token. -/
theorem exists_split_of_tokens {s : List Char} {before after : List Token} {t : Token}
    (h : tokens s = before ++ t :: after) (ht : IsSymbol t) :
    ∃ a b c, s = a ++ b ∧ a.getLast? = some c ∧ (isNumeric c || c.isLower) = false ∧
      tokens b = after := by
  induction before generalizing s with
  | nil =>
    cases hr : read? s with
    | none => simp [tokens_of_none hr] at h
    | some r =>
      rw [tokens_of_some hr] at h
      injection h with hhead htail
      obtain ⟨c, hlexeme, hc⟩ := (lexeme_of_read? hr).eq_singleton (hhead ▸ ht)
      refine ⟨r.blanks ++ r.lexeme, r.rest, c, ?_, ?_, hc, htail⟩
      · rw [List.append_assoc, read?_tiles hr]
      · simp [hlexeme]
  | cons u before ih =>
    cases hr : read? s with
    | none => simp [tokens_of_none hr] at h
    | some r =>
      rw [tokens_of_some hr] at h
      injection h with _ htail
      obtain ⟨a, b, c, hrest, hlast, hc, hb⟩ := ih htail
      refine ⟨r.blanks ++ r.lexeme ++ a, b, c, ?_, ?_, hc, hb⟩
      · rw [List.append_assoc, ← hrest, List.append_assoc, read?_tiles hr]
      · rw [List.getLast?_append, hlast]
        rfl

/-- Behind a symbol, adding to the text changes none of the tokens up to it. -/
theorem exists_tokens_append {s : List Char} {before after : List Token} {t : Token}
    (h : tokens s = before ++ t :: after) (ht : IsSymbol t) (more : List Char) :
    ∃ after', tokens (s ++ more) = before ++ t :: after' := by
  obtain ⟨a, b, c, rfl, hlast, hc, hb⟩ := exists_split_of_tokens h ht
  have hcut : tokens a ++ tokens b = before ++ [t] ++ tokens b := by
    rw [← tokens_append (separate_of_getLast? hlast hc b), h, hb]
    simp
  refine ⟨tokens (b ++ more), ?_⟩
  rw [List.append_assoc, tokens_append (separate_of_getLast? hlast hc _),
    List.append_cancel_right hcut, List.append_assoc, List.singleton_append]

end PocketCalc.Token
