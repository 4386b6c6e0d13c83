import Mathlib.Data.Nat.Find
import PocketCalc.Proofs.Postfix.Steps
import PocketCalc.Proofs.Token.Lexemes

/-!
# The errors of conversion

A token is at fault when it is refused, or when it closes a group that is not open. Up to the first
fault conversion goes on, and as many groups are open as there are more opening than closing
parentheses (`State.run_take`): what waits in a group, be it operators, negations or functions, has
no influence. So the first fault decides the error, whatever stands behind it, and without a fault
the numbers of parentheses decide (`ofText_of_faults`).
-/

namespace PocketCalc.Postfix

open Token (tokens)

/-- The error of a token, if it is at fault. `upTo` are the tokens up to it, itself included. -/
def fault? (upTo : List Token) : Token → Option CalcError
  | .invalid c => some (.invalidCharacter c)
  | .rightParen =>
    if upTo.count .leftParen < upTo.count .rightParen then some .unmatchedParentheses else none
  | .number _ | .operator _ | .function _ | .leftParen | .endMark => none

/-- The error of the token at place `i`, if it is at fault. -/
def faultAt? (ts : List Token) (i : Nat) : Option CalcError := ts[i]?.bind (fault? (ts.take (i + 1)))

/-- The first fault is at place `i`, with error `e`. -/
structure FirstFault (ts : List Token) (i : Nat) (e : CalcError) : Prop where
  fault : faultAt? ts i = some e
  first : ∀ j < i, faultAt? ts j = none

/-! ## Faults -/

theorem lt_length_of_faultAt? {ts : List Token} {i : Nat} {e : CalcError}
    (h : faultAt? ts i = some e) : i < ts.length := by
  by_contra hi
  rw [faultAt?, List.getElem?_eq_none (by omega)] at h
  cases h

/-- Only the places of the list can be at fault. -/
theorem no_fault_of_lt {ts : List Token} (h : ∀ i < ts.length, faultAt? ts i = none) (i : Nat) :
    faultAt? ts i = none := by
  by_contra hi
  obtain ⟨e, he⟩ := Option.ne_none_iff_exists'.mp hi
  exact hi (h i (lt_length_of_faultAt? he))

/-- Only the tokens up to a place decide whether it is at fault. -/
theorem faultAt?_append {ts : List Token} {i : Nat} (hi : i < ts.length) (us : List Token) :
    faultAt? (ts ++ us) i = faultAt? ts i := by
  simp only [faultAt?, List.getElem?_append_left hi, List.take_append_of_le_length hi]

theorem faultAt?_eq {ts : List Token} {i : Nat} (hi : i < ts.length) :
    faultAt? ts i = fault? (ts.take i ++ [ts[i]]) ts[i] := by
  rw [faultAt?, List.getElem?_eq_getElem hi, List.take_append_getElem hi]
  rfl

/-- Only two kinds of tokens can be at fault. -/
theorem of_fault?_eq_some {upTo : List Token} {t : Token} {e : CalcError}
    (h : fault? upTo t = some e) :
    (∃ c, t = .invalid c ∧ e = .invalidCharacter c) ∨
      (t = .rightParen ∧ e = .unmatchedParentheses) := by
  cases t with
  | invalid c =>
    cases h
    exact .inl ⟨c, rfl, rfl⟩
  | rightParen =>
    simp only [fault?] at h
    split at h
    · cases h
      exact .inr ⟨rfl, rfl⟩
    · cases h
  | number v | operator op | function name | leftParen | endMark => cases h

theorem of_faultAt?_eq_some {ts : List Token} {i : Nat} {e : CalcError}
    (h : faultAt? ts i = some e) : ∃ t, ts[i]? = some t ∧
      ((∃ c, t = .invalid c ∧ e = .invalidCharacter c) ∨
        (t = .rightParen ∧ e = .unmatchedParentheses)) := by
  obtain ⟨t, ht, hfault⟩ := Option.bind_eq_some_iff.mp h
  exact ⟨t, ht, of_fault?_eq_some hfault⟩

/-- A fault has a first one before it or is the first. -/
theorem exists_firstFault {ts : List Token} {i : Nat} {e : CalcError}
    (h : faultAt? ts i = some e) : ∃ j e', FirstFault ts j e' := by
  have hex : ∃ j, (faultAt? ts j).isSome := ⟨i, by rw [h]; rfl⟩
  obtain ⟨e', he'⟩ := Option.isSome_iff_exists.mp (Nat.find_spec hex)
  refine ⟨Nat.find hex, e', he', ?_⟩
  intro j hj
  simpa using Nat.find_min hex hj

/-! ## Up to the first fault -/

namespace State

/-- An opening parenthesis opens a group, a closing one closes a group, and no other token does
either. -/
theorem length_outer_of_advance {s s' : State} {t : Token} {out : List Token}
    (h : s.advance t = .ok (out, s')) :
    s'.outer.length + [t].count .rightParen = s.outer.length + [t].count .leftParen := by
  obtain ⟨operand, inner, outer⟩ := s
  cases t with
  | invalid c => cases h
  | endMark | number v | function name | leftParen =>
    cases h
    simp
  | rightParen =>
    cases outer with
    | nil => cases h
    | cons enclosing outer =>
      cases h
      simp
  | operator op =>
    simp only [advance] at h
    split at h <;> cases h <;> simp

/-- A token leads on unless it is at fault. `before` are the tokens that led here. -/
theorem advance_or_fault {s : State} {before : List Token} (t : Token)
    (hdepth : s.outer.length + before.count .rightParen = before.count .leftParen) :
    (∃ p, s.advance t = .ok p ∧ fault? (before ++ [t]) t = none) ∨
      ∃ e, s.advance t = .error e ∧ fault? (before ++ [t]) t = some e := by
  obtain ⟨operand, inner, outer⟩ := s
  cases t with
  | invalid c => exact .inr ⟨_, rfl, rfl⟩
  | endMark | number v | function name | leftParen => exact .inl ⟨_, rfl, rfl⟩
  | rightParen =>
    have hleft : (before ++ [Token.rightParen]).count Token.leftParen =
        before.count .leftParen := by simp
    have hright : (before ++ [Token.rightParen]).count Token.rightParen =
        before.count .rightParen + 1 := by simp
    cases outer with
    | nil =>
      simp only [List.length_nil] at hdepth
      exact .inr ⟨_, rfl, if_pos (by omega)⟩
    | cons enclosing outer =>
      simp only [List.length_cons] at hdepth
      exact .inl ⟨_, rfl, if_neg (by omega)⟩
  | operator op =>
    simp only [advance]
    split <;> exact .inl ⟨_, rfl, rfl⟩

/-- Up to the first fault conversion goes on, and counts the open groups. -/
theorem run_take {ts : List Token} {n : Nat} (hn : n ≤ ts.length)
    (h : ∀ j < n, faultAt? ts j = none) : ∃ out s, start.run (ts.take n) = .ok (out, s) ∧
      s.outer.length + (ts.take n).count .rightParen = (ts.take n).count .leftParen := by
  induction n with
  | zero => exact ⟨[], start, rfl, rfl⟩
  | succ n ih =>
    obtain ⟨out, s, hrun, hdepth⟩ := ih (by omega) fun j hj => h j (by omega)
    have hsplit : ts.take (n + 1) = ts.take n ++ [ts[n]] := (List.take_append_getElem hn).symm
    have hnone := h n (Nat.lt_succ_self n)
    rw [faultAt?_eq hn] at hnone
    rcases advance_or_fault ts[n] hdepth with ⟨p, hadvance, -⟩ | ⟨e, -, hsome⟩
    · have hgroups := length_outer_of_advance hadvance
      refine ⟨out ++ p.1, p.2, ?_, ?_⟩
      · rw [hsplit, run_append, hrun]
        simp [run, hadvance, Except.bind, Except.map]
      · rw [hsplit, List.count_append, List.count_append]
        omega
    · rw [hnone] at hsome
      cases hsome

end State

/-! ## The error of a conversion -/

/-- The first fault ends the conversion, whatever stands behind it. -/
theorem ofTokens_of_firstFault {ts : List Token} {i : Nat} {e : CalcError} (h : FirstFault ts i e)
    (hmark : .endMark ∉ ts) : ofTokens ts = .error e := by
  have hi : i < ts.length := lt_length_of_faultAt? h.fault
  obtain ⟨out, s, hrun, hdepth⟩ := State.run_take hi.le h.first
  have hfault := h.fault
  rw [faultAt?_eq hi] at hfault
  rcases State.advance_or_fault ts[i] hdepth with ⟨p, -, hnone⟩ | ⟨e', hadvance, hsome⟩
  · rw [hfault] at hnone
    cases hnone
  · obtain rfl : e = e' := Option.some.inj (hfault.symm.trans hsome)
    have hsplit : ts = ts.take i ++ ts[i] :: ts.drop (i + 1) := by
      rw [← List.drop_eq_getElem_cons hi, List.take_append_drop]
    rw [ofTokens_eq_run hmark, hsplit, State.run_append, hrun]
    simp [State.run, hadvance, Except.bind, Except.map]

/-- Without a fault the numbers of parentheses decide. -/
theorem ofTokens_of_no_fault {ts : List Token} (h : ∀ i, faultAt? ts i = none)
    (hmark : .endMark ∉ ts) :
    (ts.count .leftParen = ts.count .rightParen → ∃ r, ofTokens ts = .ok r) ∧
      (ts.count .leftParen ≠ ts.count .rightParen → ofTokens ts = .error .unmatchedParentheses) := by
  obtain ⟨out, s, hrun, hdepth⟩ := State.run_take (Nat.le_refl ts.length) fun j _ => h j
  rw [List.take_length] at hrun hdepth
  rw [ofTokens_eq_run hmark, hrun]
  obtain ⟨operand, inner, outer⟩ := s
  cases outer with
  | nil => exact ⟨fun _ => ⟨_, rfl⟩, fun hne => absurd (by simpa using hdepth.symm) hne⟩
  | cons group outer =>
    refine ⟨fun heq => ?_, fun _ => rfl⟩
    simp only [List.length_cons] at hdepth
    omega

/-- A conversion that fails has a first fault with its error, or groups that stay open. -/
theorem firstFault_of_error {ts : List Token} {e : CalcError} (h : ofTokens ts = .error e)
    (hmark : .endMark ∉ ts) : (∃ i, FirstFault ts i e) ∨ e = .unmatchedParentheses := by
  by_cases hfault : ∀ i, faultAt? ts i = none
  · obtain ⟨hequal, hdiffer⟩ := ofTokens_of_no_fault hfault hmark
    by_cases hcount : ts.count .leftParen = ts.count .rightParen
    · obtain ⟨r, hr⟩ := hequal hcount
      rw [h] at hr
      cases hr
    · rw [hdiffer hcount] at h
      exact .inr (Except.error.inj h).symm
  · obtain ⟨i, hi⟩ := not_forall.mp hfault
    obtain ⟨e', he'⟩ := Option.ne_none_iff_exists'.mp hi
    obtain ⟨j, first, hfirst⟩ := exists_firstFault he'
    rw [ofTokens_of_firstFault hfirst hmark] at h
    exact .inl ⟨j, Except.error.inj h ▸ hfirst⟩

theorem ofTokens_error {ts : List Token} {e : CalcError} (h : ofTokens ts = .error e)
    (hmark : .endMark ∉ ts) : e = .unmatchedParentheses ∨ ∃ c, e = .invalidCharacter c := by
  rcases firstFault_of_error h hmark with ⟨i, hfirst⟩ | he
  · obtain ⟨t, -, ⟨c, -, he⟩ | ⟨-, he⟩⟩ := of_faultAt?_eq_some hfirst.fault
    · exact .inr ⟨c, he⟩
    · exact .inl he
  · exact .inl he

/-- A character is refused only where it stands as a token. -/
theorem mem_of_invalidCharacter {ts : List Token} {c : Char}
    (h : ofTokens ts = .error (.invalidCharacter c)) (hmark : .endMark ∉ ts) : .invalid c ∈ ts := by
  rcases firstFault_of_error h hmark with ⟨i, hfirst⟩ | he
  · obtain ⟨t, ht, ⟨c', rfl, he⟩ | ⟨-, he⟩⟩ := of_faultAt?_eq_some hfirst.fault
    · cases he
      exact List.mem_of_getElem? ht
    · cases he
  · cases he

/-! ## Texts -/

theorem isSymbol_of_faultAt? {ts : List Token} {i : Nat} (hi : i < ts.length) {e : CalcError}
    (h : faultAt? ts i = some e) : Token.IsSymbol ts[i] := by
  obtain ⟨t, ht, hkind⟩ := of_faultAt?_eq_some h
  obtain rfl : ts[i] = t := Option.some.inj ((List.getElem?_eq_getElem hi).symm.trans ht)
  rcases hkind with ⟨c, hc, -⟩ | ⟨hparen, -⟩
  · rw [hc]
    trivial
  · rw [hparen]
    trivial

/-- Adding to a text does not change its first fault. -/
theorem FirstFault.append {s : List Char} {i : Nat} {e : CalcError} (h : FirstFault (tokens s) i e)
    (more : List Char) : FirstFault (tokens (s ++ more)) i e := by
  have hi : i < (tokens s).length := lt_length_of_faultAt? h.fault
  have hsplit : tokens s = (tokens s).take i ++ (tokens s)[i] :: (tokens s).drop (i + 1) := by
    rw [← List.drop_eq_getElem_cons hi, List.take_append_drop]
  -- the token at fault is a character that no other token goes on from
  obtain ⟨after, hafter⟩ :=
    Token.exists_tokens_append hsplit (isSymbol_of_faultAt? hi h.fault) more
  rw [← List.singleton_append, ← List.append_assoc, List.take_append_getElem hi] at hafter
  have hsame : ∀ j ≤ i, faultAt? (tokens (s ++ more)) j = faultAt? (tokens s) j := by
    intro j hj
    have hlt : j < ((tokens s).take (i + 1)).length := by
      rw [List.length_take_of_le hi]
      omega
    rw [hafter, faultAt?_append hlt, ← faultAt?_append hlt ((tokens s).drop (i + 1)),
      List.take_append_drop]
  refine ⟨(hsame i (Nat.le_refl i)).trans h.fault, ?_⟩
  intro j hj
  rw [hsame j hj.le, h.first j hj]

/-- **The errors of conversion.** The first fault of a text decides its error, whatever is added to
the text; without a fault a text is converted exactly when it has as many opening as closing
parentheses, and else these are the error. There are no other errors. -/
theorem ofText_of_faults (text : String) :
    (∀ i e, FirstFault (tokens text.toList) i e →
      ofText text = .error e ∧ ∀ more, ofText (text ++ more) = .error e) ∧
    ((∀ i, faultAt? (tokens text.toList) i = none) →
      ((tokens text.toList).count .leftParen = (tokens text.toList).count .rightParen →
        ∃ r, ofText text = .ok r) ∧
      ((tokens text.toList).count .leftParen ≠ (tokens text.toList).count .rightParen →
        ofText text = .error .unmatchedParentheses)) ∧
    ∀ e, ofText text = .error e → e = .unmatchedParentheses ∨ ∃ c, e = .invalidCharacter c := by
  have hmark := Token.endMark_notMem_tokens
  refine ⟨?_, fun h => ofTokens_of_no_fault h (hmark _), fun e h => ofTokens_error h (hmark _)⟩
  intro i e h
  refine ⟨ofTokens_of_firstFault h (hmark _), ?_⟩
  intro more
  rw [ofText, String.toList_append]
  exact ofTokens_of_firstFault (h.append more.toList) (hmark _)

/-- A closing parenthesis too many before a refused character, a refused character before one, a group
that stays open, and parentheses that match. -/
theorem ofText_of_faults_samples :
    FirstFault (tokens "sqrt(2))+#".toList) 4 .unmatchedParentheses ∧
    (∀ more, ofText ("sqrt(2))+#" ++ more) = .error .unmatchedParentheses) ∧
    FirstFault (tokens "2#)".toList) 1 (.invalidCharacter '#') ∧
    (∀ more, ofText ("2#)" ++ more) = .error (.invalidCharacter '#')) ∧
    ofText "-(2^(3" = .error .unmatchedParentheses ∧
    ∃ r, ofText "-(2^(3))" = .ok r := by
  have hparen : FirstFault (tokens "sqrt(2))+#".toList) 4 .unmatchedParentheses :=
    ⟨by with_unfolding_all rfl, by decide +kernel⟩
  have hrefused : FirstFault (tokens "2#)".toList) 1 (.invalidCharacter '#') :=
    ⟨by with_unfolding_all rfl, by decide +kernel⟩
  have hopen : ∀ i, faultAt? (tokens "-(2^(3".toList) i = none :=
    no_fault_of_lt (by decide +kernel)
  have hmatched : ∀ i, faultAt? (tokens "-(2^(3))".toList) i = none :=
    no_fault_of_lt (by decide +kernel)
  exact ⟨hparen, ((ofText_of_faults _).1 _ _ hparen).2, hrefused,
    ((ofText_of_faults _).1 _ _ hrefused).2, ((ofText_of_faults _).2.1 hopen).2 (by decide +kernel),
    ((ofText_of_faults _).2.1 hmatched).1 (by decide +kernel)⟩

end PocketCalc.Postfix
