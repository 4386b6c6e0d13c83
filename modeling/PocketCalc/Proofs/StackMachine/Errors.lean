import Mathlib.Data.List.Forall2
import PocketCalc.Evaluation
import PocketCalc.Proofs.Grammar.Conversion

/-!
# The errors of the stack machine

A token fails in one of two ways. It finds too few numbers on the stack, which the kinds of the
tokens tell in advance (`step_of_short`), or its operation is undefined for the numbers that it
finds (`undefined_of_step`). The first failure is the error of the calculation, so errors of the
second way can come before those of the first, and change nothing else (`evaluate_of_kinds`).

No error is about a character: characters are refused before anything runs, by the conversion
(`ofText_of_evaluate_lexical`).
-/

namespace PocketCalc

/-- Tokens that differ at most in the value of a number. -/
inductive Token.SameKind : Token → Token → Prop where
  | number (v w : Float) : SameKind (.number v) (.number w)
  | refl (t : Token) : SameKind t t

namespace StackMachine

/-! ## Heights -/

/-- The height is unknown exactly if it runs short at some token. -/
theorem height_eq_none_iff {n : Nat} {ts : List Token} : height n ts = none ↔
    ∃ k t, ts[k]? = some t ∧ ∃ m, height n (ts.take k) = some m ∧ heightAfter m t = none := by
  induction ts generalizing n with
  | nil => simp [height]
  | cons t ts ih =>
    rw [height]
    cases ht : heightAfter n t with
    | none =>
      rw [Option.bind_none, eq_self, true_iff]
      exact ⟨0, t, rfl, n, rfl, ht⟩
    | some m =>
      rw [Option.bind_some, ih]
      constructor
      · rintro ⟨k, u, hu, m', hm', hshort⟩
        refine ⟨k + 1, u, hu, m', ?_, hshort⟩
        rw [List.take_succ_cons, height, ht]
        exact hm'
      · rintro ⟨k, u, hu, m', hm', hshort⟩
        cases k with
        | zero =>
          cases hu
          cases hm'
          rw [ht] at hshort
          cases hshort
        | succ k =>
          rw [List.take_succ_cons, height, ht] at hm'
          exact ⟨k, u, hu, m', hm', hshort⟩

/-- Up to a height that is known no token runs short. -/
theorem heightAfter_of_height {n m k : Nat} {ts : List Token} {i : Nat} {t : Token}
    (h : height n ts = some m) (ht : ts[i]? = some t) (hk : height n (ts.take i) = some k) :
    ∃ k', heightAfter k t = some k' := by
  cases hk' : heightAfter k t with
  | none =>
    rw [height_eq_none_iff.mpr ⟨i, t, ht, k, hk, hk'⟩] at h
    cases h
  | some k' => exact ⟨k', rfl⟩

/-- The height depends on the kinds of the tokens alone. -/
theorem height_of_sameKind {ts us : List Token} (h : List.Forall₂ Token.SameKind ts us) (n : Nat) :
    height n ts = height n us := by
  induction h generalizing n with
  | nil => rfl
  | cons hkind _ ih =>
    simp only [height, ih]
    cases hkind <;> rfl

/-- The error of a token that finds too few numbers on the stack. -/
def shortage? : Token → Option CalcError
  | .operator op => some (.missingOperands op.symbol)
  | .function name => some (.missingArgument name)
  | .number _ | .leftParen | .rightParen | .endMark | .invalid _ => none

/-- The height runs short at the token `t` in place `k`, and not before. -/
structure ShortAt (ts : List Token) (k : Nat) (t : Token) : Prop where
  at_place : ts[k]? = some t
  short : ∃ n, height 0 (ts.take k) = some n ∧ heightAfter n t = none

/-- Where the height of all tokens is unknown, there is a place at which it runs short. -/
theorem exists_shortAt_iff {ts : List Token} :
    (∃ k t, ShortAt ts k t) ↔ height 0 ts = none := by
  rw [height_eq_none_iff]
  constructor
  · rintro ⟨k, t, h⟩
    exact ⟨k, t, h.at_place, h.short⟩
  · rintro ⟨k, t, hplace, hshort⟩
    exact ⟨k, t, hplace, hshort⟩

variable [Elementary]

/-! ## One token -/

/-- The operation of a token is undefined for the numbers on top of the stack, or unknown. -/
inductive Undefined : List Float → Token → CalcError → Prop where
  | operator {op left right rest e} : op.apply left right = .error e →
      Undefined (right :: left :: rest) (.operator op) e
  | function {name x rest e} : applyNamed name x = .error e →
      Undefined (x :: rest) (.function name) e

theorem category_of_undefined {stack : List Float} {t : Token} {e : CalcError}
    (h : Undefined stack t e) : e.category = .domain ∨ e.category = .unknownName := by
  cases h with
  | operator happly => exact .inl (Grammar.category_of_apply happly)
  | function happly => exact Grammar.category_of_applyNamed happly

/-- A stack that is too low for a token is its error. -/
theorem step_of_short {stack : List Float} {t : Token} (h : heightAfter stack.length t = none) :
    ∃ e, shortage? t = some e ∧ step stack t = .error e := by
  cases t with
  | number v | leftParen | rightParen | endMark | invalid c => cases h
  | operator op =>
    refine ⟨_, rfl, ?_⟩
    rcases stack with _ | ⟨right, _ | ⟨left, rest⟩⟩
    · rfl
    · rfl
    · simp [heightAfter] at h
  | function name =>
    refine ⟨_, rfl, ?_⟩
    cases stack with
    | nil => rfl
    | cons x rest => simp [heightAfter] at h

/-- On a stack that is high enough, a token fails only where its operation is undefined. -/
theorem undefined_of_step {stack : List Float} {t : Token} {n : Nat} {e : CalcError}
    (hn : heightAfter stack.length t = some n) (h : step stack t = .error e) :
    Undefined stack t e := by
  cases t with
  | number v | leftParen | rightParen | endMark | invalid c => cases h
  | operator op =>
    rcases stack with _ | ⟨right, _ | ⟨left, rest⟩⟩
    · simp [heightAfter] at hn
    · simp [heightAfter] at hn
    · cases happly : op.apply left right with
      | ok v => simp [step, happly, Except.map] at h
      | error e' =>
        simp only [step, happly, Except.map] at h
        cases h
        exact .operator happly
  | function name =>
    cases stack with
    | nil => simp [heightAfter] at hn
    | cons x rest =>
      cases happly : applyNamed name x with
      | ok v => simp [step, happly, Except.map] at h
      | error e' =>
        simp only [step, happly, Except.map] at h
        cases h
        exact .function happly

theorem category_of_step {stack : List Float} {t : Token} {e : CalcError}
    (h : step stack t = .error e) : e.category ≠ .lexical := by
  cases hn : heightAfter stack.length t with
  | none =>
    obtain ⟨e', he', hstep⟩ := step_of_short hn
    obtain rfl : e = e' := Except.error.inj (h.symm.trans hstep)
    cases t <;> cases he' <;> simp [CalcError.category]
  | some n =>
    rcases category_of_undefined (undefined_of_step hn h) with he | he <;> simp [he]

/-! ## All tokens -/

/-- A run fails at the first token that fails. -/
theorem exists_step_of_run {stack : List Float} {ts : List Token} {e : CalcError}
    (h : run stack ts = .error e) : ∃ i t mid, ts[i]? = some t ∧
      run stack (ts.take i) = .ok mid ∧ step mid t = .error e := by
  induction ts generalizing stack with
  | nil => cases h
  | cons t ts ih =>
    cases hstep : step stack t with
    | error e' =>
      rw [run, hstep] at h
      cases h
      exact ⟨0, t, stack, rfl, rfl, hstep⟩
    | ok next =>
      rw [run, hstep] at h
      obtain ⟨i, u, mid, hu, hrun, hfail⟩ := ih h
      refine ⟨i + 1, u, mid, hu, ?_, hfail⟩
      rw [List.take_succ_cons, run, hstep]
      exact hrun

/-- The token in place `i` is the first that fails, because its operation is undefined. -/
def UndefinedAt (ts : List Token) (i : Nat) (e : CalcError) : Prop :=
  ∃ t stack, ts[i]? = some t ∧ run [] (ts.take i) = .ok stack ∧ Undefined stack t e

theorem UndefinedAt.category {ts : List Token} {i : Nat} {e : CalcError}
    (h : UndefinedAt ts i e) : e.category = .domain ∨ e.category = .unknownName := by
  obtain ⟨t, stack, -, -, hundefined⟩ := h
  exact category_of_undefined hundefined

/-- A run of known height leaves that height, or fails at an operation that is undefined. -/
theorem run_of_height {ts : List Token} {n : Nat} (hn : height 0 ts = some n) :
    (∃ stack, run [] ts = .ok stack ∧ stack.length = n) ∨
      ∃ i e, UndefinedAt ts i e ∧ run [] ts = .error e := by
  cases hrun : run [] ts with
  | ok stack =>
    have hheight := height_of_run hrun
    rw [List.length_nil, hn, Option.some.injEq] at hheight
    exact .inl ⟨stack, rfl, hheight.symm⟩
  | error e =>
    obtain ⟨i, t, mid, ht, hbefore, hstep⟩ := exists_step_of_run hrun
    obtain ⟨k, hk⟩ := heightAfter_of_height hn ht (height_of_run hbefore)
    exact .inr ⟨i, e, ⟨t, mid, ht, hbefore, undefined_of_step hk hstep⟩, rfl⟩

/-- A calculation with a value balances. -/
theorem height_of_evaluate {ts : List Token} {v : Float} (h : evaluate ts = .ok v) :
    height 0 ts = some 1 :=
  height_of_run (evaluate_eq_ok.mp h)

/-- Behind a token at which a run has failed, nothing counts. -/
theorem evaluate_append_of_error {ts : List Token} {e : CalcError} (h : run [] ts = .error e)
    (more : List Token) : evaluate (ts ++ more) = .error e := by
  rw [evaluate, run_append, h]
  rfl

theorem UndefinedAt.of_take {ts : List Token} {k i : Nat} {e : CalcError}
    (h : UndefinedAt (ts.take k) i e) : i < k ∧ UndefinedAt ts i e := by
  obtain ⟨t, stack, ht, hrun, hundefined⟩ := h
  rw [List.getElem?_take, Option.ite_none_right_eq_some] at ht
  rw [List.take_take, Nat.min_eq_left (Nat.le_of_lt ht.1)] at hrun
  exact ⟨ht.1, t, stack, ht.2, hrun, hundefined⟩

/-- A run to the token at which the height runs short fails there, unless an operation before it is
undefined. -/
theorem run_of_shortAt {ts : List Token} {k : Nat} {t : Token} (h : ShortAt ts k t) :
    (∃ e, shortage? t = some e ∧ run [] (ts.take (k + 1)) = .error e) ∨
      ∃ i < k, ∃ e, UndefinedAt ts i e ∧ run [] (ts.take (k + 1)) = .error e := by
  obtain ⟨n, hn, hshort⟩ := h.short
  rw [List.take_add_one, h.at_place, Option.toList_some]
  rcases run_of_height hn with ⟨stack, hrun, rfl⟩ | ⟨i, e, hundefined, hrun⟩
  · obtain ⟨e, he, hstep⟩ := step_of_short hshort
    refine .inl ⟨e, he, ?_⟩
    rw [run_append, hrun]
    simp [run, hstep, Except.bind]
  · obtain ⟨hi, hundefined⟩ := hundefined.of_take
    refine .inr ⟨i, hi, e, hundefined, ?_⟩
    rw [run_append, hrun]
    rfl

/-- A calculation whose height is known has a value exactly if the height is one, unless an
operation is undefined. -/
theorem evaluate_of_height {ts : List Token} {n : Nat} (hn : height 0 ts = some n) :
    (∃ i e, UndefinedAt ts i e ∧ evaluate ts = .error e) ∨
      if n = 1 then ∃ v, evaluate ts = .ok v else evaluate ts = .error .malformedExpression := by
  rcases run_of_height hn with ⟨stack, hrun, rfl⟩ | ⟨i, e, hundefined, hrun⟩
  · rw [evaluate, hrun]
    right
    rcases stack with _ | ⟨v, _ | ⟨w, rest⟩⟩
    · rfl
    · exact ⟨v, rfl⟩
    · simp [Except.bind, result]
  · refine .inl ⟨i, e, hundefined, ?_⟩
    rw [evaluate, hrun]
    rfl

/-- **Structural errors come from the kinds of tokens.** Where the height is unknown, it runs short
at a place `k`, and the error is that shortage or the one of an undefined operation before it,
whatever stands behind. Where the height is known but not one, the error is that of the expression
or of an undefined operation. So no values of the numbers make a list of tokens succeed and others
make it structurally wrong. -/
theorem evaluate_of_kinds (ts : List Token) :
    ((∃ k t, ShortAt ts k t) ↔ height 0 ts = none) ∧
    (∀ k t, ShortAt ts k t →
      ((∃ e, shortage? t = some e ∧ evaluate ts = .error e) ∨
        ∃ i < k, ∃ e, UndefinedAt ts i e ∧ evaluate ts = .error e ∧
          (e.category = .domain ∨ e.category = .unknownName)) ∧
      ∀ more, evaluate (ts.take (k + 1) ++ more) = evaluate ts) ∧
    (∀ n, height 0 ts = some n → n ≠ 1 →
      evaluate ts = .error .malformedExpression ∨
        ∃ i e, UndefinedAt ts i e ∧ evaluate ts = .error e ∧
          (e.category = .domain ∨ e.category = .unknownName)) ∧
    (∀ us, List.Forall₂ Token.SameKind ts us → ∀ v e,
      evaluate ts = .ok v → evaluate us = .error e → e.category ≠ .structural) := by
  refine ⟨exists_shortAt_iff, ?_, ?_, ?_⟩
  · intro k t h
    have hfail : ∀ e, run [] (ts.take (k + 1)) = .error e → evaluate ts = .error e ∧
        ∀ more, evaluate (ts.take (k + 1) ++ more) = evaluate ts := by
      intro e he
      have hall := evaluate_append_of_error he
      have hts := hall (ts.drop (k + 1))
      rw [List.take_append_drop] at hts
      exact ⟨hts, fun more => (hall more).trans hts.symm⟩
    rcases run_of_shortAt h with ⟨e, he, hrun⟩ | ⟨i, hi, e, hundefined, hrun⟩
    · obtain ⟨hts, hmore⟩ := hfail e hrun
      exact ⟨.inl ⟨e, he, hts⟩, hmore⟩
    · obtain ⟨hts, hmore⟩ := hfail e hrun
      exact ⟨.inr ⟨i, hi, e, hundefined, hts, hundefined.category⟩, hmore⟩
  · intro n hn hne
    rcases evaluate_of_height hn with ⟨i, e, hundefined, hts⟩ | hts
    · exact .inr ⟨i, e, hundefined, hts, hundefined.category⟩
    · rw [if_neg hne] at hts
      exact .inl hts
  · intro us hkinds v e hv he
    have hheight := height_of_evaluate hv
    rw [height_of_sameKind hkinds] at hheight
    rcases evaluate_of_height hheight with ⟨i, e', hundefined, hus⟩ | ⟨w, hus⟩
    · obtain rfl : e = e' := Except.error.inj (he.symm.trans hus)
      rcases hundefined.category with hc | hc <;> simp [hc]
    · rw [he] at hus
      cases hus

/-- A shortage with any tokens behind it, one that a division by zero comes before, and two lists
that differ in a number. -/
theorem evaluate_of_kinds_samples :
    ShortAt [.number 1, .leftParen, .operator .add, .number 2] 2 (.operator .add) ∧
    (∀ more, evaluate ([.number 1, .leftParen, .operator .add] ++ more) =
      .error (.missingOperands '+')) ∧
    ShortAt [.number 1, .number 0, .operator .div, .operator .add] 3 (.operator .add) ∧
    (∀ more, evaluate ([.number 1, .number 0, .operator .div, .operator .add] ++ more) =
      .error .divisionByZero) ∧
    ∀ v e, evaluate [.number 1, .number 4, .operator .div] = .ok v →
      evaluate [.number 1, .number 0, .operator .div] = .error e → e.category ≠ .structural := by
  have hshort : ShortAt [.number 1, .leftParen, .operator .add, .number 2] 2 (.operator .add) :=
    ⟨rfl, 1, rfl, rfl⟩
  have hlater : ShortAt [.number 1, .number 0, .operator .div, .operator .add] 3
      (.operator .add) := ⟨rfl, 1, rfl, rfl⟩
  have hkinds : List.Forall₂ Token.SameKind [.number 1, .number 4, .operator .div]
      [.number 1, .number 0, .operator .div] :=
    .cons (.refl _) (.cons (.number 4 0) (.cons (.refl _) .nil))
  refine ⟨hshort, ?_, hlater, ?_, (evaluate_of_kinds _).2.2.2 _ hkinds⟩
  · intro more
    exact ((evaluate_of_kinds _).2.1 _ _ hshort).2 more
  · intro more
    have hvalue : evaluate [.number 1, .number 0, .operator .div, .operator .add] =
        .error .divisionByZero := by
      with_unfolding_all rfl
    exact (((evaluate_of_kinds _).2.1 _ _ hlater).2 more).trans hvalue

/-! ## No error is about a character -/

theorem category_of_run {stack : List Float} {ts : List Token} {e : CalcError}
    (h : run stack ts = .error e) : e.category ≠ .lexical := by
  obtain ⟨i, t, mid, -, -, hstep⟩ := exists_step_of_run h
  exact category_of_step hstep

/-- No error of a calculation is about a character. -/
theorem category_of_evaluate {ts : List Token} {e : CalcError} (h : evaluate ts = .error e) :
    e.category ≠ .lexical := by
  unfold evaluate at h
  cases hrun : run [] ts with
  | error e' =>
    rw [hrun] at h
    cases h
    exact category_of_run hrun
  | ok stack =>
    rw [hrun] at h
    simp only [Except.bind, result] at h
    split at h <;> cases h
    simp [CalcError.category]

end StackMachine

/-- An error about a character comes from the conversion. -/
theorem ofText_of_evaluate_lexical [Elementary] {text : String} {e : CalcError}
    (h : evaluate text = .error e) (he : e.category = .lexical) :
    Postfix.ofText text = .error e := by
  unfold evaluate at h
  cases hconverted : Postfix.ofText text with
  | error e' =>
    rw [hconverted] at h
    cases h
    rfl
  | ok r =>
    rw [hconverted] at h
    exact absurd he (StackMachine.category_of_evaluate h)

end PocketCalc
