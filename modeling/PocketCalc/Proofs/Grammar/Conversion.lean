import PocketCalc.Evaluation
import PocketCalc.Grammar
import PocketCalc.Proofs.Postfix.Frame

/-!
# Derivations are converted to postorder

The converter and the grammar agree: the tokens of a derivation come out in the postorder of its
tree, so evaluating a well-formed text is evaluating the tree.

The induction is on the derivation, with any list `inner` of entries waiting below it. Two facts
carry it. What comes out, followed by what waits, is the postorder followed by what waited before
(`Converted.complete`); and an operator that may come next drops the new entries and then goes on
in `inner` as if they had never been there (`Converted.released`). The only entries that must not
be disturbed are those below an expression with operators of its own, which is what `Admits` asks.
-/

namespace PocketCalc.Grammar

open Postfix

/-! ## Operators inside and behind an expression -/

/-- The operators that stand in an expression of a level outside its groups. -/
def Level.operators : Level → List Operator
  | .sum => [.add, .sub, .mul, .div, .pow]
  | .product => [.mul, .div, .pow]
  | .signed | .power => [.pow]
  | .base => []

/-- The operators that may stand behind an expression of a level in a larger one. -/
def Level.followers : Level → List Operator
  | .sum => [.add, .sub]
  | .product | .signed | .power => [.add, .sub, .mul, .div]
  | .base => [.add, .sub, .mul, .div, .pow]

/-- No operator of an expression of the level releases what waits below the expression. -/
def Admits (level : Level) (inner : List Waiting) : Prop :=
  ∀ op ∈ level.operators, inner.dropWhile (Waiting.yieldsTo op) = inner

theorem Admits.mono {l m : Level} {inner : List Waiting} (h : Admits l inner)
    (hsub : m.operators ⊆ l.operators) : Admits m inner :=
  fun op hop => h op (hsub hop)

theorem admits_nil (level : Level) : Admits level [] := fun _ _ => rfl

/-- An entry that holds its ground on top protects everything below it. -/
theorem admits_cons {level : Level} {top : Waiting}
    (h : ∀ op ∈ level.operators, top.yieldsTo op = false) (inner : List Waiting) :
    Admits level (top :: inner) :=
  fun op hop => List.dropWhile_cons_of_neg (by rw [h op hop]; decide)

/-- What the conversion of an expression with the tree `e` on top of `inner` has put out, and what
waits after it. -/
structure Converted (level : Level) (inner : List Waiting) (e : Expression)
    (out : List Token) (pending : List Waiting) : Prop where
  complete : out ++ pending.map Waiting.token = e.postorder ++ inner.map Waiting.token
  released : ∀ op ∈ level.followers,
    pending.dropWhile (Waiting.yieldsTo op) = inner.dropWhile (Waiting.yieldsTo op)

theorem Converted.mono {l m : Level} {inner pending : List Waiting} {e : Expression}
    {out : List Token} (h : Converted l inner e out pending)
    (hsub : m.followers ⊆ l.followers) : Converted m inner e out pending :=
  ⟨h.complete, fun op hop => h.released op (hsub hop)⟩

/-! ## One step of the induction for each shape of expression -/

/-- The conversion of `ts` on top of `inner` reaches a state that belongs to the tree `e`. -/
def Converts (level : Level) (ts : List Token) (e : Expression) (inner : List Waiting) : Prop :=
  ∀ outer rest, ∃ out pending,
    convert true inner outer (ts ++ rest) = emit out (convert false pending outer rest) ∧
      Converted level inner e out pending

theorem Converts.mono {l m : Level} {ts : List Token} {e : Expression} {inner : List Waiting}
    (h : Converts l ts e inner) (hsub : m.followers ⊆ l.followers) : Converts m ts e inner := by
  intro outer rest
  obtain ⟨out, pending, hrun, hc⟩ := h outer rest
  exact ⟨out, pending, hrun, hc.mono hsub⟩

/-- A binary operator between two expressions. It releases the left operand's entries but none of
`inner`, waits below the right operand, and yields to whatever may follow. -/
theorem Converts.binary {l r m : Level} {ts us : List Token} {a b : Expression} {op : Operator}
    {inner : List Waiting} (hl : Converts l ts a inner)
    (hr : Converts r us b (.operator op :: inner)) (hop : op ∈ l.followers)
    (hkeep : inner.dropWhile (Waiting.yieldsTo op) = inner) (hsub : m.followers ⊆ r.followers)
    (hyield : ∀ next ∈ m.followers, Waiting.yieldsTo next (.operator op) = true) :
    Converts m (ts ++ .operator op :: us) (.binary op a b) inner := by
  intro outer rest
  obtain ⟨out₁, p₁, hrun₁, hc₁⟩ := hl outer (.operator op :: us ++ rest)
  obtain ⟨out₂, p₂, hrun₂, hc₂⟩ := hr outer rest
  -- what the left operand has left waiting comes out, which completes its postorder
  have hdrop : p₁.dropWhile (Waiting.yieldsTo op) = inner := by
    rw [hc₁.released op hop, hkeep]
  have hsplit : out₁ ++ (p₁.takeWhile (Waiting.yieldsTo op)).map Waiting.token = a.postorder := by
    have h := hc₁.complete
    rw [← List.takeWhile_append_dropWhile (p := Waiting.yieldsTo op) (l := p₁), hdrop,
      List.map_append, ← List.append_assoc] at h
    exact List.append_cancel_right h
  refine ⟨out₁ ++ (p₁.takeWhile (Waiting.yieldsTo op)).map Waiting.token ++ out₂, p₂, ?_, ?_, ?_⟩
  · simp only [List.append_assoc, List.cons_append] at hrun₁ ⊢
    rw [hrun₁]
    simp only [convert, Bool.false_and, Bool.false_eq_true, if_false, hdrop, hrun₂, emit_emit]
  · rw [hsplit, List.append_assoc, hc₂.complete]
    simp [Expression.postorder, Waiting.token]
  · intro next hnext
    rw [hc₂.released next (hsub hnext), List.dropWhile_cons_of_pos (hyield next hnext)]

/-- Functions are pushed one after the other. -/
theorem convert_functions (names : List String) (inner : List Waiting)
    (outer : List (List Waiting)) (ts : List Token) :
    convert true inner outer (names.map .function ++ ts) =
      convert true (names.reverse.map .function ++ inner) outer ts := by
  induction names generalizing inner with
  | nil => rfl
  | cons name names ih => simp [convert, ih]

/-- Every operator releases the functions that wait on top. -/
theorem dropWhile_functions (names : List String) (op : Operator) (inner : List Waiting) :
    (names.map Waiting.function ++ inner).dropWhile (Waiting.yieldsTo op) =
      inner.dropWhile (Waiting.yieldsTo op) := by
  induction names with
  | nil => rfl
  | cons name names ih =>
    rw [List.map_cons, List.cons_append, List.dropWhile_cons_of_pos (by rfl), ih]

/-- Applying functions puts their tokens behind the argument, the innermost first. -/
theorem postorder_callAll (names : List String) (e : Expression) :
    (callAll names e).postorder = e.postorder ++ names.reverse.map .function := by
  induction names with
  | nil => simp [callAll]
  | cons name names ih =>
    have hcons : callAll (name :: names) e = .call name (callAll names e) := rfl
    rw [hcons, Expression.postorder, ih]
    simp

/-- A minus sign behind functions. Its zero comes out at once and nothing is released. -/
theorem Converts.negate {ts : List Token} {e : Expression} {inner : List Waiting}
    (names : List String)
    (h : Converts .signed ts e (.negation :: (names.reverse.map .function ++ inner))) :
    Converts .signed (names.map .function ++ .operator .sub :: ts) (callAll names e.negate)
      inner := by
  intro outer rest
  obtain ⟨out, pending, hrun, hc⟩ := h outer rest
  refine ⟨.number 0 :: out, pending, ?_, ?_, ?_⟩
  · rw [List.append_assoc, convert_functions]
    simp only [List.cons_append, convert, beq_self_eq_true, Bool.and_self, if_true, hrun,
      emit_emit, List.nil_append]
  · rw [List.cons_append, hc.complete, postorder_callAll]
    simp [Expression.negate, Expression.postorder, Waiting.token, Function.comp_def]
  · intro op hop
    have hyield : Waiting.yieldsTo op .negation = true := by
      cases op <;> simp_all [Level.followers, Waiting.yieldsTo]
    rw [hc.released op hop, List.dropWhile_cons_of_pos hyield, dropWhile_functions]

/-- A group. The closing parenthesis releases all of it and also a function that stands before it,
which belongs to `inner` and so to the rest of the postorder. -/
theorem Converts.group {ts : List Token} {e : Expression} (inner : List Waiting)
    (h : Converts .sum ts e []) :
    Converts .base (.leftParen :: ts ++ [.rightParen]) e inner := by
  intro outer rest
  obtain ⟨out, pending, hrun, hc⟩ := h (inner :: outer) (.rightParen :: rest)
  have hpost : out ++ pending.map Waiting.token = e.postorder := by simpa using hc.complete
  refine ⟨out ++ (close pending inner).1, (close pending inner).2, ?_, ?_, ?_⟩
  · simp only [List.cons_append, List.append_assoc, List.nil_append, convert, hrun, emit_emit]
  · rw [close_fst, close_snd, ← hpost, List.append_assoc, List.append_assoc, List.append_assoc,
      close_complete]
  · intro op _
    unfold close
    split
    · rw [List.dropWhile_cons_of_pos (by rfl)]
    · rfl

/-- A function waits on top of `inner` until its argument is complete. -/
theorem Converts.call {ts : List Token} {e : Expression} {inner : List Waiting} (name : String)
    (h : Converts .base ts e (.function name :: inner)) :
    Converts .base (.function name :: ts) (.call name e) inner := by
  intro outer rest
  obtain ⟨out, pending, hrun, hc⟩ := h outer rest
  refine ⟨out, pending, ?_, ?_, ?_⟩
  · simpa only [List.cons_append, convert] using hrun
  · rw [hc.complete]
    simp [Expression.postorder, Waiting.token]
  · intro op hop
    rw [hc.released op hop, List.dropWhile_cons_of_pos (by rfl)]

/-! ## The conversion of a derivation -/

/-- A derivation is converted as its tree says, on top of anything its operators do not release. -/
theorem converts_of_derives {level : Level} {ts : List Token} {e : Expression}
    (h : Derives level ts e) {inner : List Waiting} (hin : Admits level inner) :
    Converts level ts e inner := by
  induction h generalizing inner with
  | sumOfProduct _ ih | productOfSigned _ ih | signedOfPower _ ih | powerOfBase _ ih =>
    exact (ih (hin.mono (by decide))).mono (by decide)
  | add _ _ ihl ihr | sub _ _ ihl ihr | mul _ _ ihl ihr | div _ _ ihl ihr =>
    refine (ihl hin).binary (ihr (admits_cons ?_ inner)) (by decide) (hin _ (by decide))
      (by decide) (by decide)
    -- the operators of the right operand do not release the one that waits below it
    decide
  | pow _ _ ihl ihr =>
    -- a base has no operator of its own, so the left operand asks nothing of `inner`
    have hleft := ihl (hin.mono (by decide))
    refine hleft.binary (ihr (admits_cons ?_ inner)) (by decide) (hin _ (by decide)) (by decide)
      (by decide)
    decide
  | negate names _ ih => exact (ih (admits_cons (by decide) _)).negate names
  | number value =>
    intro outer rest
    exact ⟨[.number value], inner, rfl, rfl, fun _ _ => rfl⟩
  | group _ ih => exact (ih (admits_nil _)).group inner
  | call name _ ih =>
    refine (ih ?_).call name
    intro op hop
    cases hop

/-- The tokens of a derivation are converted to the postorder of its tree. -/
theorem ofTokens_of_derives {ts : List Token} {e : Expression} (h : Derives .sum ts e) :
    ofTokens ts = .ok e.postorder := by
  obtain ⟨out, pending, hrun, hc⟩ := converts_of_derives h (admits_nil _) [] []
  have hpost : out ++ pending.map Waiting.token = e.postorder := by simpa using hc.complete
  rw [List.append_nil] at hrun
  rw [ofTokens, hrun, convert, finish, ← hpost]
  rfl

/-- A tree has no parentheses: grouping is in its shape. -/
theorem paren_notMem_postorder (e : Expression) :
    .leftParen ∉ e.postorder ∧ .rightParen ∉ e.postorder := by
  induction e with
  | number value => simp [Expression.postorder]
  | call name argument ih => simp [Expression.postorder, ih]
  | binary op left right ihl ihr => simp [Expression.postorder, ihl, ihr]

/-! ## The value of a derivation -/

section

variable [Elementary]

/-- The value of a postorder is the value of its tree. -/
theorem evaluate_postorder (e : Expression) : StackMachine.evaluate e.postorder = e.evaluate := by
  rw [StackMachine.evaluate, e.run_postorder]
  cases e.evaluate <;> rfl

/-- What an operator refuses is undefined for its operands. -/
theorem category_of_apply {op : Operator} {a b : Float} {err : CalcError}
    (h : op.apply a b = .error err) : err.category = .domain := by
  cases op <;> simp only [Operator.apply, reduceCtorEq] at h
  · split at h <;> cases h
    rfl
  · split at h
    · cases h
      rfl
    · split at h <;> cases h
      rfl

/-- What a function refuses is undefined for its argument, unless there is no such function. -/
theorem category_of_applyNamed {name : String} {x : Float} {err : CalcError}
    (h : applyNamed name x = .error err) :
    err.category = .domain ∨ err.category = .unknownName := by
  unfold applyNamed at h
  split at h
  · left
    rename_i f _
    rcases f with _ | _ | _ | g
    case trig =>
      cases g <;> simp only [UnaryFunction.apply, Trig.apply, reduceCtorEq] at h
      split at h <;> cases h
      rfl
    all_goals
      simp only [UnaryFunction.apply] at h
      split at h <;> cases h
      rfl
  · cases h
    exact .inr rfl

/-- A tree fails only where an operation is undefined or a function unknown. -/
theorem category_of_evaluate (e : Expression) {err : CalcError} (h : e.evaluate = .error err) :
    err.category = .domain ∨ err.category = .unknownName := by
  induction e generalizing err with
  | number value => cases h
  | call name argument ih =>
    rw [Expression.evaluate] at h
    cases ha : argument.evaluate with
    | error e => rw [ha] at h; cases h; exact ih ha
    | ok x => rw [ha] at h; exact category_of_applyNamed h
  | binary op left right ihl ihr =>
    rw [Expression.evaluate] at h
    cases hl : left.evaluate with
    | error e => rw [hl] at h; cases h; exact ihl hl
    | ok a =>
      rw [hl] at h
      cases hr : right.evaluate with
      | error e => simp only [hr, Except.bind] at h; cases h; exact ihr hr
      | ok b => simp only [hr, Except.bind] at h; exact .inl (category_of_apply h)

/-- **Well-formed texts mean their trees.** A text whose tokens are derivable is converted to the
postorder of the tree, without parentheses, and its value is the value of the tree, the error of
the first node that fails included; that error is never lexical or structural. -/
theorem ofText_and_evaluate_of_derives {text : String} {e : Expression}
    (h : Derives .sum (Token.tokens text.toList) e) :
    ofText text = .ok e.postorder ∧
      (.leftParen ∉ e.postorder ∧ .rightParen ∉ e.postorder) ∧
      evaluate text = e.evaluate ∧
      ∀ err, evaluate text = .error err → err.category = .domain ∨ err.category = .unknownName := by
  have hconv : ofText text = .ok e.postorder := ofTokens_of_derives h
  have heval : evaluate text = e.evaluate := by
    rw [evaluate, hconv]
    exact evaluate_postorder e
  refine ⟨hconv, paren_notMem_postorder e, heval, ?_⟩
  intro err herr
  exact category_of_evaluate e (heval ▸ herr)

end

/-- A minus behind a function, a group and operators of two levels. -/
theorem evaluate_negated_argument :
    ∃ e, Derives .sum (Token.tokens "9-sqrt-(1-5)*2".toList) e ∧
      ofText "9-sqrt-(1-5)*2" = .ok e.postorder ∧ evaluate "9-sqrt-(1-5)*2" = e.evaluate ∧
      e.evaluate = .ok 5 := by
  have one : ∀ v, Derives .signed [.number v] (.number v) :=
    fun v => .signedOfPower (.powerOfBase (.number v))
  have group : Derives .base [.leftParen, .number 1, .operator .sub, .number 5, .rightParen]
      (.binary .sub (.number 1) (.number 5)) :=
    .group (.sub (.sumOfProduct (.productOfSigned (one 1))) (.productOfSigned (one 5)))
  have htokens : Token.tokens "9-sqrt-(1-5)*2".toList =
      [.number 9, .operator .sub, .function "sqrt", .operator .sub, .leftParen, .number 1,
        .operator .sub, .number 5, .rightParen, .operator .mul, .number 2] := by
    decide +kernel
  have h : Derives .sum (Token.tokens "9-sqrt-(1-5)*2".toList) (.binary .sub (.number 9)
      (.binary .mul (.call "sqrt" (.negate (.binary .sub (.number 1) (.number 5))))
        (.number 2))) := by
    rw [htokens]
    exact .sub (.sumOfProduct (.productOfSigned (one 9)))
      (.mul (.productOfSigned (.negate ["sqrt"] (.signedOfPower (.powerOfBase group)))) (one 2))
  obtain ⟨hconv, -, heval, -⟩ := ofText_and_evaluate_of_derives h
  exact ⟨_, h, hconv, heval, by with_unfolding_all rfl⟩

end PocketCalc.Grammar
