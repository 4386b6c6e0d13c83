import Mathlib.Logic.ExistsUnique
import PocketCalc.Proofs.StackMachine.Errors

/-!
# The stack machine evaluates a tree

The tokens that do something on the stack are the postorder of at most one tree, and of one exactly
when their kinds balance: the height that is known in advance is defined and ends at one. The tree
is built by the machine itself, with trees in place of numbers (`Expression.grow`): what it has on
its stack is always the postorder of the tokens so far (`flatMap_postorder_of_growAll`), and it is
never higher or lower than the stack of numbers (`length_growAll`). The value of the tokens is that
of the tree (`evaluate_eq_tree`).
-/

namespace PocketCalc

namespace Token

/-- Whether a token does nothing on the stack. -/
def isInert : Token → Bool
  | leftParen | rightParen | endMark | invalid _ => true
  | number _ | operator _ | function _ => false

/-- The tokens that do something on the stack. -/
def active (ts : List Token) : List Token := ts.filter (!·.isInert)

end Token

/-! ## Building trees on a stack -/

namespace Expression

/-- What a token makes of a stack of trees: the step of the machine with trees for numbers. -/
def grow (trees : List Expression) : Token → Option (List Expression)
  | .number value => some (number value :: trees)
  | .operator op =>
    match trees with
    | right :: left :: rest => some (binary op left right :: rest)
    | _ => none
  | .function name =>
    match trees with
    | argument :: rest => some (call name argument :: rest)
    | [] => none
  | .leftParen | .rightParen | .endMark | .invalid _ => some trees

/-- What tokens make of a stack of trees. -/
def growAll (trees : List Expression) : List Token → Option (List Expression)
  | [] => some trees
  | t :: ts => (grow trees t).bind fun trees => growAll trees ts

theorem growAll_append (trees : List Expression) (ts us : List Token) :
    growAll trees (ts ++ us) = (growAll trees ts).bind fun trees => growAll trees us := by
  induction ts generalizing trees with
  | nil => rfl
  | cons t ts ih =>
    simp only [List.cons_append, growAll]
    cases grow trees t with
    | none => rfl
    | some next => exact ih next

/-- The postorder of a tree grows that tree, whatever lies below it. -/
theorem growAll_postorder (e : Expression) (trees : List Expression) :
    growAll trees e.postorder = some (e :: trees) := by
  induction e generalizing trees with
  | number value => rfl
  | call name argument ih =>
    rw [postorder, growAll_append, ih]
    rfl
  | binary op left right ihl ihr =>
    rw [postorder, growAll_append, growAll_append, ihl, Option.bind_some, ihr]
    rfl

/-- No two trees have the same postorder. -/
theorem postorder_injective : Function.Injective postorder := by
  intro e f h
  have hgrow := growAll_postorder e []
  rw [h, growAll_postorder f []] at hgrow
  simpa using hgrow.symm

/-- A token that grows a tree stands behind the postorders of its operands. -/
theorem flatMap_postorder_of_grow {trees out : List Expression} {t : Token}
    (h : grow trees t = some out) :
    out.reverse.flatMap postorder = trees.reverse.flatMap postorder ++ Token.active [t] := by
  cases t with
  | number value =>
    cases h
    simp [postorder, Token.active, Token.isInert]
  | operator op =>
    rcases trees with _ | ⟨right, _ | ⟨left, rest⟩⟩
    · cases h
    · cases h
    · cases h
      simp [postorder, Token.active, Token.isInert]
  | function name =>
    cases trees with
    | nil => cases h
    | cons argument rest =>
      cases h
      simp [postorder, Token.active, Token.isInert]
  | leftParen | rightParen | endMark | invalid c =>
    cases h
    simp [Token.active, Token.isInert]

/-- The trees on the stack, the lowest first, spell the tokens that have grown them. -/
theorem flatMap_postorder_of_growAll {trees out : List Expression} {ts : List Token}
    (h : growAll trees ts = some out) :
    out.reverse.flatMap postorder = trees.reverse.flatMap postorder ++ Token.active ts := by
  induction ts generalizing trees with
  | nil =>
    cases h
    simp [Token.active]
  | cons t ts ih =>
    obtain ⟨next, hgrow, hrest⟩ := Option.bind_eq_some_iff.mp h
    have hsplit : Token.active (t :: ts) = Token.active [t] ++ Token.active ts := by
      rw [← List.singleton_append, Token.active, List.filter_append]
      rfl
    rw [ih hrest, flatMap_postorder_of_grow hgrow, hsplit, List.append_assoc]

/-- A token finds trees enough on a stack exactly when it would find numbers enough. -/
theorem length_grow (trees : List Expression) (t : Token) :
    (grow trees t).map List.length = StackMachine.heightAfter trees.length t := by
  cases t with
  | number value | leftParen | rightParen | endMark | invalid c => rfl
  | operator op =>
    rcases trees with _ | ⟨right, _ | ⟨left, rest⟩⟩ <;> simp [grow, StackMachine.heightAfter]
  | function name => cases trees <;> simp [grow, StackMachine.heightAfter]

/-- The stack of trees is as high as the stack of numbers would be. -/
theorem length_growAll (trees : List Expression) (ts : List Token) :
    (growAll trees ts).map List.length = StackMachine.height trees.length ts := by
  induction ts generalizing trees with
  | nil => rfl
  | cons t ts ih =>
    rw [growAll, StackMachine.height, ← length_grow]
    cases grow trees t with
    | none => rfl
    | some next => exact ih next

/-- Tokens are the postorder of a tree exactly when their kinds balance. -/
theorem exists_postorder_iff {ts : List Token} :
    (∃ e : Expression, e.postorder = Token.active ts) ↔
      StackMachine.height 0 (Token.active ts) = some 1 := by
  have hheight := length_growAll [] (Token.active ts)
  rw [List.length_nil] at hheight
  constructor
  · rintro ⟨e, he⟩
    rw [← hheight, ← he, growAll_postorder]
    rfl
  · intro h
    rw [h] at hheight
    obtain ⟨out, hgrow, hlength⟩ := Option.map_eq_some_iff.mp hheight
    obtain ⟨e, rfl⟩ := List.length_eq_one_iff.mp hlength
    refine ⟨e, ?_⟩
    have hspell := flatMap_postorder_of_growAll hgrow
    simpa [Token.active] using hspell

end Expression

/-! ## The value of the tree -/

namespace StackMachine

variable [Elementary]

/-- Inert tokens can stand anywhere. -/
theorem run_active (stack : List Float) (ts : List Token) :
    run stack (Token.active ts) = run stack ts := by
  induction ts generalizing stack with
  | nil => rfl
  | cons t ts ih =>
    cases t with
    | leftParen | rightParen | endMark | invalid c => exact ih stack
    | number value | operator op | function name =>
      simp only [Token.active, Token.isInert, Bool.not_false, List.filter_cons_of_pos, run]
      exact congrArg _ (funext ih)

theorem evaluate_active (ts : List Token) : evaluate (Token.active ts) = evaluate ts := by
  rw [evaluate, run_active, evaluate]

/-- A list has the value of the tree whose postorder its active tokens are. -/
theorem evaluate_of_postorder {ts : List Token} {e : Expression}
    (h : e.postorder = Token.active ts) : evaluate ts = e.evaluate := by
  rw [← evaluate_active, ← h, Grammar.evaluate_postorder]

/-- Only lists whose active tokens are the postorder of a tree have a value. -/
theorem evaluate_eq_ok_iff {ts : List Token} {v : Float} : evaluate ts = .ok v ↔
    ∃ e : Expression, e.postorder = Token.active ts ∧ e.evaluate = .ok v := by
  constructor
  · intro h
    have hactive := h
    rw [← evaluate_active] at hactive
    obtain ⟨e, he⟩ := Expression.exists_postorder_iff.mpr (height_of_evaluate hactive)
    exact ⟨e, he, (evaluate_of_postorder he).symm.trans h⟩
  · rintro ⟨e, he, hv⟩
    exact (evaluate_of_postorder he).trans hv

/-- **The stack machine evaluates a tree.** The active tokens of a list are the postorder of at most
one tree, and of one exactly when their kinds balance. The list then has the value of the tree, or
the error of its first node that fails, and no other list has a value. -/
theorem evaluate_eq_tree (ts : List Token) :
    (∀ e f : Expression,
      e.postorder = Token.active ts → f.postorder = Token.active ts → e = f) ∧
    ((∃! e : Expression, e.postorder = Token.active ts) ↔
      height 0 (Token.active ts) = some 1) ∧
    (∀ e : Expression, e.postorder = Token.active ts → evaluate ts = e.evaluate ∧
      ∀ err, evaluate ts = .error err → err.category = .domain ∨ err.category = .unknownName) ∧
    ((¬ ∃ e : Expression, e.postorder = Token.active ts) → ∃ err, evaluate ts = .error err) := by
  have hunique : ∀ e f : Expression,
      e.postorder = Token.active ts → f.postorder = Token.active ts → e = f :=
    fun e f he hf => Expression.postorder_injective (he.trans hf.symm)
  refine ⟨hunique, ?_, ?_, ?_⟩
  · rw [← Expression.exists_postorder_iff]
    exact ⟨ExistsUnique.exists, fun ⟨e, he⟩ => ⟨e, he, fun f hf => hunique f e hf he⟩⟩
  · intro e he
    have hvalue := evaluate_of_postorder he
    exact ⟨hvalue, fun err herr => Grammar.category_of_evaluate e (hvalue ▸ herr)⟩
  · intro hnone
    cases hvalue : evaluate ts with
    | error err => exact ⟨err, rfl⟩
    | ok v =>
      obtain ⟨e, he, -⟩ := evaluate_eq_ok_iff.mp hvalue
      exact absurd ⟨e, he⟩ hnone

/-- Inert tokens between those of a difference, an error in each operand, and two numbers without an
operator. -/
theorem evaluate_eq_tree_samples :
    evaluate [.leftParen, .number 2, .number 9, .invalid '#', .function "sqrt", .rightParen,
      .operator .sub, .endMark] = .ok (-1) ∧
    evaluate [.number 1, .number 0, .operator .div, .number 2, .function "root",
      .operator .add] = .error .divisionByZero ∧
    ∃ err, evaluate [.number 1, .rightParen, .number 2] = .error err := by
  obtain ⟨-, -, hdifference, -⟩ := evaluate_eq_tree [.leftParen, .number 2, .number 9, .invalid '#',
    .function "sqrt", .rightParen, .operator .sub, .endMark]
  obtain ⟨-, -, hsum, -⟩ := evaluate_eq_tree [.number 1, .number 0, .operator .div, .number 2,
    .function "root", .operator .add]
  obtain ⟨-, hunbalanced, -, hnone⟩ := evaluate_eq_tree [.number 1, .rightParen, .number 2]
  refine ⟨?_, ?_, hnone ?_⟩
  · rw [(hdifference (.binary .sub (.number 2) (.call "sqrt" (.number 9))) rfl).1]
    with_unfolding_all rfl
  · rw [(hsum (.binary .add (.binary .div (.number 1) (.number 0)) (.call "root" (.number 2)))
      rfl).1]
    with_unfolding_all rfl
  · rintro ⟨e, he⟩
    have hheight := hunbalanced.mp ⟨e, he, fun f hf =>
      Expression.postorder_injective (hf.trans he.symm)⟩
    cases hheight

end StackMachine

end PocketCalc
