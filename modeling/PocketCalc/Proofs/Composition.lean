import PocketCalc.Evaluation
import PocketCalc.Proofs.Postfix.Frame
import PocketCalc.Proofs.Token.Concatenation

/-!
# Texts composed of texts

Any text that is accepted, well formed or not, can be put in parentheses and used as an operand or
as an argument: conversion and evaluation of the composed text are composed of those of the parts
(`ofText_and_evaluate_composed`). Three frames carry this. A token does not go on over a
parenthesis, the converter does not look outside an open group, and the stack machine does not look
below the numbers that a calculation has pushed.
-/

namespace PocketCalc

open Postfix

/-! ## Tokens of a composed text -/

namespace Token

theorem tokens_leftParen (s : List Char) : tokens ('(' :: s) = .leftParen :: tokens s :=
  tokens_cons_of_symbol rfl s

/-- A parenthesis ends every token before it. -/
theorem separate_paren {c : Char} (h : c = '(' ∨ c = ')') (s t : List Char) :
    Separate s (c :: t) := by
  refine separate_of_symbol ?_ s t
  rcases h with rfl | rfl <;> decide

theorem tokens_group (s t : List Char) :
    tokens ('(' :: s ++ ')' :: t) = .leftParen :: tokens s ++ .rightParen :: tokens t := by
  rw [List.cons_append, tokens_leftParen, tokens_append (separate_paren (.inr rfl) s t),
    tokens_cons_of_symbol rfl, List.cons_append]
  rfl

theorem tokens_name_leftParen {name : String} (h : IsName name) (s : List Char) :
    tokens (name.toList ++ '(' :: s) = .function name :: tokens ('(' :: s) := by
  rw [tokens_append (separate_paren (.inl rfl) _ s), tokens_name h]
  rfl

end Token

/-! ## Conversion of a composed text -/

/-- A group on top of anything. Its output is that of its text, followed by a function that waits
directly before it. -/
theorem convert_parenthesized {text : String} {r : List Token} (h : ofText text = .ok r)
    (operand : Bool) (inner : List Waiting) (rest : List Token) :
    convert operand inner [] (.leftParen :: Token.tokens text.toList ++ .rightParen :: rest) =
      emit (r ++ (close [] inner).1) (convert false (close [] inner).2 [] rest) := by
  have hgroup : convert true [] [] (Token.tokens text.toList) = .ok r := h
  exact convert_group (Token.endMark_notMem_tokens _) hgroup inner [] rest

theorem ofText_parenthesized {s : String} {r : List Token} (hs : ofText s = .ok r) :
    ofText ("(" ++ s ++ ")") = .ok r := by
  have htokens : Token.tokens ("(" ++ s ++ ")").toList =
      .leftParen :: Token.tokens s.toList ++ .rightParen :: [] := by
    simpa [String.toList_append] using Token.tokens_group s.toList []
  rw [ofText, ofTokens, htokens, convert_parenthesized hs]
  simp [close, convert, finish, emit_ok]

theorem ofText_negated {s : String} {r : List Token} (hs : ofText s = .ok r) :
    ofText ("-(" ++ s ++ ")") = .ok ([.number 0] ++ r ++ [.operator .sub]) := by
  have htokens : Token.tokens ("-(" ++ s ++ ")").toList =
      .operator .sub :: (.leftParen :: Token.tokens s.toList ++ .rightParen :: []) := by
    have h := Token.tokens_symbol .sub ('(' :: s.toList ++ ')' :: [])
    rw [Token.tokens_group] at h
    simpa [String.toList_append, Operator.symbol] using h
  rw [ofText, ofTokens, htokens, convert, if_pos (by rfl), convert_parenthesized hs]
  simp [close, convert, finish, emit_ok, Waiting.token]

theorem ofText_applied {s name : String} {r : List Token} (hname : Token.IsName name)
    (hs : ofText s = .ok r) : ofText (name ++ "(" ++ s ++ ")") = .ok (r ++ [.function name]) := by
  have htokens : Token.tokens (name ++ "(" ++ s ++ ")").toList =
      .function name :: (.leftParen :: Token.tokens s.toList ++ .rightParen :: []) := by
    have h := Token.tokens_name_leftParen hname (s.toList ++ ')' :: [])
    rw [← List.cons_append, Token.tokens_group] at h
    simpa [String.toList_append] using h
  rw [ofText, ofTokens, htokens, convert, convert_parenthesized hs]
  simp [close, convert, finish, emit_ok]

theorem ofText_combined {s t : String} {r q : List Token} (op : Operator) (hs : ofText s = .ok r)
    (ht : ofText t = .ok q) :
    ofText ("(" ++ s ++ ")" ++ op.symbol.toString ++ "(" ++ t ++ ")") =
      .ok (r ++ q ++ [.operator op]) := by
  have htokens :
      Token.tokens ("(" ++ s ++ ")" ++ op.symbol.toString ++ "(" ++ t ++ ")").toList =
        .leftParen :: Token.tokens s.toList ++ .rightParen ::
          .operator op :: (.leftParen :: Token.tokens t.toList ++ .rightParen :: []) := by
    have h := Token.tokens_group s.toList (op.symbol :: ('(' :: t.toList ++ ')' :: []))
    rw [Token.tokens_symbol, Token.tokens_group t.toList []] at h
    simpa [String.toList_append] using h
  have hop : ∀ rest, convert false (close [] []).2 [] (.operator op :: rest) =
      convert true [.operator op] [] rest := by
    intro rest
    simp [close, convert]
  rw [ofText, ofTokens, htokens, convert_parenthesized hs, hop, convert_parenthesized ht]
  simp [close, convert, finish, emit_ok, Waiting.token]

/-! ## The frame of the stack machine -/

namespace StackMachine

variable [Elementary]

/-- A token that runs on a stack runs on top of any other numbers. -/
theorem step_append {stack out : List Float} {t : Token} (h : step stack t = .ok out)
    (below : List Float) : step (stack ++ below) t = .ok (out ++ below) := by
  cases t with
  | number v =>
    cases h
    rfl
  | operator op =>
    match stack, h with
    | right :: left :: stack, h =>
      -- both operands are above the other numbers
      simp only [step, List.cons_append] at h ⊢
      cases ha : op.apply left right with
      | error e => simp [ha, Except.map] at h
      | ok v =>
        rw [ha] at h
        cases h
        rfl
  | function name =>
    match stack, h with
    | x :: stack, h =>
      simp only [step, List.cons_append] at h ⊢
      cases ha : applyNamed name x with
      | error e => simp [ha, Except.map] at h
      | ok v =>
        rw [ha] at h
        cases h
        rfl
  | leftParen | rightParen | endMark | invalid c =>
    cases h
    rfl

/-- A calculation that runs on a stack runs on top of any other numbers. -/
theorem run_append_stack {stack out : List Float} {ts : List Token} (h : run stack ts = .ok out)
    (below : List Float) : run (stack ++ below) ts = .ok (out ++ below) := by
  induction ts generalizing stack with
  | nil =>
    cases h
    rfl
  | cons t ts ih =>
    cases hs : step stack t with
    | error e => simp [run, hs, Except.bind] at h
    | ok next =>
      simp only [run, hs, Except.bind] at h
      simp only [run, step_append hs below, Except.bind]
      exact ih h

/-- A calculation with a value leaves it on top of whatever was there before. -/
theorem run_of_evaluate {ts : List Token} {v : Float} (h : evaluate ts = .ok v)
    (below : List Float) : run below ts = .ok (v :: below) :=
  run_append_stack (evaluate_eq_ok.mp h) below

/-- An operator behind two calculations takes their values, the left one first. -/
theorem evaluate_operator {ts us : List Token} {a b : Float} (ha : evaluate ts = .ok a)
    (hb : evaluate us = .ok b) (op : Operator) :
    evaluate (ts ++ us ++ [.operator op]) = op.apply a b := by
  rw [evaluate, run_append, run_append, run_of_evaluate ha]
  simp only [Except.bind, run_of_evaluate hb, run, step]
  cases op.apply a b <;> rfl

/-- A function behind a calculation takes its value. -/
theorem evaluate_function {ts : List Token} {a : Float} (ha : evaluate ts = .ok a)
    (name : String) : evaluate (ts ++ [.function name]) = applyNamed name a := by
  rw [evaluate, run_append, run_of_evaluate ha]
  simp only [Except.bind, run, step]
  cases applyNamed name a <;> rfl

end StackMachine

/-! ## Composed texts -/

section

variable [Elementary]

/-- **Composition.** Whatever two texts are converted to, putting them in parentheses, negating,
applying a function or an operator composes their conversions, and the values of the texts, where
they have one, are composed in the same way. -/
theorem ofText_and_evaluate_composed {s t : String} {r q : List Token} (hs : ofText s = .ok r)
    (ht : ofText t = .ok q) (op : Operator) {name : String} (hname : Token.IsName name) :
    ofText ("(" ++ s ++ ")") = .ok r ∧
      ofText ("-(" ++ s ++ ")") = .ok ([.number 0] ++ r ++ [.operator .sub]) ∧
      ofText (name ++ "(" ++ s ++ ")") = .ok (r ++ [.function name]) ∧
      ofText ("(" ++ s ++ ")" ++ op.symbol.toString ++ "(" ++ t ++ ")") =
        .ok (r ++ q ++ [.operator op]) ∧
      ∀ a b, evaluate s = .ok a → evaluate t = .ok b →
        evaluate ("(" ++ s ++ ")") = .ok a ∧
          evaluate ("-(" ++ s ++ ")") = .ok (0 - a) ∧
          evaluate (name ++ "(" ++ s ++ ")") = applyNamed name a ∧
          evaluate ("(" ++ s ++ ")" ++ op.symbol.toString ++ "(" ++ t ++ ")") = op.apply a b := by
  have hgroup := ofText_parenthesized hs
  have hnegation := ofText_negated hs
  have happlication := ofText_applied hname hs
  have hoperation := ofText_combined op hs ht
  refine ⟨hgroup, hnegation, happlication, hoperation, ?_⟩
  intro a b ha hb
  rw [evaluate_of_ofText hs] at ha
  rw [evaluate_of_ofText ht] at hb
  rw [evaluate_of_ofText hgroup, evaluate_of_ofText hnegation, evaluate_of_ofText happlication,
    evaluate_of_ofText hoperation]
  have hzero : StackMachine.evaluate [.number 0] = .ok 0 := rfl
  exact ⟨ha, StackMachine.evaluate_operator hzero ha .sub,
    StackMachine.evaluate_function ha name, StackMachine.evaluate_operator ha hb op⟩

end

/-- A function and an operator behind their operands: no infix expressions, but accepted. -/
theorem evaluate_composed_malformed :
    ofText "9 sqrt" = .ok [.number 9, .function "sqrt"] ∧
      ofText "2 3+" = .ok [.number 2, .number 3, .operator .add] ∧ Token.IsName "sqrt" ∧
      evaluate "9 sqrt" = .ok 3 ∧ evaluate "2 3+" = .ok 5 ∧
      ofText "(9 sqrt)*(2 3+)" = .ok [.number 9, .function "sqrt", .number 2, .number 3,
        .operator .add, .operator .mul] ∧
      evaluate "(9 sqrt)*(2 3+)" = Operator.mul.apply 3 5 ∧
      evaluate "sqrt(9 sqrt)" = applyNamed "sqrt" 3 := by
  have hs : ofText "9 sqrt" = .ok [.number 9, .function "sqrt"] := by with_unfolding_all rfl
  have ht : ofText "2 3+" = .ok [.number 2, .number 3, .operator .add] := by
    with_unfolding_all rfl
  have hname : Token.IsName "sqrt" := ⟨by decide, by decide, List.all_eq_true.mp rfl⟩
  have ha : evaluate "9 sqrt" = .ok 3 := by with_unfolding_all rfl
  have hb : evaluate "2 3+" = .ok 5 := by with_unfolding_all rfl
  obtain ⟨-, -, -, hmul, hval⟩ := ofText_and_evaluate_composed hs ht .mul hname
  obtain ⟨-, -, hcall, hprod⟩ := hval 3 5 ha hb
  exact ⟨hs, ht, hname, ha, hb, hmul, hprod, hcall⟩

end PocketCalc
