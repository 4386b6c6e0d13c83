import Mathlib.Data.List.Chain
import PocketCalc.Proofs.Postfix.Conservation
import PocketCalc.Proofs.StackMachine.Trees

/-!
# Which accepted texts are expressions

The converter does not look for operands: it orders the tokens, and a text has a value as soon as
the numbers and operators of its postfix order balance. So `2 3+` has the value `5`, though no
derivation has its tokens. What such a text has and an expression has not is an operand directly
behind another. Of the texts with a value, exactly those without such a pair are derivable. The
others too have as many numbers as a tree needs, and their postfix order is that of a tree
(`accepted_iff_tree_and_derivable_iff`): `2 3` has no value.

Without such a pair, an operator stands between any two numbers, so the operators can balance the
numbers only if none of them lacks an operand (`surplus_le`). Then the text alternates as the
grammar asks, and its derivation is built from the right, one token after the other
(`splits_of_convert`).
-/

namespace PocketCalc.Grammar

open Postfix
open scoped List

/-! ## Operands side by side -/

/-- A token with which an operand begins. A minus sign is none of them. -/
def opensOperand : Token → Bool
  | .number _ | .leftParen | .function _ => true
  | _ => false

/-- A token with which an operand ends. -/
def closesOperand : Token → Bool
  | .number _ | .rightParen => true
  | _ => false

/-- No operand begins directly behind the end of another. -/
def Unjuxtaposed (ts : List Token) : Prop :=
  ts.IsChain fun t u => (closesOperand t && opensOperand u) = false

/-- Behind a token that ends an operand no operand begins. -/
theorem Unjuxtaposed.head {t : Token} {ts : List Token} (h : Unjuxtaposed (t :: ts))
    (ht : closesOperand t = true) : ∀ u ∈ ts.head?, opensOperand u = false := by
  intro u hu
  simpa [ht] using (List.isChain_cons.mp h).1 u hu

theorem Unjuxtaposed.tail {t : Token} {ts : List Token} (h : Unjuxtaposed (t :: ts)) :
    Unjuxtaposed ts :=
  (List.isChain_cons.mp h).2

/-- An operator between two lists separates the operands on its sides. -/
theorem Unjuxtaposed.operator {ts us : List Token} (hts : Unjuxtaposed ts)
    (hus : Unjuxtaposed us) (op : Operator) : Unjuxtaposed (ts ++ .operator op :: us) := by
  refine hts.append (hus.cons ?_) ?_
  · intro u _
    rfl
  · intro t _ u hu
    cases hu
    simp [opensOperand]

/-- In an expression operands do not stand side by side. -/
theorem unjuxtaposed_of_derives {level : Level} {ts : List Token} {e : Expression}
    (h : Derives level ts e) : Unjuxtaposed ts := by
  induction h with
  | sumOfProduct _ ih | productOfSigned _ ih | signedOfPower _ ih | powerOfBase _ ih => exact ih
  | add _ _ ihl ihr | sub _ _ ihl ihr | mul _ _ ihl ihr | div _ _ ihl ihr | pow _ _ ihl ihr =>
    exact ihl.operator ihr _
  | negate names _ ih =>
    refine Unjuxtaposed.operator ?_ ih .sub
    induction names with
    | nil => exact .nil
    | cons name names ihn => exact ihn.cons fun _ _ => rfl
  | number value => exact .singleton _
  | group _ ih =>
    refine List.IsChain.cons ?_ fun _ _ => rfl
    refine ih.append (.singleton _) ?_
    intro t _ u hu
    cases hu
    simp [opensOperand]
  | call name _ ih => exact ih.cons fun _ _ => rfl

/-! ## Counting numbers and operators -/

/-- How much a token adds to the height of the stack. -/
def weight : Token → Int
  | .number _ => 1
  | .operator _ => -1
  | _ => 0

/-- How much tokens in postfix order add to the height of the stack. -/
def netWeight : List Token → Int
  | [] => 0
  | t :: ts => weight t + netWeight ts

theorem netWeight_append (ts us : List Token) :
    netWeight (ts ++ us) = netWeight ts + netWeight us := by
  induction ts with
  | nil => simp [netWeight]
  | cons t ts ih => simp only [List.cons_append, netWeight, ih, Int.add_assoc]

/-- The height that is known in advance grows by the weights. -/
theorem netWeight_of_height {n m : Nat} {ts : List Token}
    (h : StackMachine.height n ts = some m) : (m : Int) = n + netWeight ts := by
  induction ts generalizing n with
  | nil =>
    simp only [StackMachine.height, Option.some.injEq] at h
    simp [netWeight, h]
  | cons t ts ih =>
    simp only [StackMachine.height, Option.bind_eq_some_iff] at h
    obtain ⟨k, hk, hm⟩ := h
    have hstep : (k : Int) = n + weight t := by
      cases t <;> simp only [StackMachine.heightAfter, Option.ite_none_right_eq_some,
        Option.some.injEq] at hk <;> simp only [weight] <;> omega
    rw [ih hm, hstep, netWeight, Int.add_assoc]

/-- The numbers of an infix text less its binary operators, a minus sign where an operand is
expected being none. -/
def surplus (operand : Bool) : List Token → Int
  | [] => 0
  | .number _ :: ts => 1 + surplus false ts
  | .operator op :: ts =>
    if operand && op == .sub then surplus true ts else -1 + surplus true ts
  | .function _ :: ts | .leftParen :: ts => surplus true ts
  | .rightParen :: ts => surplus false ts
  | .endMark :: _ | .invalid _ :: _ => 0

theorem netWeight_of_perm {ts us : List Token} (h : ts ~ us) : netWeight ts = netWeight us := by
  induction h with
  | nil => rfl
  | cons t _ ih => rw [netWeight, netWeight, ih]
  | swap t u ts =>
    simp only [netWeight]
    omega
  | trans _ _ ih ih' => exact ih.trans ih'

/-- What the tokens of an infix text stand for in the output weighs as much as their surplus. -/
theorem netWeight_images {ts : List Token} (hmark : .endMark ∉ ts)
    (hinvalid : ∀ c, .invalid c ∉ ts) (previous : Option Token) :
    netWeight (images previous ts) = surplus (expectsOperand previous) ts := by
  induction ts generalizing previous with
  | nil => rfl
  | cons t ts ih =>
    simp only [List.mem_cons, not_or] at hmark hinvalid
    rw [images_cons, netWeight_append, ih hmark.2 fun c => (hinvalid c).2]
    cases t with
    | endMark => exact absurd rfl hmark.1
    | invalid c => exact absurd rfl (hinvalid c).1
    | number v | function name | leftParen | rightParen =>
      simp [image, isPrefixMinus, Token.isParen, netWeight, weight, surplus, expectsOperand]
    | operator op =>
      -- the zero in front of a prefix minus makes up for it
      rw [image_operator, surplus]
      split <;> simp [netWeight, weight, expectsOperand]

/-- The postfix order of a text weighs as much as the surplus of the text. -/
theorem netWeight_of_ofTokens {ts r : List Token} (hmark : .endMark ∉ ts)
    (h : ofTokens ts = .ok r) : netWeight r = surplus true ts := by
  rw [netWeight_of_perm (perm_of_ofTokens hmark h)]
  exact netWeight_images hmark (invalid_notMem_of_ofTokens hmark h) none

/-- The surplus is the difference of two counts. -/
theorem surplus_add_countP {ts : List Token} (hmark : .endMark ∉ ts)
    (hinvalid : ∀ c, .invalid c ∉ ts) (previous : Option Token) :
    surplus (expectsOperand previous) ts + ts.countP Token.isOperator =
      ts.countP Token.isNumber + prefixMinuses previous ts := by
  induction ts generalizing previous with
  | nil => rfl
  | cons t ts ih =>
    simp only [List.mem_cons, not_or] at hmark hinvalid
    have hrest := ih hmark.2 (fun c => (hinvalid c).2) (some t)
    rw [List.countP_cons, List.countP_cons, prefixMinuses_cons]
    cases t with
    | endMark => exact absurd rfl hmark.1
    | invalid c => exact absurd rfl (hinvalid c).1
    | number v | function name | leftParen | rightParen =>
      simp [surplus, isPrefixMinus, Token.isNumber, Token.isOperator, expectsOperand] at hrest ⊢
      omega
    | operator op =>
      -- a prefix minus is an operator, but takes nothing from the surplus
      rw [surplus, isPrefixMinus_operator]
      split <;> simp [Token.isNumber, Token.isOperator, expectsOperand] at hrest ⊢ <;> omega

/-- Without operands side by side, a text has at most one number more than binary operators, and
none more behind an operand. -/
theorem surplus_le {ts : List Token} (operand : Bool) (h : Unjuxtaposed ts)
    (hhead : operand = false → ∀ t ∈ ts.head?, opensOperand t = false) :
    surplus operand ts ≤ operand.toInt := by
  induction ts generalizing operand with
  | nil => cases operand <;> simp [surplus]
  | cons t ts ih =>
    have hopen : operand = false → opensOperand t = false := fun ho => hhead ho t rfl
    have hafter : surplus true ts ≤ 1 := ih true h.tail nofun
    cases t with
    | number v =>
      -- behind the number no operand begins, so at most its own one is left over
      have hbehind : surplus false ts ≤ 0 := ih false h.tail (fun _ => h.head rfl)
      cases operand with
      | false => cases hopen rfl
      | true =>
        rw [surplus, Bool.toInt_true]
        omega
    | rightParen =>
      have hbehind : surplus false ts ≤ 0 := ih false h.tail (fun _ => h.head rfl)
      rw [surplus]
      cases operand <;> simp <;> omega
    | function name | leftParen =>
      cases operand with
      | false => cases hopen rfl
      | true => exact hafter
    | operator op =>
      rw [surplus]
      cases operand with
      | false => simp; omega
      | true =>
        rw [Bool.toInt_true]
        split <;> omega
    | endMark | invalid c => cases operand <;> simp [surplus]

/-! ## Derivations from the right -/

/-- The tokens are an expression of a level. -/
def Derivable (level : Level) (ts : List Token) : Prop := ∃ e, Derives level ts e

/-- What changes the first signed term of a product changes the product. -/
theorem derivable_product (pre : List Token)
    (h : ∀ {ts e}, Derives .signed ts e → Derivable .product (pre ++ ts)) {ts : List Token}
    {e : Expression} : Derives .product ts e → Derivable .product (pre ++ ts)
  | .productOfSigned hs => h hs
  | .mul hl hr => by
    obtain ⟨e, he⟩ := derivable_product pre h hl
    exact ⟨_, by simpa using Derives.mul he hr⟩
  | .div hl hr => by
    obtain ⟨e, he⟩ := derivable_product pre h hl
    exact ⟨_, by simpa using Derives.div he hr⟩

/-- What changes the first product of a sum changes the sum. -/
theorem derivable_sum (pre : List Token)
    (h : ∀ {ts e}, Derives .product ts e → Derivable .sum (pre ++ ts)) {ts : List Token}
    {e : Expression} : Derives .sum ts e → Derivable .sum (pre ++ ts)
  | .sumOfProduct hp => h hp
  | .add hl hr => by
    obtain ⟨e, he⟩ := derivable_sum pre h hl
    exact ⟨_, by simpa using Derives.add he hr⟩
  | .sub hl hr => by
    obtain ⟨e, he⟩ := derivable_sum pre h hl
    exact ⟨_, by simpa using Derives.sub he hr⟩

/-- What changes the first signed term of an expression changes the expression. -/
theorem derivable_of_signed (pre : List Token)
    (h : ∀ {ts e}, Derives .signed ts e → Derivable .product (pre ++ ts)) {ts : List Token}
    {e : Expression} (hts : Derives .sum ts e) : Derivable .sum (pre ++ ts) :=
  derivable_sum pre (fun hp => (derivable_product pre h hp).imp fun _ => .sumOfProduct) hts

/-- A minus sign can stand in front of an expression. -/
theorem derivable_sub_cons {ts : List Token} (h : Derivable .sum ts) :
    Derivable .sum (.operator .sub :: ts) := by
  obtain ⟨e, he⟩ := h
  exact derivable_of_signed [.operator .sub]
    (fun hs => ⟨_, .productOfSigned (.negate [] hs)⟩) he

/-- A function can stand in front of an expression. In front of a negation it applies to all of
it, otherwise only to the base with which the expression begins. -/
theorem derivable_function_cons {name : String} {ts : List Token} (h : Derivable .sum ts) :
    Derivable .sum (.function name :: ts) := by
  obtain ⟨e, he⟩ := h
  refine derivable_of_signed [.function name] ?_ he
  intro us e' hs
  cases hs with
  | negate names hs => exact ⟨_, .productOfSigned (.negate (name :: names) hs)⟩
  | signedOfPower hp =>
    cases hp with
    | powerOfBase hb => exact ⟨_, .productOfSigned (.signedOfPower (.powerOfBase (.call name hb)))⟩
    | pow hb hr => exact ⟨_, .productOfSigned (.signedOfPower (.pow (.call name hb) hr))⟩

/-- An operand and an operator can stand in front of an expression. -/
theorem derivable_operand_cons {ws ts : List Token} {w : Expression} (hw : Derives .base ws w)
    (op : Operator) (h : Derivable .sum ts) : Derivable .sum (ws ++ .operator op :: ts) := by
  have hsigned : Derives .signed ws w := .signedOfPower (.powerOfBase hw)
  have hproduct : Derives .product ws w := .productOfSigned hsigned
  have hassoc : ws ++ .operator op :: ts = (ws ++ [.operator op]) ++ ts := by simp
  obtain ⟨e, he⟩ := h
  rw [hassoc]
  cases op with
  | add => exact derivable_sum _ (fun hp => ⟨_, by simpa using .add (.sumOfProduct hproduct) hp⟩) he
  | sub => exact derivable_sum _ (fun hp => ⟨_, by simpa using .sub (.sumOfProduct hproduct) hp⟩) he
  | mul => exact derivable_of_signed _ (fun hs => ⟨_, by simpa using .mul hproduct hs⟩) he
  | div => exact derivable_of_signed _ (fun hs => ⟨_, by simpa using .div hproduct hs⟩) he
  | pow =>
    exact derivable_of_signed _
      (fun hs => ⟨_, by simpa using .productOfSigned (.signedOfPower (.pow hw hs))⟩) he

/-- What may stand behind an operand in a group: nothing, or an operator and an expression. -/
def Continuation (ts : List Token) : Prop :=
  ts = [] ∨ ∃ op us, ts = .operator op :: us ∧ Derivable .sum us

theorem derivable_append {ws us : List Token} {w : Expression} (hw : Derives .base ws w)
    (h : Continuation us) : Derivable .sum (ws ++ us) := by
  rcases h with rfl | ⟨op, vs, rfl, hvs⟩
  · rw [List.append_nil]
    exact ⟨w, .sumOfProduct (.productOfSigned (.signedOfPower (.powerOfBase hw)))⟩
  · exact derivable_operand_cons hw op hvs

/-- The rest of a text inside `depth` open groups: a part with the property `P` to the end of the
innermost group, and behind each closing parenthesis a continuation. -/
def Splits (P : List Token → Prop) : Nat → List Token → Prop
  | 0, ts => P ts
  | depth + 1, ts =>
    ∃ us rest, ts = us ++ .rightParen :: rest ∧ P us ∧ Splits Continuation depth rest

/-- What stands in front of the rest belongs to its first part. -/
theorem Splits.append {P Q : List Token → Prop} (pre : List Token)
    (h : ∀ us, P us → Q (pre ++ us)) {depth : Nat} {ts : List Token} (hs : Splits P depth ts) :
    Splits Q depth (pre ++ ts) := by
  cases depth with
  | zero => exact h ts hs
  | succ depth =>
    obtain ⟨us, rest, rfl, hus, hrest⟩ := hs
    exact ⟨pre ++ us, rest, by simp, h us hus, hrest⟩

/-- A text that is converted, has no operands side by side and as many numbers as it can have is
an expression, or behind an operand a continuation, inside each of its open groups. -/
theorem splits_of_convert {operand : Bool} {inner : List Waiting} {outer : List (List Waiting)}
    {ts r : List Token} (h : convert operand inner outer ts = .ok r) (hmark : .endMark ∉ ts)
    (hts : Unjuxtaposed ts) (hhead : operand = false → ∀ t ∈ ts.head?, opensOperand t = false)
    (hmax : surplus operand ts = operand.toInt) :
    Splits (if operand then Derivable .sum else Continuation) outer.length ts := by
  induction ts generalizing operand inner outer r with
  | nil =>
    cases operand with
    | true => cases hmax
    | false =>
      cases outer with
      | nil => exact .inl rfl
      | cons group outer => cases h
  | cons t ts ih =>
    have hmark' : .endMark ∉ ts := fun hmem => hmark (List.mem_cons_of_mem _ hmem)
    have hopen : operand = false → opensOperand t = false := fun ho => hhead ho t rfl
    have htrue : true = false → ∀ u ∈ ts.head?, opensOperand u = false := nofun
    cases t with
    | endMark => simp at hmark
    | invalid c => cases h
    | number v =>
      cases operand with
      | false => cases hopen rfl
      | true =>
        obtain ⟨us, hus, rfl⟩ := emit_eq_ok_iff.mp h
        rw [surplus, Bool.toInt_true] at hmax
        have hzero : surplus false ts = false.toInt := by
          rw [Bool.toInt_false]
          omega
        have hsplit := ih hus hmark' hts.tail (fun _ => hts.head rfl) hzero
        exact hsplit.append [.number v] fun vs hvs => derivable_append (.number v) hvs
    | function name =>
      cases operand with
      | false => cases hopen rfl
      | true =>
        have hrest : convert true (.function name :: inner) outer ts = .ok r := h
        exact (ih hrest hmark' hts.tail htrue hmax).append [.function name]
          fun vs hvs => derivable_function_cons hvs
    | leftParen =>
      cases operand with
      | false => cases hopen rfl
      | true =>
        -- the group that the parenthesis opens ends with the first part of the rest
        have hgroup : convert true [] (inner :: outer) ts = .ok r := h
        obtain ⟨us, rest, rfl, ⟨e, he⟩, hrest⟩ := ih hgroup hmark' hts.tail htrue hmax
        have happ := hrest.append (.leftParen :: us ++ [.rightParen])
          fun vs hvs => derivable_append (.group he) hvs
        simpa using happ
    | rightParen =>
      cases outer with
      | nil => cases h
      | cons group outer =>
        obtain ⟨us, hus, rfl⟩ := emit_eq_ok_iff.mp h
        rw [surplus] at hmax
        have hbehind := surplus_le false hts.tail (fun _ => hts.head rfl)
        cases operand with
        | true =>
          rw [hmax, Bool.toInt_true, Bool.toInt_false] at hbehind
          omega
        | false =>
          have hrest := ih hus hmark' hts.tail (fun _ => hts.head rfl) hmax
          exact ⟨[], ts, rfl, .inl rfl, hrest⟩
    | operator op =>
      have hafter := surplus_le true hts.tail htrue
      by_cases hneg : (operand && op == .sub) = true
      · rw [convert, if_pos hneg] at h
        rw [surplus, if_pos hneg] at hmax
        obtain ⟨us, hus, rfl⟩ := emit_eq_ok_iff.mp h
        simp only [Bool.and_eq_true, beq_iff_eq] at hneg
        obtain ⟨rfl, rfl⟩ := hneg
        exact (ih hus hmark' hts.tail htrue hmax).append [.operator .sub]
          fun vs hvs => derivable_sub_cons hvs
      · rw [convert, if_neg hneg] at h
        rw [surplus, if_neg hneg] at hmax
        obtain ⟨us, hus, rfl⟩ := emit_eq_ok_iff.mp h
        cases operand with
        | true =>
          -- an operator without a left operand would make the surplus too small
          simp only [Bool.toInt_true] at hmax hafter
          omega
        | false =>
          simp only [Bool.toInt_false] at hmax
          exact (ih hus hmark' hts.tail htrue (by rw [Bool.toInt_true]; omega)).append
            [.operator op] fun vs hvs => .inr ⟨op, vs, rfl, hvs⟩

/-! ## Accepted texts -/

/-- No token of the postfix order does nothing on the stack. -/
theorem active_of_ofTokens {ts r : List Token} (hmark : .endMark ∉ ts) (h : ofTokens ts = .ok r) :
    Token.active r = r := by
  refine List.filter_eq_self.mpr fun u hu => ?_
  rcases mem_of_mem_images ((perm_of_ofTokens hmark h).mem_iff.mp hu) with rfl | ⟨hmem, hparen⟩
  · rfl
  · cases u with
    | endMark => exact absurd hmem hmark
    | invalid c => exact absurd hmem (invalid_notMem_of_ofTokens hmark h c)
    | leftParen | rightParen => cases hparen
    | number v | operator op | function name => rfl

section

variable [Elementary]

/-- The postfix order of a text with a value balances: it has one number more than operators. -/
theorem netWeight_of_evaluate {ts : List Token} {v : Float}
    (h : StackMachine.evaluate ts = .ok v) : netWeight ts = 1 := by
  have hheight := netWeight_of_height (StackMachine.height_of_evaluate h)
  omega

/-- The postfix order of a text with a value is that of a tree with this value. -/
theorem evaluate_eq_ok_iff_postorder {text : String} {v : Float} : evaluate text = .ok v ↔
    ∃ e : Expression, ofText text = .ok e.postorder ∧ e.evaluate = .ok v := by
  constructor
  · intro h
    obtain ⟨r, hr, hv⟩ := exists_ofText_of_evaluate h
    obtain ⟨e, he, hvalue⟩ := StackMachine.evaluate_eq_ok_iff.mp hv
    rw [active_of_ofTokens (Token.endMark_notMem_tokens _) hr] at he
    exact ⟨e, he ▸ hr, hvalue⟩
  · rintro ⟨e, he, hvalue⟩
    rw [evaluate_of_ofText he, evaluate_postorder, hvalue]

/-- A text with a value has one number more than binary operators. -/
theorem surplus_of_evaluate {text : String} {v : Float} (h : evaluate text = .ok v) :
    surplus true (Token.tokens text.toList) = 1 := by
  obtain ⟨r, hr, hv⟩ := exists_ofText_of_evaluate h
  rw [← netWeight_of_ofTokens (Token.endMark_notMem_tokens _) hr, netWeight_of_evaluate hv]

/-- A text with a value has as many numbers and prefix minus signs as operators, and one more. -/
theorem countP_of_evaluate {text : String} {v : Float} (h : evaluate text = .ok v) :
    (Token.tokens text.toList).countP Token.isNumber + prefixMinuses none (Token.tokens text.toList) =
      (Token.tokens text.toList).countP Token.isOperator + 1 := by
  obtain ⟨r, hr, -⟩ := exists_ofText_of_evaluate h
  have hmark := Token.endMark_notMem_tokens text.toList
  have hcount := surplus_add_countP hmark (invalid_notMem_of_ofTokens hmark hr) none
  have hsurplus : surplus (expectsOperand none) (Token.tokens text.toList) = 1 :=
    surplus_of_evaluate h
  omega

/-- A text with a value and without operands side by side is an expression. -/
theorem derivable_of_evaluate {text : String} {v : Float} (h : evaluate text = .ok v)
    (hts : Unjuxtaposed (Token.tokens text.toList)) :
    Derivable .sum (Token.tokens text.toList) := by
  obtain ⟨r, hr, -⟩ := exists_ofText_of_evaluate h
  exact splits_of_convert hr (Token.endMark_notMem_tokens _) hts nofun (surplus_of_evaluate h)

/-- **Accepted texts.** A text has the value `v` exactly if its postfix order is that of a tree with
this value. Its numbers then exceed its binary operators by one, a prefix minus being none of them.
It is an infix expression whose tree has the value `v` exactly if it has this value and no operand
in it begins directly behind another. -/
theorem accepted_iff_tree_and_derivable_iff (text : String) (v : Float) :
    (evaluate text = .ok v ↔
      ∃ e : Expression, ofText text = .ok e.postorder ∧ e.evaluate = .ok v) ∧
    (evaluate text = .ok v →
      (Token.tokens text.toList).countP Token.isNumber +
          prefixMinuses none (Token.tokens text.toList) =
        (Token.tokens text.toList).countP Token.isOperator + 1) ∧
    ((∃ e, Derives .sum (Token.tokens text.toList) e ∧ e.evaluate = .ok v) ↔
      evaluate text = .ok v ∧ Unjuxtaposed (Token.tokens text.toList)) := by
  refine ⟨evaluate_eq_ok_iff_postorder, countP_of_evaluate, ?_⟩
  constructor
  · rintro ⟨e, he, hvalue⟩
    refine ⟨?_, unjuxtaposed_of_derives he⟩
    exact evaluate_eq_ok_iff_postorder.mpr ⟨e, ofTokens_of_derives he, hvalue⟩
  · rintro ⟨h, hts⟩
    obtain ⟨e, he⟩ := derivable_of_evaluate h hts
    refine ⟨e, he, ?_⟩
    rw [← evaluate_postorder, ← h, evaluate_of_ofText (ofTokens_of_derives he)]

end

/-- A negated group is accepted as an expression. Numbers without an operator, an operator without a
right operand and a function without an argument are not accepted. -/
theorem accepted_iff_samples :
    evaluate "-(9-4)+2" = .ok (-3) ∧ Unjuxtaposed (Token.tokens "-(9-4)+2".toList) ∧
      (∃ e, Derives .sum (Token.tokens "-(9-4)+2".toList) e ∧ e.evaluate = .ok (-3)) ∧
      (∃ e : Expression, ofText "-(9-4)+2" = .ok e.postorder ∧ e.evaluate = .ok (-3)) ∧
      (Token.tokens "-(9-4)+2".toList).countP Token.isNumber +
          prefixMinuses none (Token.tokens "-(9-4)+2".toList) =
        (Token.tokens "-(9-4)+2".toList).countP Token.isOperator + 1 ∧
      ∀ v, evaluate "2 3" ≠ .ok v ∧ evaluate "1+" ≠ .ok v ∧ evaluate "sqrt()" ≠ .ok v := by
  have hval : evaluate "-(9-4)+2" = .ok (-3) := by with_unfolding_all rfl
  have hts : Unjuxtaposed (Token.tokens "-(9-4)+2".toList) := by
    have htokens : Token.tokens "-(9-4)+2".toList =
        [.operator .sub, .leftParen, .number 9, .operator .sub, .number 4, .rightParen,
          .operator .add, .number 2] := by
      decide +kernel
    rw [htokens]
    simp [Unjuxtaposed, opensOperand, closesOperand]
  obtain ⟨htree, hcount, hderivable⟩ := accepted_iff_tree_and_derivable_iff "-(9-4)+2" (-3)
  refine ⟨hval, hts, hderivable.mpr ⟨hval, hts⟩, htree.mp hval, hcount hval, ?_⟩
  intro v
  refine ⟨fun h => ?_, fun h => ?_, fun h => ?_⟩
  · exact absurd ((accepted_iff_tree_and_derivable_iff _ v).2.1 h) (by decide +kernel)
  · exact absurd ((accepted_iff_tree_and_derivable_iff _ v).2.1 h) (by decide +kernel)
  · exact absurd ((accepted_iff_tree_and_derivable_iff _ v).2.1 h) (by decide +kernel)

/-- Two numbers with their operator behind them are accepted, but no expression has their tokens. -/
theorem evaluate_operator_behind_operands :
    evaluate "2 3+" = .ok 5 ∧ ¬ ∃ e, Derives .sum (Token.tokens "2 3+".toList) e := by
  refine ⟨by with_unfolding_all rfl, ?_⟩
  rintro ⟨e, he⟩
  have htokens : Token.tokens "2 3+".toList = [.number 2, .number 3, .operator .add] := by
    decide +kernel
  have hpair := unjuxtaposed_of_derives he
  rw [htokens] at hpair
  simp [Unjuxtaposed, opensOperand, closesOperand] at hpair

end PocketCalc.Grammar
