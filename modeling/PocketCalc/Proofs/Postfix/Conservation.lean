import Mathlib.Data.List.Perm.Basic
import PocketCalc.Proofs.Postfix.Steps
import PocketCalc.Proofs.Token.Concatenation

/-!
# Conversion loses and duplicates nothing

A token comes out at once, or waits until an operator, a closing parenthesis or the end of the text
releases it. On each of these ways what has come out and what still waits are together, up to their
order, what the tokens so far stand for: themselves without the parentheses, and a zero in front of
each prefix minus (`State.perm_of_run`). Numbers never wait, so they keep their order
(`State.numbers_of_run`). No expression has to be well formed for this.
-/

namespace PocketCalc

/-! ## Kinds of tokens -/

namespace Token

/-- Whether a token is a number. -/
def isNumber : Token → Bool
  | number _ => true
  | operator _ | leftParen | rightParen | function _ | endMark | invalid _ => false

/-- Whether a token is an operator. -/
def isOperator : Token → Bool
  | operator _ => true
  | number _ | leftParen | rightParen | function _ | endMark | invalid _ => false

/-- Whether a token is a function. -/
def isFunction : Token → Bool
  | function _ => true
  | number _ | operator _ | leftParen | rightParen | endMark | invalid _ => false

/-- Whether a token is a parenthesis. -/
def isParen : Token → Bool
  | leftParen | rightParen => true
  | number _ | operator _ | function _ | endMark | invalid _ => false

end Token

namespace Postfix

open Token (tokens)
open scoped List

/-! ## Prefix minus signs -/

/-- Whether an operand is expected behind a token, or at the start of an expression. -/
def expectsOperand : Option Token → Bool
  | none | some (.operator _) | some .leftParen | some (.function _) => true
  | some (.number _) | some .rightParen | some .endMark | some (.invalid _) => false

/-- Whether a token is a minus sign that negates, as the token in front of it tells. -/
def isPrefixMinus (previous : Option Token) (t : Token) : Bool :=
  expectsOperand previous && t == .operator .sub

/-- The tokens, each with the one in front of it. -/
def withPrevious (previous : Option Token) : List Token → List (Option Token × Token)
  | [] => []
  | t :: ts => (previous, t) :: withPrevious (some t) ts

/-- What a token stands for in the output. -/
def image (p : Option Token × Token) : List Token :=
  if isPrefixMinus p.1 p.2 then [.number 0, p.2] else if p.2.isParen then [] else [p.2]

/-- The number that a token stands for in the output, if any. -/
def number? (p : Option Token × Token) : Option Token :=
  if p.2.isNumber then some p.2 else if isPrefixMinus p.1 p.2 then some (.number 0) else none

/-- What the tokens of an expression stand for in the output, in their own order. -/
def images (previous : Option Token) (ts : List Token) : List Token :=
  (withPrevious previous ts).flatMap image

/-- The numbers of an expression, those of its prefix minus signs included. -/
def numbers (previous : Option Token) (ts : List Token) : List Token :=
  (withPrevious previous ts).filterMap number?

/-- How many prefix minus signs an expression has. -/
def prefixMinuses (previous : Option Token) (ts : List Token) : Nat :=
  (withPrevious previous ts).countP fun p => isPrefixMinus p.1 p.2

@[simp] theorem images_cons (previous : Option Token) (t : Token) (ts : List Token) :
    images previous (t :: ts) = image (previous, t) ++ images (some t) ts := rfl

theorem isPrefixMinus_operator (previous : Option Token) (op : Operator) :
    isPrefixMinus previous (.operator op) = (expectsOperand previous && op == .sub) := by
  cases op <;> rfl

theorem image_operator (previous : Option Token) (op : Operator) :
    image (previous, .operator op) =
      if expectsOperand previous && op == .sub then [.number 0, .operator op]
      else [.operator op] := by
  rw [image, isPrefixMinus_operator]
  rfl

theorem prefixMinuses_cons (previous : Option Token) (t : Token) (ts : List Token) :
    prefixMinuses previous (t :: ts) =
      prefixMinuses (some t) ts + if isPrefixMinus previous t then 1 else 0 :=
  List.countP_cons

theorem numbers_cons (previous : Option Token) (t : Token) (ts : List Token) :
    numbers previous (t :: ts) = (number? (previous, t)).toList ++ numbers (some t) ts := by
  cases h : number? (previous, t) <;> simp [numbers, withPrevious, h]

/-! ## One token -/

/-- No number waits. -/
theorem filter_isNumber_waiting (ws : List Waiting) :
    (ws.map Waiting.token).filter Token.isNumber = [] := by
  rw [List.filter_eq_nil_iff]
  intro t ht
  obtain ⟨w, -, rfl⟩ := List.mem_map.mp ht
  cases w <;> simp [Waiting.token, Token.isNumber]

theorem filter_isNumber_image (p : Option Token × Token) :
    (image p).filter Token.isNumber = (number? p).toList := by
  obtain ⟨previous, t⟩ := p
  cases t with
  | operator op =>
    rw [image_operator, number?, isPrefixMinus_operator]
    split <;> rfl
  | number v | leftParen | rightParen | function name | endMark | invalid c =>
    simp [image, number?, isPrefixMinus, Token.isNumber, Token.isParen]

namespace State

/-- A token decides by its kind whether an operand is expected behind it. -/
theorem operand_of_advance {s s' : State} {t : Token} {out : List Token} (ht : t ≠ .endMark)
    (h : s.advance t = .ok (out, s')) : s'.operand = expectsOperand (some t) := by
  cases t with
  | endMark => exact absurd rfl ht
  | invalid c => cases h
  | number v | function name | leftParen =>
    cases h
    rfl
  | rightParen =>
    obtain ⟨operand, inner, outer⟩ := s
    cases outer with
    | nil => cases h
    | cons enclosing outer =>
      cases h
      rfl
  | operator op =>
    simp only [advance] at h
    split at h <;> cases h <;> rfl

/-- What comes out and what waits behind a token are its image and what waited before it. -/
theorem perm_of_advance {s s' : State} {t : Token} {out : List Token} {previous : Option Token}
    (hprevious : s.operand = expectsOperand previous) (ht : t ≠ .endMark)
    (h : s.advance t = .ok (out, s')) :
    out ++ s'.waiting ~ image (previous, t) ++ s.waiting := by
  obtain ⟨operand, inner, outer⟩ := s
  cases t with
  | endMark => exact absurd rfl ht
  | invalid c => cases h
  | number v | function name | leftParen =>
    cases h
    simp [image, isPrefixMinus, Token.isParen, waiting, Waiting.token]
  | rightParen =>
    cases outer with
    | nil => cases h
    | cons enclosing outer =>
      -- closing a group moves what waits in it and around it, and changes nothing
      have hclose : (close inner enclosing).1 ++ (close inner enclosing).2.map Waiting.token =
          (inner ++ enclosing).map Waiting.token := by
        rw [close_fst, close_snd, List.append_assoc, close_complete, List.map_append]
      cases h
      simp only [waiting, List.flatten_cons, List.map_append, ← List.append_assoc, hclose]
      simp [image, isPrefixMinus, Token.isParen]
  | operator op =>
    simp only at hprevious
    subst hprevious
    simp only [advance] at h
    split at h
    · next hminus =>
      cases h
      rw [image_operator, if_pos hminus]
      simp_all [waiting, Waiting.token]
    · next hminus =>
      cases h
      -- the operator stands between what it releases and what goes on waiting
      have hsplit := List.takeWhile_append_dropWhile (p := Waiting.yieldsTo op) (l := inner)
      have hwaiting : waiting ⟨expectsOperand previous, inner, outer⟩ =
          (inner.takeWhile (Waiting.yieldsTo op)).map Waiting.token ++
            (inner.dropWhile (Waiting.yieldsTo op) ++ outer.flatten).map Waiting.token := by
        rw [← List.map_append, ← List.append_assoc, hsplit]
        rfl
      rw [image_operator, if_neg hminus, hwaiting]
      exact List.perm_middle

/-- A token puts out the number that it stands for, and no other. -/
theorem numbers_of_advance {s s' : State} {t : Token} {out : List Token} {previous : Option Token}
    (hprevious : s.operand = expectsOperand previous) (ht : t ≠ .endMark)
    (h : s.advance t = .ok (out, s')) :
    out.filter Token.isNumber = (number? (previous, t)).toList := by
  have hperm := (perm_of_advance hprevious ht h).filter Token.isNumber
  rw [List.filter_append, List.filter_append, waiting, waiting, filter_isNumber_waiting,
    filter_isNumber_waiting, List.append_nil, List.append_nil, filter_isNumber_image] at hperm
  -- of one number at most, the order cannot change
  cases hnumber : number? (previous, t) with
  | none =>
    rw [hnumber] at hperm
    exact hperm.eq_nil
  | some v =>
    rw [hnumber] at hperm
    exact List.perm_singleton.mp hperm

/-! ## All tokens -/

/-- What comes out of tokens and what waits behind them are their images and what waited before. -/
theorem perm_of_run {s s' : State} {ts out : List Token} {previous : Option Token}
    (hprevious : s.operand = expectsOperand previous) (hmark : .endMark ∉ ts)
    (h : s.run ts = .ok (out, s')) :
    out ++ s'.waiting ~ images previous ts ++ s.waiting := by
  induction ts generalizing s out previous with
  | nil =>
    cases h
    exact .refl _
  | cons t ts ih =>
    simp only [List.mem_cons, not_or] at hmark
    obtain ⟨first, next, others, hadvance, hrun, rfl⟩ := run_cons_eq_ok h
    have hstep := perm_of_advance hprevious (Ne.symm hmark.1) hadvance
    have hrest := ih (operand_of_advance (Ne.symm hmark.1) hadvance) hmark.2 hrun
    calc first ++ others ++ s'.waiting
      _ = first ++ (others ++ s'.waiting) := List.append_assoc ..
      _ ~ first ++ (images (some t) ts ++ next.waiting) := hrest.append_left first
      _ ~ images (some t) ts ++ (first ++ next.waiting) := List.perm_append_comm_assoc ..
      _ ~ images (some t) ts ++ (image (previous, t) ++ s.waiting) := hstep.append_left _
      _ ~ image (previous, t) ++ (images (some t) ts ++ s.waiting) := List.perm_append_comm_assoc ..
      _ = images previous (t :: ts) ++ s.waiting := by rw [images_cons, List.append_assoc]

/-- The numbers come out in the order of the tokens that stand for them. -/
theorem numbers_of_run {s s' : State} {ts out : List Token} {previous : Option Token}
    (hprevious : s.operand = expectsOperand previous) (hmark : .endMark ∉ ts)
    (h : s.run ts = .ok (out, s')) : out.filter Token.isNumber = numbers previous ts := by
  induction ts generalizing s out previous with
  | nil =>
    cases h
    rfl
  | cons t ts ih =>
    simp only [List.mem_cons, not_or] at hmark
    obtain ⟨first, next, others, hadvance, hrun, rfl⟩ := run_cons_eq_ok h
    rw [List.filter_append, numbers_of_advance hprevious (Ne.symm hmark.1) hadvance,
      ih (operand_of_advance (Ne.symm hmark.1) hadvance) hmark.2 hrun, numbers_cons]

/-- A refused character lets no run succeed. -/
theorem invalid_notMem_of_run {s s' : State} {ts out : List Token} (h : s.run ts = .ok (out, s'))
    (c : Char) : .invalid c ∉ ts := by
  induction ts generalizing s out with
  | nil => exact List.not_mem_nil
  | cons t ts ih =>
    obtain ⟨first, next, others, hadvance, hrun, -⟩ := run_cons_eq_ok h
    rw [List.mem_cons, not_or]
    refine ⟨?_, ih hrun⟩
    rintro rfl
    cases hadvance

end State

/-! ## The images of the tokens -/

theorem mem_of_mem_withPrevious {previous : Option Token} {ts : List Token}
    {p : Option Token × Token} (h : p ∈ withPrevious previous ts) : p.2 ∈ ts := by
  induction ts generalizing previous with
  | nil => cases h
  | cons t ts ih =>
    rcases List.mem_cons.mp h with rfl | h
    · exact List.mem_cons_self
    · exact List.mem_cons_of_mem _ (ih h)

/-- What the tokens stand for is zeros and the tokens themselves, without the parentheses. -/
theorem mem_of_mem_images {previous : Option Token} {ts : List Token} {u : Token}
    (h : u ∈ images previous ts) : u = .number 0 ∨ u ∈ ts ∧ u.isParen = false := by
  obtain ⟨p, hp, hu⟩ := List.mem_flatMap.mp h
  have hmem := mem_of_mem_withPrevious hp
  unfold image at hu
  split at hu
  · next hminus =>
    have hsub : p.2 = .operator .sub := by simp_all [isPrefixMinus]
    rcases List.mem_cons.mp hu with rfl | hu
    · exact .inl rfl
    · obtain rfl := List.mem_singleton.mp hu
      exact .inr ⟨hmem, by rw [hsub]; rfl⟩
  · split at hu
    · cases hu
    · next hparen =>
      obtain rfl := List.mem_singleton.mp hu
      exact .inr ⟨hmem, by simpa using hparen⟩

/-- A kind of tokens that are neither numbers nor parentheses is kept. -/
theorem filter_images {kind : Token → Bool} (hzero : kind (.number 0) = false)
    (hparen : ∀ t, t.isParen → kind t = false) (previous : Option Token) (ts : List Token) :
    (images previous ts).filter kind = ts.filter kind := by
  induction ts generalizing previous with
  | nil => rfl
  | cons t ts ih =>
    have himage : (image (previous, t)).filter kind = [t].filter kind := by
      unfold image
      split
      · simp [hzero]
      · split
        · next ht => simp [hparen t ht]
        · rfl
    rw [images_cons, List.filter_append, himage, ih, ← List.filter_append, List.singleton_append]

/-- Each token but the parentheses counts once, and each prefix minus once more. -/
theorem length_images (previous : Option Token) (ts : List Token) :
    (images previous ts).length = ts.countP (!·.isParen) + prefixMinuses previous ts := by
  induction ts generalizing previous with
  | nil => rfl
  | cons t ts ih =>
    have hminus : isPrefixMinus previous t → t.isParen = false := by
      intro h
      have hsub : t = .operator .sub := by simp_all [isPrefixMinus]
      rw [hsub]
      rfl
    rw [images_cons, List.length_append, ih, List.countP_cons, prefixMinuses_cons]
    unfold image
    split
    · next h =>
      simp only [List.length_cons, List.length_nil, hminus h, Bool.not_false, if_true]
      omega
    · cases hparen : t.isParen <;> simp
      omega

/-! ## All of an expression -/

/-- The postfix order of tokens is a rearrangement of what they stand for. -/
theorem perm_of_ofTokens {ts r : List Token} (hmark : .endMark ∉ ts) (h : ofTokens ts = .ok r) :
    r ~ images none ts := by
  obtain ⟨out, s, hrun, rfl⟩ := exists_run_of_ofTokens hmark h
  have hperm : out ++ s.waiting ~ images none ts ++ State.start.waiting :=
    State.perm_of_run rfl hmark hrun
  rwa [show State.start.waiting = [] from rfl, List.append_nil] at hperm

/-- The numbers of the postfix order are those of the tokens. -/
theorem numbers_of_ofTokens {ts r : List Token} (hmark : .endMark ∉ ts) (h : ofTokens ts = .ok r) :
    r.filter Token.isNumber = numbers none ts := by
  obtain ⟨out, s, hrun, rfl⟩ := exists_run_of_ofTokens hmark h
  rw [List.filter_append, State.waiting, filter_isNumber_waiting, List.append_nil]
  exact State.numbers_of_run rfl hmark hrun

/-- Tokens that are converted hold no refused character. -/
theorem invalid_notMem_of_ofTokens {ts r : List Token} (hmark : .endMark ∉ ts)
    (h : ofTokens ts = .ok r) (c : Char) : .invalid c ∉ ts := by
  obtain ⟨out, s, hrun, -⟩ := exists_run_of_ofTokens hmark h
  exact State.invalid_notMem_of_run hrun c

/-- The postfix order holds tokens of the expression and zeros. -/
theorem mem_of_ofTokens {ts r : List Token} (hmark : .endMark ∉ ts) (h : ofTokens ts = .ok r)
    {u : Token} (hu : u ∈ r) : u ∈ ts ∨ u = .number 0 := by
  rcases mem_of_mem_images ((perm_of_ofTokens hmark h).mem_iff.mp hu) with hzero | ⟨hmem, -⟩
  · exact .inr hzero
  · exact .inl hmem

/-- **Conservation.** Whatever text is converted, well formed or not: no parenthesis, mark or
refused character comes out, the numbers come out in the order of the text with a zero for each
prefix minus, the operators and the functions come out once each, and the length is that of the text
without its parentheses, each prefix minus counted twice. -/
theorem ofText_conserves {text : String} {r : List Token} (h : ofText text = .ok r) :
    (.leftParen ∉ r ∧ .rightParen ∉ r ∧ .endMark ∉ r ∧ ∀ c, .invalid c ∉ r) ∧
    r.filter Token.isNumber = numbers none (tokens text.toList) ∧
    r.filter Token.isOperator ~ (tokens text.toList).filter Token.isOperator ∧
    r.filter Token.isFunction ~ (tokens text.toList).filter Token.isFunction ∧
    r.length =
      (tokens text.toList).countP (!·.isParen) + prefixMinuses none (tokens text.toList) := by
  have hmark := Token.endMark_notMem_tokens text.toList
  have hperm : r ~ images none (tokens text.toList) := perm_of_ofTokens hmark h
  have hkind : ∀ kind : Token → Bool, kind (.number 0) = false →
      (∀ t, t.isParen → kind t = false) →
      r.filter kind ~ (tokens text.toList).filter kind := by
    intro kind hzero hparen
    have himages := filter_images hzero hparen none (tokens text.toList)
    exact himages ▸ hperm.filter kind
  have horigin : ∀ u ∈ r, u = .number 0 ∨ u ∈ tokens text.toList ∧ u.isParen = false :=
    fun u hu => mem_of_mem_images (hperm.mem_iff.mp hu)
  refine ⟨⟨?_, ?_, ?_, ?_⟩, numbers_of_ofTokens hmark h, hkind _ rfl ?_, hkind _ rfl ?_,
    hperm.length_eq.trans (length_images none _)⟩
  · intro hu
    simpa [Token.isParen] using horigin _ hu
  · intro hu
    simpa [Token.isParen] using horigin _ hu
  · intro hu
    simpa [hmark] using horigin _ hu
  · intro c hu
    simpa [invalid_notMem_of_ofTokens hmark h c] using horigin _ hu
  all_goals
    intro t ht
    cases t <;> first | rfl | cases ht

/-- Functions, prefix minus signs and a group, with operators behind their operands: no infix
expression, but converted. -/
theorem ofText_conserves_malformed :
    ofText "sqrt-(2 3*-)4^" = .ok [.number 0, .number 2, .number 3, .number 0, .operator .sub,
      .operator .mul, .number 4, .operator .pow, .operator .sub, .function "sqrt"] ∧
    numbers none (tokens "sqrt-(2 3*-)4^".toList) =
      [.number 0, .number 2, .number 3, .number 0, .number 4] ∧
    [.operator .sub, .operator .mul, .operator .pow, .operator .sub] ~
      (tokens "sqrt-(2 3*-)4^".toList).filter Token.isOperator ∧
    [.function "sqrt"] ~ (tokens "sqrt-(2 3*-)4^".toList).filter Token.isFunction ∧
    10 = (tokens "sqrt-(2 3*-)4^".toList).countP (!·.isParen) +
      prefixMinuses none (tokens "sqrt-(2 3*-)4^".toList) := by
  have h : ofText "sqrt-(2 3*-)4^" = .ok [.number 0, .number 2, .number 3, .number 0,
      .operator .sub, .operator .mul, .number 4, .operator .pow, .operator .sub,
      .function "sqrt"] := by
    with_unfolding_all rfl
  obtain ⟨-, hnumbers, hoperators, hfunctions, hlength⟩ := ofText_conserves h
  exact ⟨h, hnumbers.symm, hoperators, hfunctions, hlength⟩

end Postfix

end PocketCalc
