import PocketCalc.Arithmetic
import PocketCalc.Proofs.Trigonometry.Poles

/-!
# What the guards let through

Every operation refuses the operands for which it is undefined. On finite operands no operator and
no root or logarithm that is computed gives the quiet value `NaN`. The trigonometric functions look
at the angle in degrees only, and the product in the conversion to radians overflows before it is
divided: from `angleBound` on, about `5.7e307` degrees, the angle is infinite and the result is no
number (`guards_of_finite`).

Nothing is assumed of the elementary functions but where they give `NaN`.
-/

namespace PocketCalc

open Binary64
open Float.Model (UnpackedFloat)
open Float.Model.UnpackedFloat

/-- Where the elementary functions give the quiet value `NaN`. -/
structure Elementary.UndefinedExactly (E : Elementary) : Prop where
  pow : ∀ x y : Float, x.isFinite = true → y.isFinite = true →
    ((E.pow x y).isNaN = true ↔ x < 0 ∧ isWhole y = false)
  ln : ∀ x : Float, (E.ln x).isNaN = true ↔ x < 0 ∨ x.isNaN = true
  log10 : ∀ x : Float, (E.log10 x).isNaN = true ↔ x < 0 ∨ x.isNaN = true
  sin : ∀ x : Float, (E.sin x).isNaN = true ↔ x.isInf = true ∨ x.isNaN = true
  cos : ∀ x : Float, (E.cos x).isNaN = true ↔ x.isInf = true ∨ x.isNaN = true
  tan : ∀ x : Float, (E.tan x).isNaN = true ↔ x.isInf = true ∨ x.isNaN = true

variable {x y v : Float} {a b : Rat}

/-! ## Operators -/

/-- What is computed has passed the guard. -/
theorem of_guarded {p : Prop} [Decidable p] {e : CalcError} {r : Except CalcError Float}
    (h : (if p then .error e else r) = .ok v) : ¬ p ∧ r = .ok v := by
  split at h
  · cases h
  · next hp => exact ⟨hp, h⟩

/-- No operator makes `NaN` of finite operands. -/
theorem Operator.isNaN_of_apply {E : Elementary} (hE : E.UndefinedExactly) {op : Operator}
    (hx : x.isFinite = true) (hy : y.isFinite = true) (hv : op.apply x y = .ok v) :
    v.isNaN = false := by
  obtain ⟨a, ha⟩ := exists_value_of_isFinite hx
  obtain ⟨b, hb⟩ := exists_value_of_isFinite hy
  cases op with
  | add =>
    cases hv
    exact isNaN_add ha hb
  | sub =>
    cases hv
    exact isNaN_sub ha hb
  | mul =>
    cases hv
    exact isNaN_mul ha hb
  | div =>
    obtain ⟨hguard, hok⟩ := of_guarded hv
    cases hok
    rw [beq_iff hb value?_zero] at hguard
    exact isNaN_div ha hb hguard
  | pow =>
    obtain ⟨-, hpower⟩ := of_guarded hv
    obtain ⟨hguard, hok⟩ := of_guarded hpower
    cases hok
    rw [← Bool.not_eq_true, hE.pow x y hx hy]
    rintro ⟨hneg, hwhole⟩
    exact hguard (by simp [hneg, hwhole])

/-- Where an operator is undefined: division by zero, a negative power of zero, and a power of a
negative base that is not whole. -/
def Operator.Undefined (op : Operator) (a b : Rat) : Prop :=
  match op with
  | add | sub | mul => False
  | div => b = 0
  | pow => (a = 0 ∧ b < 0) ∨ (a < 0 ∧ b.den ≠ 1)

/-- An operator refuses the operands for which it is undefined, and no others. -/
theorem Operator.apply_error_iff [Elementary] {op : Operator} (hx : value? x = some a)
    (hy : value? y = some b) : (∃ e, op.apply x y = .error e) ↔ op.Undefined a b := by
  cases op with
  | add | sub | mul => exact iff_of_false nofun nofun
  | div =>
    simp only [Operator.apply, Operator.Undefined, beq_iff hy value?_zero]
    by_cases hb : b = 0
    · simp [hb]
    · simp [hb]
  | pow =>
    have hwhole : isWhole y = true ↔ b.den = 1 := by simp [isWhole, hy]
    simp only [Operator.apply, Operator.Undefined, Bool.and_eq_true, beq_iff hx value?_zero,
      decide_eq_true_eq, lt_iff hy value?_zero, lt_iff hx value?_zero, Bool.not_eq_true', ne_eq,
      ← hwhole, Bool.not_eq_true]
    split
    · next h => simp [h]
    · next h =>
      split
      · next h' => simp [h']
      · next h' => simp [h, h']

/-! ## The angle in radians -/

/-- The value of the circle constant. -/
def piValue : Rat := 884279719003555 / 2 ^ 48

/-- From this number of degrees on, the product of the conversion is out of range. -/
def angleBound : Rat := overflowBound / piValue

theorem value?_pi : value? pi = some piValue := by decide +kernel

theorem piValue_pos : 0 < piValue := by
  unfold piValue
  positivity

theorem isFinite_mul_pi_iff (hx : value? x = some a) :
    (x * pi).isFinite = true ↔ |a| < angleBound := by
  rw [isFinite_eq_isSome, value?_mul hx value?_pi, Option.isSome_iff_ne_none, ne_eq,
    rounded?_eq_none_iff, not_le, abs_mul, abs_of_pos piValue_pos, angleBound,
    lt_div_iff₀ piValue_pos]

/-- The quotient keeps a finite product finite, and an infinite one infinite. -/
theorem isFinite_toRadians_iff (hx : value? x = some a) :
    (toRadians x).isFinite = true ↔ |a| < angleBound := by
  have hhalfTurn : value? 180 = some 180 := by decide +kernel
  rw [← isFinite_mul_pi_iff hx]
  constructor
  · intro hradians
    by_contra hproduct
    have hinf : (x * pi).isInf = true := by
      rw [isFinite_iff, not_not, isNaN_mul hx value?_pi] at hproduct
      exact hproduct.resolve_right nofun
    obtain ⟨s, hs⟩ := exists_infinity hinf
    have hdiv : toRadians x =
        .ofModel (.pack (div .binary64 (unpacked (x * pi)) (unpacked 180))) := rfl
    have hvalue : value? (toRadians x) = none := by
      rw [hdiv, hs]
      cases s <;> decide +kernel
    rw [isFinite_eq_isSome, hvalue] at hradians
    cases hradians
  · intro hproduct
    obtain ⟨w, hw⟩ := exists_value_of_isFinite hproduct
    have hbound := abs_lt_overflowBound hw
    have hsmall : |w / 180| < overflowBound := by
      rw [abs_div, abs_of_pos (by norm_num : (0 : Rat) < 180)]
      exact lt_of_le_of_lt (div_le_self (abs_nonneg w) (by norm_num)) hbound
    rw [isFinite_eq_isSome, toRadians, value?_div hw hhalfTurn (by norm_num),
      Option.isSome_iff_ne_none, ne_eq, rounded?_eq_none_iff, not_le]
    exact hsmall

/-! ## Functions -/

/-- A trigonometric function gives `NaN` exactly where the conversion overflows. -/
theorem Trig.isNaN_of_apply {E : Elementary} (hE : E.UndefinedExactly) {f : Trig}
    (hx : value? x = some a) (hv : f.apply x = .ok v) :
    v.isNaN = true ↔ angleBound ≤ |a| := by
  rw [← not_lt, ← isFinite_toRadians_iff hx, isFinite_iff, not_not]
  cases f with
  | sin =>
    cases hv
    exact hE.sin _
  | cos =>
    cases hv
    exact hE.cos _
  | tan =>
    obtain ⟨-, hok⟩ := of_guarded hv
    cases hok
    exact hE.tan _

/-- No root and no logarithm that is computed is `NaN`. -/
theorem UnaryFunction.isNaN_of_apply {E : Elementary} (hE : E.UndefinedExactly) {f : UnaryFunction}
    (hx : value? x = some a) (hv : f.apply x = .ok v) :
    v.isNaN = true ↔ (∃ g, f = .trig g) ∧ angleBound ≤ |a| := by
  have hnumber : ¬ x.isNaN = true := by
    rw [isNaN_of_value? hx]
    nofun
  have hpositive : ¬ x ≤ 0 → ¬ (x < 0 ∨ x.isNaN = true) := by
    rw [le_iff hx value?_zero, lt_iff hx value?_zero]
    rintro h (hneg | hnan)
    · exact h hneg.le
    · exact hnumber hnan
  cases f with
  | sqrt =>
    obtain ⟨hguard, hok⟩ := of_guarded hv
    cases hok
    rw [lt_iff hx value?_zero, not_lt] at hguard
    rw [isNaN_sqrt hx hguard]
    exact iff_of_false nofun nofun
  | log =>
    obtain ⟨hguard, hok⟩ := of_guarded hv
    cases hok
    rw [hE.log10]
    exact iff_of_false (hpositive hguard) nofun
  | ln =>
    obtain ⟨hguard, hok⟩ := of_guarded hv
    cases hok
    rw [hE.ln]
    exact iff_of_false (hpositive hguard) nofun
  | trig g =>
    rw [Trig.isNaN_of_apply hE hx hv]
    exact ⟨fun h => ⟨⟨g, rfl⟩, h⟩, fun h => h.2⟩

/-- Where a function is undefined. -/
def UnaryFunction.Undefined (f : UnaryFunction) (a : Rat) : Prop :=
  match f with
  | sqrt => a < 0
  | log | ln => a ≤ 0
  | trig .tan => ∃ k : Int, a = (90 + 180 * k : Int)
  | trig .sin | trig .cos => False

/-- A function refuses the arguments for which it is undefined. -/
theorem UnaryFunction.apply_error_of_undefined [Elementary] {f : UnaryFunction}
    (hx : value? x = some a) (hf : f.Undefined a) : ∃ e, f.apply x = .error e := by
  cases f with
  | sqrt => exact ⟨_, if_pos ((lt_iff hx value?_zero).mpr hf)⟩
  | log | ln => exact ⟨_, if_pos ((le_iff hx value?_zero).mpr hf)⟩
  | trig g =>
    cases g with
    | sin | cos => exact hf.elim
    | tan =>
      obtain ⟨k, rfl⟩ := hf
      exact ⟨_, if_pos (isTangentPole_of_pole hx)⟩

theorem UnaryFunction.eq_of_ofName? {name : String} {f : UnaryFunction}
    (h : UnaryFunction.ofName? name = some f) : f.name = name := by
  have := List.find?_some h
  exact eq_of_beq this

/-- **The guards on finite operands.** No operator gives `NaN`, and a function gives it exactly if it
is a sine, a cosine or a tangent of an angle whose conversion to radians overflows. What is undefined
is refused: by the operators this and nothing else. -/
theorem guards_of_finite (E : Elementary) (hE : E.UndefinedExactly) :
    (∀ (op : Operator) (x y v : Float), x.isFinite = true → y.isFinite = true →
      op.apply x y = .ok v → v.isNaN = false) ∧
    (∀ (name : String) (x v : Float), x.isFinite = true → applyNamed name x = .ok v →
      (v.isNaN = true ↔
        name ∈ Trig.all.map Trig.name ∧ ∃ a, value? x = some a ∧ angleBound ≤ |a|)) ∧
    (∀ (op : Operator) (x y : Float) (a b : Rat), value? x = some a → value? y = some b →
      ((∃ e, op.apply x y = .error e) ↔ op.Undefined a b)) ∧
    (∀ (f : UnaryFunction) (x : Float) (a : Rat), value? x = some a → f.Undefined a →
      ∃ e, applyNamed f.name x = .error e) := by
  refine ⟨fun op x y v hx hy hv => Operator.isNaN_of_apply hE hx hy hv, ?_,
    fun op x y a b hx hy => Operator.apply_error_iff hx hy, ?_⟩
  · intro name x v hfinite hv
    obtain ⟨a, hx⟩ := exists_value_of_isFinite hfinite
    have hvalue : (∃ c, value? x = some c ∧ angleBound ≤ |c|) ↔ angleBound ≤ |a| := by simp [hx]
    unfold applyNamed at hv
    split at hv
    · next f hf =>
      rw [UnaryFunction.isNaN_of_apply hE hx hv, ← UnaryFunction.eq_of_ofName? hf, hvalue]
      refine and_congr_left' ?_
      cases f with
      | sqrt | log | ln => exact iff_of_false nofun (by decide)
      | trig g => exact iff_of_true ⟨g, rfl⟩ (by cases g <;> decide)
    · cases hv
  · intro f x a hx hf
    unfold applyNamed
    rw [UnaryFunction.ofName?_name]
    exact UnaryFunction.apply_error_of_undefined hx hf

/-! ## A sample -/

/-- A number where a condition holds, and `NaN` elsewhere. -/
def numberIf (p : Bool) (v : Float) : Float := if p then v else 0 / 0

theorem isNaN_numberIf {p : Bool} (hv : v.isNaN = false) :
    (numberIf p v).isNaN = true ↔ p = false := by
  cases p with
  | true =>
    have hvalue : numberIf true v = v := rfl
    rw [hvalue, hv]
    decide
  | false =>
    have hnan : (numberIf false v).isNaN = true := by
      have hquot : numberIf false v = 0 / 0 := rfl
      rw [hquot]
      decide +kernel
    exact iff_of_true hnan rfl

/-- Functions that are constant where they are numbers. They have the values of the elementary
functions at the angle zero, at the argument one and at the exponent zero. -/
@[reducible]
def Elementary.sample : Elementary where
  sin x := numberIf x.isFinite 0
  cos x := numberIf x.isFinite 1
  tan x := numberIf x.isFinite 0
  ln x := numberIf (!(x < 0 || x.isNaN)) 0
  log10 x := numberIf (!(x < 0 || x.isNaN)) 0
  pow x y := numberIf (!(x < 0 && !isWhole y)) 1

theorem Elementary.undefinedExactly_sample : Elementary.sample.UndefinedExactly := by
  have hzero : Float.isNaN 0 = false := by decide +kernel
  have hone : Float.isNaN 1 = false := by decide +kernel
  have htrig : ∀ x : Float, x.isFinite = false ↔ x.isInf = true ∨ x.isNaN = true := by
    intro x
    rw [← Bool.not_eq_true, isFinite_iff, not_not]
  have hlog : ∀ x : Float,
      (!(decide (x < 0) || x.isNaN)) = false ↔ x < 0 ∨ x.isNaN = true := by
    intro x
    rw [Bool.not_eq_false', Bool.or_eq_true, decide_eq_true_iff]
  refine ⟨fun x y _ _ => ?_, fun x => ?_, fun x => ?_, fun x => ?_, fun x => ?_, fun x => ?_⟩
  · exact (isNaN_numberIf hone).trans (by simp)
  · exact (isNaN_numberIf hzero).trans (hlog x)
  · exact (isNaN_numberIf hzero).trans (hlog x)
  · exact (isNaN_numberIf hzero).trans (htrig x)
  · exact (isNaN_numberIf hone).trans (htrig x)
  · exact (isNaN_numberIf hzero).trans (htrig x)

/-- An angle that is finite and too large for the conversion. -/
theorem angleBound_le_tooLarge :
    ∃ a, value? 1e308 = some a ∧ angleBound ≤ |a| := by
  refine ⟨5010420900022432 * 2 ^ 971, ?_, ?_⟩ <;> decide +kernel

/-- A power, a sine, a sine that is out of range, a quotient by zero and a tangent at a pole. -/
theorem guards_of_finite_samples :
    (Elementary.sample.UndefinedExactly ∧ Float.isFinite 2 = true ∧ Float.isFinite 0 = true ∧
      Float.isFinite 1e308 = true) ∧
    (@Operator.apply Elementary.sample .pow 2 0 = .ok 1 ∧ Float.isNaN 1 = false) ∧
    (@applyNamed Elementary.sample "sin" 0 = .ok 0 ∧ Float.isNaN 0 = false) ∧
    (∃ v, @applyNamed Elementary.sample "sin" 1e308 = .ok v ∧ v.isNaN = true) ∧
    (∃ e, @Operator.apply Elementary.sample .div 2 0 = .error e) ∧
    ∃ e, @applyNamed Elementary.sample "tan" 270 = .error e := by
  have hE := Elementary.undefinedExactly_sample
  have htwo : Float.isFinite 2 = true := by decide +kernel
  have hzero : Float.isFinite 0 = true := by decide +kernel
  have hlarge : Float.isFinite 1e308 = true := by decide +kernel
  have hvalueTwo : value? 2 = some 2 := by decide +kernel
  have hvaluePole : value? 270 = some ((90 + 180 * 1 : Int) : Rat) := by decide +kernel
  have hpow : @Operator.apply Elementary.sample .pow 2 0 = .ok 1 := by rfl
  have hsin : @applyNamed Elementary.sample "sin" 0 = .ok 0 := by rfl
  have hbound : ¬ ∃ a, value? 0 = some a ∧ angleBound ≤ |a| := by
    rw [value?_zero]
    rintro ⟨a, ha, hle⟩
    cases ha
    exact absurd hle (by decide +kernel)
  obtain ⟨hoperator, hfunction, hrefused, hundefined⟩ := guards_of_finite Elementary.sample hE
  refine ⟨⟨hE, htwo, hzero, hlarge⟩, ⟨hpow, hoperator .pow 2 0 1 htwo hzero hpow⟩, ⟨hsin, ?_⟩,
    ⟨_, rfl, (hfunction "sin" 1e308 _ hlarge rfl).mpr ⟨by decide, angleBound_le_tooLarge⟩⟩,
    (hrefused .div 2 0 2 0 hvalueTwo value?_zero).mpr rfl,
    hundefined (.trig .tan) 270 _ hvaluePole ⟨1, rfl⟩⟩
  rw [← Bool.not_eq_true, hfunction "sin" 0 0 hzero hsin]
  exact fun h => hbound h.2

/-- Not everything that is computed on finite operands is a number. -/
theorem not_number_of_finite :
    (∃ E : Elementary, E.UndefinedExactly) ∧
    ¬ ∃ E : Elementary, E.UndefinedExactly ∧
      (∀ (op : Operator) (x y v : Float), x.isFinite = true → y.isFinite = true →
        op.apply x y = .ok v → v.isNaN = false) ∧
      ∀ (name : String) (x v : Float), x.isFinite = true → applyNamed name x = .ok v →
        v.isNaN = false := by
  refine ⟨⟨Elementary.sample, Elementary.undefinedExactly_sample⟩, ?_⟩
  rintro ⟨E, hE, -, hnumber⟩
  obtain ⟨a, hx, hbound⟩ := angleBound_le_tooLarge
  have hfinite : Float.isFinite 1e308 = true := by decide +kernel
  have hv : applyNamed "sin" 1e308 = .ok (E.sin (toRadians 1e308)) := rfl
  have hnan := (Trig.isNaN_of_apply hE (f := .sin) hx rfl).mpr hbound
  rw [hnumber "sin" 1e308 _ hfinite hv] at hnan
  cases hnan

end PocketCalc
