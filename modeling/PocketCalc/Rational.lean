/-!
# Orders of magnitude and rounding

`magnitude b x` is the exponent `e` with `b ^ e ≤ x < b ^ (e + 1)`: in base ten the place of the
first significant digit, in base two the binade. It is read off a digit count, of the whole part
when `x` is at least one and of the whole part of the inverse otherwise.

`halfEven x` is the integer nearest to `x`; when two integers are equally near it is the even one.
Every rounding of the library is this one, applied to a quotient by the unit of the last digit
kept. The lemmas place the result within half a unit and say what a tie does.
-/

namespace PocketCalc.Rational

/-! ## Orders of magnitude -/

/-- The number of base-`b` digits of `n`; zero has one digit. Binary digits are counted by the binary
logarithm, without writing them down. -/
def digitCount (b n : Nat) : Nat := if b = 2 then n.log2 + 1 else (Nat.toDigits b n).length

/-- Even zero is written with one digit. -/
theorem digitCount_pos (b n : Nat) : 0 < digitCount b n := by
  unfold digitCount
  split
  · exact Nat.succ_pos _
  · exact Nat.length_toDigits_pos

/-- The exponent of the greatest power of `b` that is at most `x`, for a positive `x`. A number
below one has the digits of `⌈x⁻¹⌉ - 1` between the point and its first significant digit. -/
def magnitude (b : Nat) (x : Rat) : Int :=
  if 1 ≤ x then (digitCount b x.floor.toNat : Int) - 1
  else -(digitCount b (x⁻¹.ceil.toNat - 1) : Int)

/-! ## Rounding -/

/-- The integer nearest to `x`, the even one of two that are equally near. -/
def halfEven (x : Rat) : Int :=
  if x - x.floor < 1 / 2 then x.floor
  else if 1 / 2 < x - x.floor then x.floor + 1
  else x.floor + x.floor % 2

/-- An integer is its own nearest integer. -/
@[simp] theorem halfEven_intCast (k : Int) : halfEven (k : Rat) = k := by
  simp only [halfEven, Rat.floor_intCast]
  grind

/-- The result is at most half a unit below `x`. -/
theorem le_halfEven_add_half (x : Rat) : x ≤ halfEven x + 1 / 2 := by
  have hlt : x - 1 < x.floor := Rat.lt_floor
  unfold halfEven
  split
  · grind
  · split
    · grind
    · rcases Int.emod_two_eq x.floor with h | h <;> rw [h] <;> grind

/-- The result is at most half a unit above `x`. -/
theorem halfEven_sub_half_le (x : Rat) : (halfEven x : Rat) - 1 / 2 ≤ x := by
  have hle : (x.floor : Rat) ≤ x := Rat.floor_le x
  unfold halfEven
  split
  · grind
  · split
    · grind
    · rcases Int.emod_two_eq x.floor with h | h <;> rw [h] <;> grind

/-- Halfway between two integers the result is even. -/
theorem halfEven_tie (k : Int) : halfEven (k + 1 / 2) % 2 = 0 := by
  have hf : ((k : Rat) + 1 / 2).floor = k := by
    rw [Rat.add_comm, Rat.floor_add_intCast]
    have : ((1 : Rat) / 2).floor = 0 := by decide +kernel
    omega
  unfold halfEven
  rw [hf]
  split
  · grind
  · split
    · grind
    · omega

end PocketCalc.Rational
