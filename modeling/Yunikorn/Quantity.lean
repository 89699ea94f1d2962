/-
# Quantities: `int64` values and the wrapping-safe calculators

`Quantity` is the source's `type Quantity int64`. A value is an integer with
its range proved, `[MinInt64, MaxInt64]`; Go's `+`, unary `-`, `*` and `/` on
it wrap in two's complement (`wrap`), which is what the calculators' sign
tests inspect.

`addVal` is the exact sum clamped to the range (`addVal_eq_clamp`), for all
operand pairs. `subVal` is `addVal` of the wrapped negation, so it is the
clamped difference except when the subtrahend is `MinInt64`, whose negation
wraps to itself (`subVal_eq_clamp`, `subVal_minQuantity`). `mulVal` divides
the wrapped product back to detect a wrap; that test misses only
`MinInt64 * -1`, which the source checks by hand (`mulVal_test_iff`), so
`mulVal` is the clamped product for all operand pairs (`mulVal_eq_clamp`).

Key definitions: `Quantity`, `wrap`, `clamp`, `addVal`, `subVal`, `mulVal`.
Key theorems: `addVal_eq_clamp`, `subVal_eq_clamp`, `subVal_minQuantity`,
`mulVal_test_iff`, `mulVal_eq_clamp`.
-/
import Mathlib.Order.Basic
import Mathlib.Order.MinMax

namespace Resources

/-- `math.MaxInt64`. -/
def maxInt64 : ℤ := 9223372036854775807

/-- `math.MinInt64`. -/
def minInt64 : ℤ := -9223372036854775808

/-- The source's `Quantity`: an `int64`, kept as the integer it denotes. -/
@[ext]
structure Quantity where
  val : ℤ
  min_le : -9223372036854775808 ≤ val
  le_max : val ≤ 9223372036854775807
deriving DecidableEq

namespace Quantity

instance : LinearOrder Quantity :=
  LinearOrder.lift' Quantity.val fun _ _ => Quantity.ext

instance : Zero Quantity := ⟨⟨0, by decide, by decide⟩⟩

@[simp] theorem lt_def {a b : Quantity} : a < b ↔ a.val < b.val := Iff.rfl
@[simp] theorem le_def {a b : Quantity} : a ≤ b ↔ a.val ≤ b.val := Iff.rfl
@[simp] theorem val_zero : (0 : Quantity).val = 0 := rfl

theorem eq_iff {a b : Quantity} : a = b ↔ a.val = b.val := ⟨congrArg _, Quantity.ext⟩

@[simp] theorem val_min (a b : Quantity) : (min a b).val = min a.val b.val := by
  rcases le_total a b with h | h
  · rw [min_eq_left h, min_eq_left (le_def.mp h)]
  · rw [min_eq_right h, min_eq_right (le_def.mp h)]

@[simp] theorem val_max (a b : Quantity) : (max a b).val = max a.val b.val := by
  rcases le_total a b with h | h
  · rw [max_eq_right h, max_eq_right (le_def.mp h)]
  · rw [max_eq_left h, max_eq_left (le_def.mp h)]

end Quantity

open Quantity

/-- `math.MaxInt64` as a quantity. -/
def maxQuantity : Quantity := ⟨9223372036854775807, by decide, by decide⟩

/-- `math.MinInt64` as a quantity. -/
def minQuantity : Quantity := ⟨-9223372036854775808, by decide, by decide⟩

@[simp] theorem val_maxQuantity : maxQuantity.val = maxInt64 := rfl
@[simp] theorem val_minQuantity : minQuantity.val = minInt64 := rfl

/-- Two's-complement reduction of an integer onto `int64`: what Go's `int64`
arithmetic returns for the exact result `x`. -/
def wrap (x : ℤ) : Quantity :=
  ⟨(x + 9223372036854775808) % 18446744073709551616 - 9223372036854775808, by omega, by omega⟩

/-- The exact result `x` clamped to `[MinInt64, MaxInt64]`: what a
wrapping-safe calculator promises. -/
def clamp (x : ℤ) : Quantity :=
  ⟨max (-9223372036854775808) (min x 9223372036854775807), by omega, by omega⟩

@[simp] theorem val_wrap (x : ℤ) :
    (wrap x).val = (x + 9223372036854775808) % 18446744073709551616 - 9223372036854775808 := rfl

@[simp] theorem val_clamp (x : ℤ) :
    (clamp x).val = max (-9223372036854775808) (min x 9223372036854775807) := rfl

theorem clamp_of_mem {x : ℤ} (h1 : minInt64 ≤ x) (h2 : x ≤ maxInt64) : (clamp x).val = x := by
  simp only [minInt64, maxInt64] at h1 h2
  simp only [val_clamp]; omega

theorem clamp_val (q : Quantity) : clamp q.val = q := by
  ext; have := q.min_le; have := q.le_max; simp only [val_clamp]; omega

/-- Go's `int64` operators. -/
instance : Add Quantity := ⟨fun a b => wrap (a.val + b.val)⟩
instance : Neg Quantity := ⟨fun a => wrap (-a.val)⟩
instance : Sub Quantity := ⟨fun a b => wrap (a.val - b.val)⟩
instance : Mul Quantity := ⟨fun a b => wrap (a.val * b.val)⟩
/-- Go's `/` on `int64` truncates toward zero; `MinInt64 / -1` wraps to `MinInt64`. -/
instance : Div Quantity := ⟨fun a b => wrap (a.val.tdiv b.val)⟩

@[simp] theorem val_add (a b : Quantity) : (a + b).val = (wrap (a.val + b.val)).val := rfl
@[simp] theorem val_neg (a : Quantity) : (-a).val = (wrap (-a.val)).val := rfl
@[simp] theorem val_sub (a b : Quantity) : (a - b).val = (wrap (a.val - b.val)).val := rfl
@[simp] theorem val_mul (a b : Quantity) : (a * b).val = (wrap (a.val * b.val)).val := rfl
@[simp] theorem val_div (a b : Quantity) : (a / b).val = (wrap (a.val.tdiv b.val)).val := rfl

/-! ### The calculators -/

/-- Wrapping safe addition (`addVal`): the wrapped sum, unless the sign test
sees that it wrapped, in which case the bound on the side of `valA`. -/
def addVal (valA valB : Quantity) : Quantity :=
  let result := valA + valB
  -- check if the sign wrapped
  if decide (result < valA) != decide (valB < 0) then
    if valA < 0 then minQuantity else maxQuantity
  else result

/-- `subVal`: `addVal` of the negated subtrahend. -/
def subVal (valA valB : Quantity) : Quantity := addVal valA (-valB)

/-- Wrapping safe multiplication (`mulVal`), with the source's special check
for `MinInt64 * -1`. -/
def mulVal (valA valB : Quantity) : Quantity :=
  if valA = 0 ∨ valB = 0 then 0
  else
    let result := valA * valB
    if result / valB ≠ valA ∨ (valA = minQuantity ∧ valB.val = -1) then
      if decide (valA < 0) != decide (valB < 0) then minQuantity else maxQuantity
    else result

/-- **`addVal` is exact-then-clamped** for every pair of operands: the sign
test on the wrapped sum detects exactly the sums outside the range. -/
theorem addVal_eq_clamp (a b : Quantity) : addVal a b = clamp (a.val + b.val) := by
  have := a.min_le; have := a.le_max; have := b.min_le; have := b.le_max
  unfold addVal
  ext
  simp only [bne_iff_ne, ne_eq, decide_eq_decide, lt_def, val_add, val_wrap, val_zero]
  split_ifs at * <;> simp only [val_minQuantity, val_maxQuantity, val_clamp, val_add, val_wrap,
    minInt64, maxInt64] at * <;> omega

/-- Subtraction is exact-then-clamped for every subtrahend but `MinInt64`. -/
theorem subVal_eq_clamp (a : Quantity) {b : Quantity} (hb : b ≠ minQuantity) :
    subVal a b = clamp (a.val - b.val) := by
  have hb' : b.val ≠ minInt64 := fun h => hb (Quantity.ext h)
  have := b.min_le; have := b.le_max
  have hneg : (-b).val = -b.val := by
    simp only [val_neg, val_wrap]; simp only [minInt64] at hb'; omega
  rw [subVal, addVal_eq_clamp, hneg, Int.sub_eq_add_neg]

theorem subVal_zero (v : Quantity) : subVal v 0 = v := by
  rw [subVal_eq_clamp v (by decide), Quantity.val_zero, Int.sub_zero, clamp_val]

/-- The negation of `MinInt64` wraps to `MinInt64`, so subtracting it adds it. -/
theorem subVal_minQuantity (a : Quantity) :
    subVal a minQuantity = clamp (a.val + minInt64) := by
  rw [subVal, addVal_eq_clamp]; rfl

/-! ### Multiplication -/

theorem val_wrap_of_mem {x : ℤ} (h : minInt64 ≤ x ∧ x ≤ maxInt64) : (wrap x).val = x := by
  simp only [val_wrap, minInt64, maxInt64] at *; omega

theorem natAbs_tmod_lt (a : ℤ) {b : ℤ} (hb : b ≠ 0) : (a.tmod b).natAbs < b.natAbs := by
  rcases a with m | m <;> rcases b with n | n <;>
    simp only [Int.tmod, Int.natAbs_ofNat, Int.natAbs_neg, Int.natAbs_negSucc, Int.ofNat_eq_coe] at hb ⊢ <;>
    exact Nat.mod_lt _ (by omega)

/-- A wrapped integer within `2^63` of the exact one is the exact one. -/
theorem mem_of_wrap_near {p t : ℤ} (ht : t.natAbs < 9223372036854775808) (h : (wrap p).val = p + t) :
    minInt64 ≤ p ∧ p ≤ maxInt64 := by
  simp only [val_wrap] at h; simp only [minInt64, maxInt64]; omega

/-- The truncated quotient of an `int64` leaves the range only at `MinInt64 / -1`. -/
theorem tdiv_mem (r b : Quantity) (hb : b.val ≠ 0) (hx : ¬ (r = minQuantity ∧ b.val = -1)) :
    minInt64 ≤ r.val.tdiv b.val ∧ r.val.tdiv b.val ≤ maxInt64 := by
  have hdm := Int.tdiv_add_tmod r.val b.val
  have ht := natAbs_tmod_lt r.val hb
  have hq : (r.val.tdiv b.val).natAbs ≤ r.val.natAbs := by
    rw [Int.natAbs_tdiv]; exact Nat.div_le_self _ _
  have := r.min_le; have := r.le_max; have := b.min_le; have := b.le_max
  rw [Quantity.eq_iff, val_minQuantity] at hx
  generalize r.val.tdiv b.val = q at hdm hq ⊢
  by_contra hout
  obtain rfl : q = 9223372036854775808 := by simp only [minInt64, maxInt64] at hout; omega
  simp only [minInt64] at hx
  omega

/-- **The overflow test of `mulVal` is exact.** Dividing the wrapped product
back by `valB` gives `valA` exactly when the product is representable, except
for `MinInt64 * -1`, whose quotient `MinInt64 / -1` wraps too; the source
checks that pair by hand. -/
theorem mulVal_test_iff (a b : Quantity) (hb : b ≠ 0) :
    (a * b / b ≠ a ∨ (a = minQuantity ∧ b.val = -1)) ↔
      ¬ (minInt64 ≤ a.val * b.val ∧ a.val * b.val ≤ maxInt64) := by
  have hb0 : b.val ≠ 0 := fun h => hb (Quantity.ext h)
  constructor
  · -- a representable product divides back, and `MinInt64 * -1` is not representable
    rintro (h | ⟨rfl, hb1⟩) hin
    · refine h (Quantity.ext ?_)
      rw [val_div, val_mul, val_wrap_of_mem hin, Int.mul_tdiv_cancel _ hb0,
        val_wrap_of_mem ⟨a.min_le, a.le_max⟩]
    · rw [hb1] at hin; exact absurd hin (by decide)
  · -- otherwise the remainder of the wrapped product is a multiple of `2^64`
    intro hout
    by_contra hc
    push_neg at hc
    obtain ⟨hq, hs⟩ := hc
    have hmem := tdiv_mem (a * b) b hb0 fun ⟨hab, hb1⟩ => hs (Quantity.ext (by
      have := a.min_le; have := a.le_max
      rw [Quantity.eq_iff, val_mul, hb1, val_wrap] at hab
      simp only [val_minQuantity, minInt64] at hab ⊢; omega)) hb1
    rw [Quantity.eq_iff, val_div, val_wrap_of_mem hmem] at hq
    have hdm := Int.tdiv_add_tmod (a * b).val b.val
    rw [hq, Int.mul_comm] at hdm
    refine hout (mem_of_wrap_near (t := (a * b).val.tmod b.val)
      (lt_of_lt_of_le (natAbs_tmod_lt _ hb0) ?_) ?_)
    · have := b.min_le; have := b.le_max; omega
    · rw [← val_mul]; omega

/-- **`mulVal` is exact-then-clamped** for every pair of operands. -/
theorem mulVal_eq_clamp (a b : Quantity) : mulVal a b = clamp (a.val * b.val) := by
  unfold mulVal
  by_cases h0 : a = 0 ∨ b = 0
  · rw [if_pos h0]
    rcases h0 with rfl | rfl <;> ext <;> simp
  have ha : a.val ≠ 0 := fun h => h0 (Or.inl (Quantity.ext h))
  have hb : b.val ≠ 0 := fun h => h0 (Or.inr (Quantity.ext h))
  have htest := mulVal_test_iff a b fun h => h0 (Or.inr h)
  simp only [if_neg h0]
  split_ifs with hc hs
  · -- an overflow with operands of opposite signs is below `MinInt64`
    have hneg : a.val * b.val < 0 := by
      simp only [bne_iff_ne, ne_eq, decide_eq_decide, lt_def, val_zero] at hs
      rcases Int.lt_or_gt_of_ne ha with ha | ha <;> rcases Int.lt_or_gt_of_ne hb with hb | hb
      · exact absurd (iff_of_true ha hb) hs
      · exact Int.mul_neg_of_neg_of_pos ha hb
      · exact Int.mul_neg_of_pos_of_neg ha hb
      · exact absurd (iff_of_false (Int.not_lt.mpr ha.le) (Int.not_lt.mpr hb.le)) hs
    have hout := htest.mp hc
    ext; simp only [val_minQuantity, val_clamp, minInt64, maxInt64] at hout ⊢; omega
  · -- an overflow with operands of one sign is above `MaxInt64`
    have hpos : 0 < a.val * b.val := by
      simp only [bne_iff_ne, ne_eq, decide_eq_decide, lt_def, val_zero, not_not] at hs
      rcases Int.lt_or_gt_of_ne ha with ha | ha <;> rcases Int.lt_or_gt_of_ne hb with hb | hb
      · exact Int.mul_pos_of_neg_of_neg ha hb
      · exact absurd (hs.mp ha) (Int.not_lt.mpr hb.le)
      · exact absurd (hs.mpr hb) (Int.not_lt.mpr ha.le)
      · exact Int.mul_pos ha hb
    have hout := htest.mp hc
    ext; simp only [val_maxQuantity, val_clamp, minInt64, maxInt64] at hout ⊢; omega
  · have hin := not_not.mp ((not_congr htest).mp hc)
    ext; simp only [val_mul, val_wrap, val_clamp, minInt64, maxInt64] at hin ⊢; omega

end Resources
