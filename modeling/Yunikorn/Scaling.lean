/-
# Scaling by a `float64` ratio, and usage percentages

`MultiplyBy` and `MultiplyTo` multiply every value by a `float64` ratio
through `mulValRatio`, and `CalculateAbsUsedCapacity` computes
`float64(used) / float64(capacity) * 100` for every type of the capacity; all
three convert back to an integer, with Go's conversion of a value out of
`int64` range left as a parameter, the platform's choice.

`mulValRatio` truncates and clamps the `float64` product, except that a product
rounding to `2^63` passes the overflow check and is converted out of range:
exactly the products in `[2^63 - 512, 2^63 + 1024]` (`multiplyBy_finite_window`).
Below 53 bits `MultiplyBy` by an integer is `Multiply` (`multiplyBy_ofInt_eq_multiply`);
above, `MultiplyBy(b, 1.0)` moves every odd value between `2^53` and `2^54`
(`multiplyBy_one_odd`). `MultiplyTo` agrees with `MultiplyBy` at every type
and keeps the types it drops for a zero ratio (`multiplyTo_multiplyBy`).

`CalculateAbsUsedCapacity` records, for the types of both maps, a percentage
in `[0, math.MaxInt32]` on every platform (`calculateAbsUsedCapacity_bounds`),
monotone in the usage and the capacity (`calculateAbsUsedCapacity_mono`), and
within one of the exact percentage rounded down (`calculateAbsUsedCapacity_near_exact`).

Key definitions: `mulValRatio`, `multiplyBy`, `multiplyTo`, `absUsedValue`,
`calculateAbsUsedCapacity`, `absUsedPercent`, `exactUsedPercent`.
Key theorems: `mulValRatio_finite`, `multiplyBy_finite_window`, `multiplyBy_ofInt_eq_multiply`,
`multiplyBy_one_odd`, `multiplyTo_multiplyBy`, `calculateAbsUsedCapacity_bounds`,
`calculateAbsUsedCapacity_mono`, `absUsedPercent_mem`, `calculateAbsUsedCapacity_near_exact`.
-/
import Yunikorn.Float64
import Yunikorn.Compare
import Yunikorn.Algebra

namespace Resources

open Resource Float64

/-- `mulValRatio`: `0` for a zero value or ratio; otherwise the `float64`
product, `MaxInt64` above `math.MaxInt64`, `MinInt64` below `math.MinInt64`,
and the conversion of the product in between. -/
def mulValRatio (outOfRange : Float64 → Quantity) (value : Quantity) (ratio : Float64) : Quantity :=
  if value = 0 ∨ ratio.isZero then 0
  else
    let result := (ofInt value.val).mul ratio
    if (ofInt maxInt64).lt result then maxQuantity
    else if result.lt (ofInt minInt64) then minQuantity
    else toInt64 outOfRange result

/-- `MultiplyBy`: a new resource, empty for a `nil` base or a zero ratio. -/
def multiplyBy (outOfRange : Float64 → Quantity) (base : Option Resource) (ratio : Float64) :
    Option Resource :=
  match base with
  | none => some newResource
  | some base =>
    if ratio.isZero then some newResource
    else some (newResource.applyEach (fun _ _ v => mulValRatio outOfRange v ratio) base)

/-- `MultiplyTo`: each value of a non-`nil` receiver multiplied in place. -/
def multiplyTo (outOfRange : Float64 → Quantity) (r : Option Resource) (ratio : Float64) :
    Option Resource :=
  r.map fun r => r.applyEach (fun _ _ v => mulValRatio outOfRange v ratio) r

/-! ### One value -/

/-- **`mulValRatio` never wraps.** At a finite ratio it is `0` for a zero
value or ratio, the out-of-range conversion for a product rounding to `2^63`,
and otherwise the product truncated and clamped. -/
theorem mulValRatio_finite (o : Float64 → Quantity) (v : Quantity) (r : ℚ) :
    mulValRatio o v (.finite r) =
      if v = 0 ∨ r = 0 then 0
      else if roundQ (roundQ v.val * r) = 2 ^ 63 then o (.finite (2 ^ 63))
      else clamp (truncQ (roundQ (roundQ v.val * r))) := by
  have hz : (v = 0 ∨ (Float64.finite r).isZero = true) ↔ (v = 0 ∨ r = 0) := by
    simp [Float64.isZero]
  unfold mulValRatio
  by_cases h0 : v = 0 ∨ r = 0
  · rw [if_pos (hz.mpr h0), if_pos h0]
  rw [if_neg (mt hz.mp h0), if_neg h0, ofInt_quantity, ofInt_maxInt64, ofInt_minInt64, mul]
  rcases ofRat_cases (roundQ v.val * r) with ⟨hf, -⟩ | ⟨hf, hb⟩ | ⟨hf, hb⟩ <;> simp only [hf, lt]
  · by_cases h1 : 2 ^ 63 < roundQ (roundQ v.val * r)
    · rw [if_pos (by simpa using h1), if_neg h1.ne', clamp_truncQ_of_ge h1.le]
    by_cases h2 : roundQ (roundQ v.val * r) < -2 ^ 63
    · rw [if_neg (by simpa using h1), if_pos (by simpa using h2), if_neg (by linarith),
        clamp_truncQ_of_le h2.le]
    rw [if_neg (by simpa using h1), if_neg (by simpa using h2)]
    rcases (not_lt.mp h1).lt_or_eq with h3 | h3
    · rw [if_neg h3.ne, toInt64_of_mem o (not_lt.mp h2) h3]
    · rw [if_pos h3, h3, toInt64_two_pow_63]
  · have h63 : (2 : ℚ) ^ 63 < 2 ^ 1024 := pow_lt_pow_right₀ one_lt_two (by norm_num)
    rw [if_pos (show (!false) = true from rfl), if_neg (by linarith), clamp_truncQ_of_ge (by linarith)]
  · have h63 : (2 : ℚ) ^ 63 < 2 ^ 1024 := pow_lt_pow_right₀ one_lt_two (by norm_num)
    rw [if_neg (by decide), if_pos trivial, if_neg (by linarith), clamp_truncQ_of_le (by linarith)]

theorem mulValRatio_zero_left (o : Float64 → Quantity) (ratio : Float64) : mulValRatio o 0 ratio = 0 :=
  if_pos (.inl rfl)

theorem mulValRatio_of_isZero (o : Float64 → Quantity) (v : Quantity) {ratio : Float64}
    (h : ratio.isZero = true) : mulValRatio o v ratio = 0 :=
  if_pos (.inr h)

theorem mulValRatio_eq_mulVal (o : Float64 → Quantity) (v n : Quantity) (hn : |n.val| ≤ 2 ^ 53)
    (h : |v.val * n.val| ≤ 2 ^ 53) : mulValRatio o v (ofInt n.val) = mulVal v n := by
  rw [ofInt_quantity, roundQ_intCast hn, mulValRatio_finite, mulVal_eq_clamp]
  by_cases h0 : v = 0 ∨ (n.val : ℚ) = 0
  · rw [if_pos h0]
    rcases h0 with rfl | h0
    · rw [Quantity.val_zero, zero_mul]; exact (clamp_val 0).symm
    · rw [Int.cast_eq_zero.mp h0, mul_zero]; exact (clamp_val 0).symm
  rw [if_neg h0]
  have hv : |v.val| ≤ 2 ^ 53 := by
    have hn0 : 1 ≤ |n.val| := Int.one_le_abs (by exact_mod_cast (not_or.mp h0).2)
    calc |v.val| ≤ |v.val| * |n.val| := le_mul_of_one_le_right (abs_nonneg _) hn0
      _ ≤ 2 ^ 53 := by rw [← abs_mul]; exact h
  rw [roundQ_intCast hv, ← Int.cast_mul, roundQ_intCast h, truncQ_intCast, if_neg]
  intro h63
  have : ((v.val * n.val : ℤ) : ℚ) ≤ 2 ^ 53 := by exact_mod_cast (le_abs_self _).trans h
  rw [h63] at this; norm_num at this

/-! ### The resource functions -/

@[simp] theorem get_multiplyBy (o : Float64 → Quantity) (b : Resource) (ratio : Float64) (k : String) :
    (orZero (multiplyBy o (some b) ratio)).get k = mulValRatio o (b.get k) ratio := by
  unfold multiplyBy
  split_ifs with h
  · exact (mulValRatio_of_isZero o _ h).symm
  · rw [orZero_some, get_applyEach]
    split_ifs with hk
    · rfl
    · rw [get_of_not_mem hk, get_newResource, mulValRatio_zero_left]

@[simp] theorem get_multiplyTo (o : Float64 → Quantity) (r : Resource) (ratio : Float64) (k : String) :
    (orZero (multiplyTo o (some r) ratio)).get k = mulValRatio o (r.get k) ratio := by
  simp only [multiplyTo, Option.map_some', orZero_some, get_applyEach]
  split_ifs with hk
  · rfl
  · rw [get_of_not_mem hk, mulValRatio_zero_left]

/-- **The float path agrees with the integer path below 53 bits.**
`MultiplyBy` by the `float64` of an integer ratio of at most 53 bits is
`DeepEquals` to `Multiply` by that ratio whenever every product is at most
`2^53` in magnitude. -/
theorem multiplyBy_ofInt_eq_multiply (o : Float64 → Quantity) (b : Resource) (n : Quantity)
    (hn : |n.val| ≤ 2 ^ 53) (hb : ∀ k, |(b.get k).val * n.val| ≤ 2 ^ 53) :
    deepEquals (multiplyBy o (some b) (ofInt n.val)) (multiply (some b) n) = true := by
  by_cases h0 : n = 0
  · subst h0
    rw [multiplyBy, if_pos (by rw [ofInt_quantity, Quantity.val_zero, Int.cast_zero, roundQ_zero]; simp [Float64.isZero])]
    exact (deepEquals_iff _ _).mpr fun _ => rfl
  rw [multiplyBy, if_neg (by rw [ofInt_quantity, roundQ_intCast hn]; simpa [Float64.isZero, Quantity.eq_iff] using h0),
    multiply_some b h0, deepEquals_iff]
  intro k
  rw [lookup_applyEach, lookup_applyEach, mulValRatio_eq_mulVal o _ n hn (hb k)]

/-- `{x: 3}` times `2`. -/
theorem multiplyBy_ofInt_eq_multiply_small :
    let b := newResource.set "x" ⟨3, by decide, by decide⟩
    let n : Quantity := ⟨2, by decide, by decide⟩
    |n.val| ≤ 2 ^ 53 ∧ (∀ k, |(b.get k).val * n.val| ≤ 2 ^ 53) ∧
      deepEquals (multiplyBy amd64OutOfRange (some b) (ofInt n.val)) (multiply (some b) n) = true := by
  have hb : ∀ k, |((newResource.set "x" ⟨3, by decide, by decide⟩).get k).val * 2| ≤ 2 ^ 53 := fun k => by
    rw [get_set]; split_ifs
    · decide
    · rw [get_newResource]; decide
  exact ⟨by decide, hb, multiplyBy_ofInt_eq_multiply _ _ ⟨2, by decide, by decide⟩ (by decide) hb⟩

/-- **`MultiplyBy(b, 1.0)` changes every odd value between `2^53` and `2^54`**,
which `float64` cannot hold, to an even neighbour; `Multiply(b, 1)` keeps it. -/
theorem multiplyBy_one_odd (o : Float64 → Quantity) (b : Resource) (k : String)
    (hodd : (b.get k).val % 2 = 1) (h1 : 2 ^ 53 < (b.get k).val) (h2 : (b.get k).val < 2 ^ 54) :
    (orZero (multiplyBy o (some b) (.finite 1))).get k ≠ b.get k ∧
      (orZero (multiply (some b) (clamp 1))).get k = b.get k := by
  obtain ⟨m, hm⟩ : ∃ m, (b.get k).val = 2 * m + 1 := ⟨(b.get k).val / 2, by omega⟩
  have hm1 : 2 ^ 52 ≤ m := by norm_num at h1 ⊢; omega
  have hm2 : m < 2 ^ 53 := by norm_num at h2 ⊢; omega
  have hr : roundQ ((b.get k).val : ℚ) = ((2 * (if m % 2 = 1 then m + 1 else m) : ℤ) : ℚ) := by
    rw [hm, roundQ_odd hm1 hm2]; push_cast; rfl
  have hv0 : b.get k ≠ 0 := fun h => by rw [h] at hodd; exact absurd hodd (by decide)
  refine ⟨fun h => ?_, ?_⟩
  · have hlt : (2 * (if m % 2 = 1 then m + 1 else m) : ℤ) < 2 ^ 63 := by
      norm_num at hm2 ⊢; split_ifs <;> omega
    rw [get_multiplyBy, mulValRatio_finite, if_neg (by simpa using hv0), mul_one, roundQ_roundQ, hr,
      if_neg (by norm_cast; exact hlt.ne), truncQ_intCast] at h
    have := congrArg Quantity.val h
    rw [clamp_of_mem (by norm_num [minInt64] at hm1 ⊢; split_ifs <;> omega) (by simp only [maxInt64]; omega), hm] at this
    split_ifs at this <;> omega
  · have h1 : clamp 1 ≠ 0 := fun h => absurd (congrArg Quantity.val h) (by decide)
    rw [multiply_some b h1, orZero_some, get_applyEach, if_pos (not_not.mp fun hk => hv0 (get_of_not_mem hk)),
      mulVal_eq_clamp, show (clamp 1).val = 1 from rfl, mul_one, clamp_val]



/-- `{x: 2^53 + 1}` times `1.0`. -/
theorem multiplyBy_one_odd_small :
    let b := newResource.set "x" ⟨2 ^ 53 + 1, by decide, by decide⟩
    (b.get "x").val % 2 = 1 ∧ 2 ^ 53 < (b.get "x").val ∧ (b.get "x").val < 2 ^ 54 ∧
      (orZero (multiplyBy amd64OutOfRange (some b) (.finite 1))).get "x" ≠ b.get "x" ∧
        (orZero (multiply (some b) (clamp 1))).get "x" = b.get "x" := by
  intro b
  have hv : b.get "x" = ⟨2 ^ 53 + 1, by decide, by decide⟩ := get_set_self _ _ _
  have h1 : (b.get "x").val % 2 = 1 := by rw [hv]; decide
  have h2 : 2 ^ 53 < (b.get "x").val := by rw [hv]; decide
  have h3 : (b.get "x").val < 2 ^ 54 := by rw [hv]; decide
  exact ⟨h1, h2, h3, multiplyBy_one_odd _ b "x" h1 h2 h3⟩

/-- **Where `MultiplyBy` leaves the result to the platform.** A type's result
is the platform's conversion of `2^63` exactly when `float64(b[k]) * ratio`
lies in `[2^63 - 512, 2^63 + 1024]`, and otherwise the truncated and clamped
product. -/
theorem multiplyBy_finite_window (o : Float64 → Quantity) (b : Resource) (r : ℚ) (k : String) :
    (orZero (multiplyBy o (some b) (.finite r))).get k =
      if b.get k = 0 ∨ r = 0 then 0
      else if 2 ^ 63 - 512 ≤ roundQ (b.get k).val * r ∧ roundQ (b.get k).val * r ≤ 2 ^ 63 + 1024 then
        o (.finite (2 ^ 63))
      else clamp (truncQ (roundQ (roundQ (b.get k).val * r))) := by
  rw [get_multiplyBy, mulValRatio_finite]
  simp only [roundQ_eq_two_pow_63_iff]

/-- `{x: MaxInt64}` multiplied by `1.0` on amd64 gives `MinInt64`. -/
theorem multiplyBy_one_maxInt64_amd64 :
    (orZero (multiplyBy amd64OutOfRange (some (newResource.set "x" maxQuantity)) (.finite 1))).get "x" =
      minQuantity := by
  have hv : roundQ ((newResource.set "x" maxQuantity).get "x").val = 2 ^ 63 := by
    rw [get_set_self]
    exact roundQ_near_two_pow_63 (by norm_num [maxQuantity]) (by norm_num [maxQuantity])
  rw [multiplyBy_finite_window, if_neg (by rw [get_set_self]; decide), hv, mul_one, if_pos ⟨by norm_num, by norm_num⟩]
  rfl

/-- **`MultiplyTo` is `MultiplyBy` in place.** The two agree at every type;
their maps are the same except for a zero ratio, where `MultiplyBy` returns an
empty resource and `MultiplyTo` keeps every type at `0`. -/
theorem multiplyTo_multiplyBy (o : Float64 → Quantity) (r : Resource) (ratio : Float64) :
    (∀ k, (orZero (multiplyTo o (some r) ratio)).get k = (orZero (multiplyBy o (some r) ratio)).get k) ∧
    (deepEquals (multiplyTo o (some r) ratio) (multiplyBy o (some r) ratio) = true ↔
      ratio.isZero = false ∨ isEmpty (some r) = true) := by
  have hget : ∀ k, (orZero (multiplyTo o (some r) ratio)).get k = (orZero (multiplyBy o (some r) ratio)).get k :=
    fun k => by rw [get_multiplyTo, get_multiplyBy]
  refine ⟨hget, ?_⟩
  have hTo : multiplyTo o (some r) ratio = some (r.applyEach (fun _ _ v => mulValRatio o v ratio) r) := rfl
  have hmem : ∀ k, k ∈ (r.applyEach (fun _ _ v => mulValRatio o v ratio) r).resources ↔ k ∈ r.resources :=
    fun k => by rw [mem_applyEach, or_self]
  by_cases hz : ratio.isZero = true
  · have hBy : multiplyBy o (some r) ratio = some newResource := if_pos hz
    rw [hTo, hBy, deepEquals_iff', isEmpty_some_iff, hz]
    refine ⟨fun ⟨hm, _⟩ => .inr (List.eq_nil_iff_forall_not_mem.mpr fun e he =>
      AList.not_mem_empty e.1 ((hm e.1).mp ((hmem e.1).mpr (AList.mem_keys.mp (List.mem_keys_of_mem he))))),
      fun h => ⟨fun k => iff_of_false (fun hk => ?_) (AList.not_mem_empty k), fun k => ?_⟩⟩
    · rcases h with h | h
      · exact absurd h (by decide)
      · exact not_mem_of_entries_nil h k ((hmem k).mp hk)
    · simpa [hTo, hBy] using hget k
  · have hBy : multiplyBy o (some r) ratio =
        some (newResource.applyEach (fun _ _ v => mulValRatio o v ratio) r) := if_neg hz
    rw [hTo, hBy, deepEquals_iff']
    refine iff_of_true ⟨fun k => ?_, fun k => by simpa [hTo, hBy] using hget k⟩ (.inl (by simpa using hz))
    rw [hmem, mem_applyEach]
    simp [newResource, AList.not_mem_empty]

/-! ### `CalculateAbsUsedCapacity` -/

/-- `math.MaxInt32`. -/
def maxInt32 : ℤ := 2147483647

/-- The percentage `CalculateAbsUsedCapacity` records for one type: `0` for a
usage of at most `0`, `100` for a capacity of at most `0`, otherwise
`float64(used) / float64(capacity) * 100`, capped at `math.MaxInt32` and
converted to `int64`. -/
def absUsedValue (outOfRange : Float64 → Quantity) (capVal usedVal : Quantity) : Quantity :=
  if usedVal ≤ 0 then 0
  else if capVal ≤ 0 then ⟨100, by decide, by decide⟩
  else
    let div := ((ofInt usedVal.val).div (ofInt capVal.val)).mul (ofInt 100)
    if (ofInt maxInt32).lt div then ⟨maxInt32, by decide, by decide⟩ else toInt64 outOfRange div

/-- One iteration of the loop over the capacity: a type the usage does not
define is skipped (and named in a log message). -/
def absUsedStep (outOfRange : Float64 → Quantity) (used absResource : Resource)
    (e : Σ _ : String, Quantity) : Resource :=
  match used.resources.lookup e.1 with
  | none => absResource
  | some usedVal => absResource.set e.1 (absUsedValue outOfRange e.2 usedVal)

/-- `CalculateAbsUsedCapacity`: an empty resource for a `nil` capacity or
usage, otherwise the percentage of every type of the capacity the usage
defines. -/
def calculateAbsUsedCapacity (outOfRange : Float64 → Quantity) (capacity used : Option Resource) :
    Option Resource :=
  match capacity, used with
  | some capacity, some used => some (capacity.resources.entries.foldl (absUsedStep outOfRange used) newResource)
  | _, _ => some newResource

/-- The `float64` percentage of a positive usage against a positive capacity:
the usage and the capacity rounded, their quotient rounded, and that times
`100` rounded. -/
def absUsedPercent (capVal usedVal : Quantity) : ℚ :=
  roundQ (roundQ (roundQ usedVal.val / roundQ capVal.val) * 100)

theorem absUsedPercent_nonneg (c u : Quantity) (hc : 0 < c) (hu : 0 < u) : 0 ≤ absUsedPercent c u :=
  roundQ_nonneg (mul_nonneg (roundQ_nonneg (div_nonneg (zero_le_one.trans (one_le_roundQ hu))
    (zero_le_one.trans (one_le_roundQ hc)))) (by norm_num))

/-- **One type of `CalculateAbsUsedCapacity`**: for a positive usage and
capacity, the `float64` percentage truncated and capped at `math.MaxInt32`;
the conversion never leaves `int64`. -/
theorem absUsedValue_of_pos (o : Float64 → Quantity) {c u : Quantity} (hc : 0 < c) (hu : 0 < u) :
    (absUsedValue o c u).val = min maxInt32 (truncQ (absUsedPercent c u)) := by
  have hc1 := one_le_roundQ hc
  have hu1 := one_le_roundQ hu
  have hu63 : roundQ u.val ≤ 2 ^ 63 := (le_abs_self _).trans (abs_roundQ_le_pow (abs_val_le u))
  have hq0 : 0 ≤ roundQ u.val / roundQ c.val := div_nonneg (zero_le_one.trans hu1) (zero_le_one.trans hc1)
  have hq1 : roundQ u.val / roundQ c.val ≤ 2 ^ 63 := (div_le_self (zero_le_one.trans hu1) hc1).trans hu63
  have hq : |roundQ u.val / roundQ c.val| ≤ 2 ^ (1023 : ℤ) := by
    rw [abs_of_nonneg hq0]; exact hq1.trans (by norm_num)
  have hr63 : roundQ (roundQ u.val / roundQ c.val) ≤ 2 ^ 63 :=
    (le_abs_self _).trans (abs_roundQ_le_pow (by rwa [abs_of_nonneg hq0]))
  have hp : |roundQ (roundQ u.val / roundQ c.val) * 100| ≤ 2 ^ (1023 : ℤ) := by
    rw [abs_of_nonneg (mul_nonneg (roundQ_nonneg hq0) (by norm_num))]
    calc roundQ (roundQ u.val / roundQ c.val) * 100 ≤ 2 ^ 63 * 100 := by linarith only [hr63]
      _ ≤ 2 ^ (1023 : ℤ) := by norm_num
  have h100 : ofInt 100 = .finite 100 := by
    rw [ofInt, ofRat_of_abs_le (by norm_num), show ((100 : ℤ) : ℚ) = ((100 : ℤ) : ℚ) from rfl,
      roundQ_intCast (by norm_num)]; norm_num
  have h32 : ofInt maxInt32 = .finite maxInt32 := by
    rw [ofInt, ofRat_of_abs_le (by norm_num [maxInt32]), roundQ_intCast (by norm_num [maxInt32])]
  have hdiv : ((ofInt u.val).div (ofInt c.val)).mul (ofInt 100) = .finite (absUsedPercent c u) := by
    rw [ofInt_quantity, ofInt_quantity, h100, div_finite, if_neg (zero_lt_one.trans_le hc1).ne', ofRat_of_abs_le hq,
      mul_finite, ofRat_of_abs_le hp]
    rfl
  unfold absUsedValue
  simp only [if_neg (not_le.mpr hu), if_neg (not_le.mpr hc), hdiv, h32, lt_finite, decide_eq_true_eq]
  have hp0 := absUsedPercent_nonneg c u hc hu
  split_ifs with h
  · have := truncQ_mono h.le
    rw [truncQ_intCast] at this
    exact (min_eq_left this).symm
  · have hle : truncQ (absUsedPercent c u) ≤ maxInt32 := by
      have := truncQ_mono (not_lt.mp h); rwa [truncQ_intCast] at this
    have hge : 0 ≤ truncQ (absUsedPercent c u) := by
      have := truncQ_mono hp0; rwa [show (0 : ℚ) = ((0 : ℤ) : ℚ) by simp, truncQ_intCast] at this
    have hlt : absUsedPercent c u < 2 ^ 63 :=
      lt_of_le_of_lt (not_lt.mp h) (by norm_num [maxInt32])
    rw [toInt64_of_mem o (by linarith only [hp0]) hlt, clamp_of_mem (by simp only [minInt64]; omega)
      (by simp only [maxInt32] at hle; simp only [maxInt64]; omega), min_eq_right hle]

theorem absUsedValue_nonpos_usage (o : Float64 → Quantity) (c : Quantity) {u : Quantity} (hu : u ≤ 0) :
    absUsedValue o c u = 0 := if_pos hu

theorem absUsedValue_nonpos_capacity (o : Float64 → Quantity) {c u : Quantity} (hc : c ≤ 0) (hu : 0 < u) :
    (absUsedValue o c u).val = 100 := by
  rw [absUsedValue, if_neg (not_le.mpr hu), if_pos hc]

theorem absUsedStep_eq (o : Float64 → Quantity) (used out : Resource) (e : Σ _ : String, Quantity) :
    absUsedStep o used out e =
      if e.1 ∈ used.resources then out.set e.1 (absUsedValue o e.2 (used.get e.1)) else out := by
  unfold absUsedStep
  split
  · next h => rw [if_neg fun hm => by rw [lookup_of_mem hm] at h; cases h]
  · next v h => rw [if_pos (AList.lookup_isSome.mp (by rw [h]; rfl)), get_of_lookup h]

theorem lookup_foldl_absUsedStep (o : Float64 → Quantity) (used : Resource) :
    ∀ (es : List (Σ _ : String, Quantity)) (out : Resource), es.NodupKeys → ∀ k,
      (es.foldl (absUsedStep o used) out).resources.lookup k =
        match es.dlookup k with
        | some c => if k ∈ used.resources then some (absUsedValue o c (used.get k)) else out.resources.lookup k
        | none => out.resources.lookup k
  | [], _, _, _ => rfl
  | ⟨k', c⟩ :: es, out, hnd, k => by
    obtain ⟨hk', hnd⟩ := List.nodupKeys_cons.mp hnd
    rw [List.foldl_cons, lookup_foldl_absUsedStep o used es _ hnd k, absUsedStep_eq]
    by_cases hk : k = k'
    · subst hk
      rw [List.dlookup_eq_none.mpr hk', List.dlookup_cons_eq]
      split_ifs <;> simp [Resource.set, AList.lookup_insert]
    · rw [List.dlookup_cons_ne es ⟨k', c⟩ hk]
      split <;> split_ifs <;> simp [Resource.set, AList.lookup_insert_ne hk]

theorem lookup_calculateAbsUsedCapacity (o : Float64 → Quantity) (capacity used : Resource) (k : String) :
    (orZero (calculateAbsUsedCapacity o (some capacity) (some used))).resources.lookup k =
      if k ∈ capacity.resources ∧ k ∈ used.resources then some (absUsedValue o (capacity.get k) (used.get k))
      else none := by
  rw [calculateAbsUsedCapacity, orZero_some,
    lookup_foldl_absUsedStep o used _ newResource capacity.resources.nodupKeys k]
  by_cases hc : k ∈ capacity.resources
  · rw [← AList.lookup, lookup_of_mem hc]
    dsimp only
    by_cases hu : k ∈ used.resources
    · rw [if_pos hu, if_pos ⟨hc, hu⟩]
    · rw [if_neg hu, if_neg fun h => hu h.2]; rfl
  · rw [← AList.lookup, AList.lookup_eq_none.mpr hc, if_neg fun h => hc h.1]; rfl

theorem absUsedValue_mem (o : Float64 → Quantity) (c u : Quantity) :
    0 ≤ (absUsedValue o c u).val ∧ (absUsedValue o c u).val ≤ maxInt32 := by
  rcases le_or_lt u 0 with hu | hu
  · rw [absUsedValue_nonpos_usage o c hu]; decide
  rcases le_or_lt c 0 with hc | hc
  · rw [absUsedValue_nonpos_capacity o hc hu]; decide
  have := truncQ_mono (absUsedPercent_nonneg c u hc hu)
  rw [show (0 : ℚ) = ((0 : ℤ) : ℚ) by simp, truncQ_intCast] at this
  rw [absUsedValue_of_pos o hc hu]
  exact ⟨le_min (by decide) this, min_le_left _ _⟩

theorem absUsedValue_platform (o o' : Float64 → Quantity) (c u : Quantity) :
    absUsedValue o c u = absUsedValue o' c u := by
  rcases le_or_lt u 0 with hu | hu
  · rw [absUsedValue_nonpos_usage o c hu, absUsedValue_nonpos_usage o' c hu]
  rcases le_or_lt c 0 with hc | hc
  · exact Quantity.ext ((absUsedValue_nonpos_capacity o hc hu).trans (absUsedValue_nonpos_capacity o' hc hu).symm)
  · exact Quantity.ext ((absUsedValue_of_pos o hc hu).trans (absUsedValue_of_pos o' hc hu).symm)

theorem get_calculateAbsUsedCapacity (o : Float64 → Quantity) (capacity used : Option Resource) (k : String) :
    (orZero (calculateAbsUsedCapacity o capacity used)).get k =
      if k ∈ (orZero capacity).resources then absUsedValue o ((orZero capacity).get k) ((orZero used).get k)
      else 0 := by
  match capacity, used with
  | none, _ => rfl
  | some c, none => split_ifs <;> rfl
  | some c, some u =>
    simp only [Resource.get, lookup_calculateAbsUsedCapacity, orZero_some]
    by_cases hc : k ∈ c.resources <;> by_cases hu : k ∈ u.resources
    · simp [hc, hu, Resource.get]
    · simp only [hc, hu, and_false, if_false, if_true, AList.lookup_eq_none.mpr hu, Option.getD_none]
      exact (absUsedValue_nonpos_usage o _ le_rfl).symm
    · simp [hc]
    · simp [hc]

theorem absUsedPercent_mono {c c' u u' : Quantity} (hc : 0 < c) (hcc : c ≤ c') (hu : 0 < u) (huu : u ≤ u') :
    absUsedPercent c' u ≤ absUsedPercent c u' := by
  have hc1 := one_le_roundQ hc
  have hu1 := one_le_roundQ hu
  have hcr : roundQ c.val ≤ roundQ c'.val := roundQ_mono (by exact_mod_cast hc.le) (by exact_mod_cast hcc)
  have hur : roundQ u.val ≤ roundQ u'.val := roundQ_mono (by exact_mod_cast hu.le) (by exact_mod_cast huu)
  have hu0 : 0 ≤ roundQ u.val := zero_le_one.trans hu1
  have hc0 : 0 < roundQ c.val := zero_lt_one.trans_le hc1
  have hq : roundQ u.val / roundQ c'.val ≤ roundQ u'.val / roundQ c.val :=
    div_le_div₀ (hu0.trans hur) hur hc0 hcr
  have hq0 : 0 ≤ roundQ u.val / roundQ c'.val := div_nonneg hu0 (hc0.le.trans hcr)
  exact roundQ_mono (mul_nonneg (roundQ_nonneg hq0) (by norm_num))
    (mul_le_mul_of_nonneg_right (roundQ_mono hq0 hq) (by norm_num))

theorem absUsedValue_mono (o : Float64 → Quantity) {c c' u u' : Quantity} (hc : 0 < c ∨ c = c')
    (hcc : c ≤ c') (huu : u ≤ u') : absUsedValue o c' u ≤ absUsedValue o c u' := by
  rcases le_or_lt u 0 with hu | hu
  · rw [absUsedValue_nonpos_usage o c' hu]; exact (absUsedValue_mem o c u').1
  have hu' : 0 < u' := hu.trans_le huu
  rcases le_or_lt c 0 with hc0 | hc0
  · obtain rfl : c = c' := hc.resolve_left (not_lt.mpr hc0)
    exact (Quantity.le_def.mpr (by rw [absUsedValue_nonpos_capacity o hc0 hu, absUsedValue_nonpos_capacity o hc0 hu']))
  rw [Quantity.le_def, absUsedValue_of_pos o (hc0.trans_le hcc) hu, absUsedValue_of_pos o hc0 hu']
  exact min_le_min le_rfl (truncQ_mono (absUsedPercent_mono hc0 hcc hu huu))

/-- **`CalculateAbsUsedCapacity` reports a percentage between `0` and
`math.MaxInt32` for exactly the types of the capacity that the usage
defines**: `0` where the usage is at most `0`, and `100` where a positive
usage meets a capacity of at most `0`. No conversion in it leaves `int64`, so
it returns the same resource on every platform. -/
theorem calculateAbsUsedCapacity_bounds (o o' : Float64 → Quantity) (capacity used : Option Resource) :
    calculateAbsUsedCapacity o capacity used = calculateAbsUsedCapacity o' capacity used ∧
    ∀ k, (k ∈ (orZero (calculateAbsUsedCapacity o capacity used)).resources ↔
        k ∈ (orZero capacity).resources ∧ k ∈ (orZero used).resources) ∧
      0 ≤ ((orZero (calculateAbsUsedCapacity o capacity used)).get k).val ∧
      ((orZero (calculateAbsUsedCapacity o capacity used)).get k).val ≤ maxInt32 ∧
      ((orZero used).get k ≤ 0 → (orZero (calculateAbsUsedCapacity o capacity used)).get k = 0) ∧
      (k ∈ (orZero capacity).resources → 0 < (orZero used).get k → (orZero capacity).get k ≤ 0 →
        ((orZero (calculateAbsUsedCapacity o capacity used)).get k).val = 100) := by
  have hstep : absUsedStep o = absUsedStep o' := by
    funext used out e; rw [absUsedStep_eq, absUsedStep_eq, absUsedValue_platform o o']
  refine ⟨by unfold calculateAbsUsedCapacity; rw [hstep], fun k => ⟨?_, ?_⟩⟩
  · match capacity, used with
    | none, _ => simp [calculateAbsUsedCapacity, newResource, AList.not_mem_empty]
    | some c, none => simp [calculateAbsUsedCapacity, newResource, AList.not_mem_empty]
    | some c, some u =>
      rw [← AList.lookup_isSome, lookup_calculateAbsUsedCapacity]
      split_ifs with h <;> simp [h]
  · rw [get_calculateAbsUsedCapacity]
    split_ifs with hk
    · obtain ⟨h0, h32⟩ := absUsedValue_mem o ((orZero capacity).get k) ((orZero used).get k)
      exact ⟨h0, h32, absUsedValue_nonpos_usage o _, fun _ hu hc => absUsedValue_nonpos_capacity o hc hu⟩
    · exact ⟨le_rfl, by decide, fun _ => rfl, fun h => absurd h hk⟩

/-- **More usage never lowers a reported percentage, and a larger positive
capacity never raises one**, on every type. -/
theorem calculateAbsUsedCapacity_mono (o : Float64 → Quantity) :
    (∀ capacity used used' : Option Resource, (∀ k, (orZero used).get k ≤ (orZero used').get k) →
      ∀ k, (orZero (calculateAbsUsedCapacity o capacity used)).get k ≤
        (orZero (calculateAbsUsedCapacity o capacity used')).get k) ∧
    (∀ capacity capacity' used : Option Resource,
      (∀ k, k ∈ (orZero capacity).resources ↔ k ∈ (orZero capacity').resources) →
      (∀ k ∈ (orZero capacity).resources, 0 < (orZero capacity).get k ∧ (orZero capacity).get k ≤ (orZero capacity').get k) →
      ∀ k, (orZero (calculateAbsUsedCapacity o capacity' used)).get k ≤
        (orZero (calculateAbsUsedCapacity o capacity used)).get k) := by
  refine ⟨fun capacity used used' h k => ?_, fun capacity capacity' used hmem h k => ?_⟩
  · rw [get_calculateAbsUsedCapacity, get_calculateAbsUsedCapacity]
    split_ifs
    · exact absUsedValue_mono o (.inr rfl) le_rfl (h k)
    · exact le_rfl
  · rw [get_calculateAbsUsedCapacity, get_calculateAbsUsedCapacity]
    by_cases hk : k ∈ (orZero capacity).resources
    · rw [if_pos ((hmem k).mp hk), if_pos hk]
      exact absUsedValue_mono o (.inl (h k hk).1) (h k hk).2 le_rfl
    · rw [if_neg (mt (hmem k).mpr hk), if_neg hk]

/-! ### `CalculateAbsUsedCapacity` against the exact percentage -/

/-- The exact percentage of a usage against a capacity, which
`CalculateAbsUsedCapacity` computes in `float64`. -/
def exactUsedPercent (capVal usedVal : Quantity) : ℚ := 100 * usedVal.val / capVal.val

/-- The `float64` percentage is within a relative `2^-50` of the exact one:
the quotient within `(1 ± 2^-53)^2 / (1 ∓ 2^-53)` of `used / capacity`, and
one more rounding for the product with `100`. -/
theorem absUsedPercent_mem {c u : Quantity} (hc : 0 < c) (hu : 0 < u) :
    exactUsedPercent c u * (1 - 1 / 2 ^ 50) ≤ absUsedPercent c u ∧
      absUsedPercent c u ≤ exactUsedPercent c u * (1 + 1 / 2 ^ 50) := by
  obtain ⟨hlo, hhi⟩ := roundQ_div_mem hu hc
  have hq := inv_two_pow_le_roundQ_div hu hc
  obtain ⟨hplo, hphi⟩ := roundQ_mem_of_normal
    (y := roundQ (roundQ u.val / roundQ c.val) * 100)
    (le_trans (show (2 : ℚ) ^ (-1022 : ℤ) ≤ 100 / 2 ^ 63 by norm_num) (by linarith only [hq]))
  have hE : 0 ≤ (u.val / c.val : ℚ) := div_nonneg (zero_le_one.trans (one_le_val hu)) (zero_le_one.trans (one_le_val hc))
  have hexact : exactUsedPercent c u = u.val / c.val * 100 := by unfold exactUsedPercent; ring
  rw [absUsedPercent, hexact]
  constructor
  · calc (u.val / c.val : ℚ) * 100 * (1 - 1 / 2 ^ 50)
          ≤ u.val / c.val * ((1 - 1 / 2 ^ 53) ^ 2 / (1 + 1 / 2 ^ 53)) * (100 * (1 - 1 / 2 ^ 53)) := by
          rw [mul_assoc, mul_assoc]; exact mul_le_mul_of_nonneg_left (by norm_num) hE
      _ ≤ roundQ (roundQ u.val / roundQ c.val) * (100 * (1 - 1 / 2 ^ 53)) :=
          mul_le_mul_of_nonneg_right hlo (by norm_num)
      _ = roundQ (roundQ u.val / roundQ c.val) * 100 * (1 - 1 / 2 ^ 53) := by ring
      _ ≤ _ := hplo
  · calc roundQ (roundQ (roundQ u.val / roundQ c.val) * 100)
          ≤ roundQ (roundQ u.val / roundQ c.val) * 100 * (1 + 1 / 2 ^ 53) := hphi
      _ = roundQ (roundQ u.val / roundQ c.val) * (100 * (1 + 1 / 2 ^ 53)) := by ring
      _ ≤ u.val / c.val * ((1 + 1 / 2 ^ 53) ^ 2 / (1 - 1 / 2 ^ 53)) * (100 * (1 + 1 / 2 ^ 53)) :=
          mul_le_mul_of_nonneg_right hhi (by norm_num)
      _ ≤ u.val / c.val * 100 * (1 + 1 / 2 ^ 50) := by
          rw [mul_assoc, mul_assoc]; exact mul_le_mul_of_nonneg_left (by norm_num) hE

/-- **One type of `CalculateAbsUsedCapacity` against the exact percentage.**
For a positive usage and capacity the recorded value is the exact percentage
`100 * used / capacity` rounded down and capped at `math.MaxInt32`, up to one
either way; and exactly that when no integer lies within a relative `2^-50`
of the exact percentage. -/
theorem absUsedValue_near_exact (o : Float64 → Quantity) {c u : Quantity} (hc : 0 < c) (hu : 0 < u) :
    |(absUsedValue o c u).val - min maxInt32 ⌊exactUsedPercent c u⌋| ≤ 1 ∧
    (⌊exactUsedPercent c u * (1 - 1 / 2 ^ 50)⌋ = ⌊exactUsedPercent c u * (1 + 1 / 2 ^ 50)⌋ →
      (absUsedValue o c u).val = min maxInt32 ⌊exactUsedPercent c u⌋) := by
  have hE : 0 < exactUsedPercent c u := by
    have := one_le_val hc; have := one_le_val hu
    unfold exactUsedPercent; positivity
  obtain ⟨hlo, hhi⟩ := absUsedPercent_mem hc hu
  rw [absUsedValue_of_pos o hc hu, truncQ, if_pos (absUsedPercent_nonneg c u hc hu)]
  refine ⟨?_, fun heq => ?_⟩
  · rcases le_or_lt (exactUsedPercent c u) (2 ^ 49) with hsmall | hlarge
    · have hη := mul_le_mul_of_nonneg_right hsmall (show (0 : ℚ) ≤ 1 / 2 ^ 50 by norm_num)
      have h1 : ⌊absUsedPercent c u⌋ ≤ ⌊exactUsedPercent c u⌋ + 1 := by
        rw [← Int.floor_add_one]; exact Int.floor_le_floor (by linarith only [hhi, hη])
      have h2 : ⌊exactUsedPercent c u⌋ ≤ ⌊absUsedPercent c u⌋ + 1 := by
        rw [← Int.floor_add_one]; exact Int.floor_le_floor (by linarith only [hlo, hη])
      rw [abs_le]; constructor <;> omega
    · have h1 : maxInt32 ≤ ⌊exactUsedPercent c u⌋ := Int.le_floor.mpr (by norm_num [maxInt32]; linarith only [hlarge])
      have h2 : maxInt32 ≤ ⌊absUsedPercent c u⌋ :=
        Int.le_floor.mpr (by norm_num [maxInt32]; linarith only [hlarge, hlo])
      rw [min_eq_left h1, min_eq_left h2, sub_self, abs_zero]; exact zero_le_one
  · have h3 : ⌊exactUsedPercent c u * (1 - 1 / 2 ^ 50)⌋ ≤ ⌊exactUsedPercent c u⌋ :=
      Int.floor_le_floor (mul_le_of_le_one_right hE.le (by norm_num))
    have h4 : ⌊exactUsedPercent c u⌋ ≤ ⌊exactUsedPercent c u * (1 + 1 / 2 ^ 50)⌋ :=
      Int.floor_le_floor (le_mul_of_one_le_right hE.le (by norm_num))
    rw [show ⌊absUsedPercent c u⌋ = ⌊exactUsedPercent c u⌋ by
      have := Int.floor_le_floor hlo; have := Int.floor_le_floor hhi; omega]

/-- **`CalculateAbsUsedCapacity` against the exact percentage.** At every
type where both the capacity and the usage are positive, the recorded value is
`100 * used / capacity` rounded down and capped at `math.MaxInt32`, up to one
either way, and exactly that whenever no integer lies within a relative
`2^-50` of the exact percentage. -/
theorem calculateAbsUsedCapacity_near_exact (o : Float64 → Quantity) (capacity used : Option Resource)
    (k : String) (hc : 0 < (orZero capacity).get k) (hu : 0 < (orZero used).get k) :
    |((orZero (calculateAbsUsedCapacity o capacity used)).get k).val -
        min maxInt32 ⌊exactUsedPercent ((orZero capacity).get k) ((orZero used).get k)⌋| ≤ 1 ∧
    (⌊exactUsedPercent ((orZero capacity).get k) ((orZero used).get k) * (1 - 1 / 2 ^ 50)⌋ =
        ⌊exactUsedPercent ((orZero capacity).get k) ((orZero used).get k) * (1 + 1 / 2 ^ 50)⌋ →
      ((orZero (calculateAbsUsedCapacity o capacity used)).get k).val =
        min maxInt32 ⌊exactUsedPercent ((orZero capacity).get k) ((orZero used).get k)⌋) := by
  have hk : k ∈ (orZero capacity).resources := by
    by_contra h; rw [get_of_not_mem h] at hc; exact lt_irrefl _ hc
  rw [get_calculateAbsUsedCapacity, if_pos hk]
  exact absUsedValue_near_exact o hc hu

/-- A usage of `29` against a capacity of `100`: the exact percentage is `29`,
and the value recorded is `28`. -/
theorem calculateAbsUsedCapacity_near_exact_29 :
    let capacity := newResource.set "x" ⟨100, by decide, by decide⟩
    let used := newResource.set "x" ⟨29, by decide, by decide⟩
    0 < (orZero (some capacity)).get "x" ∧ 0 < (orZero (some used)).get "x" ∧
    (|((orZero (calculateAbsUsedCapacity amd64OutOfRange (some capacity) (some used))).get "x").val -
        min maxInt32 ⌊exactUsedPercent ((orZero (some capacity)).get "x") ((orZero (some used)).get "x")⌋| ≤ 1 ∧
      (⌊exactUsedPercent ((orZero (some capacity)).get "x") ((orZero (some used)).get "x") * (1 - 1 / 2 ^ 50)⌋ =
          ⌊exactUsedPercent ((orZero (some capacity)).get "x") ((orZero (some used)).get "x") * (1 + 1 / 2 ^ 50)⌋ →
        ((orZero (calculateAbsUsedCapacity amd64OutOfRange (some capacity) (some used))).get "x").val =
          min maxInt32 ⌊exactUsedPercent ((orZero (some capacity)).get "x") ((orZero (some used)).get "x")⌋)) ∧
    exactUsedPercent ((orZero (some capacity)).get "x") ((orZero (some used)).get "x") = 29 ∧
    ((orZero (calculateAbsUsedCapacity amd64OutOfRange (some capacity) (some used))).get "x").val = 28 := by
  intro capacity used
  have hc : (orZero (some capacity)).get "x" = ⟨100, by decide, by decide⟩ := get_set_self _ _ _
  have hu : (orZero (some used)).get "x" = ⟨29, by decide, by decide⟩ := get_set_self _ _ _
  have hq : roundQ (29 / 100) = 5224175567749775 * 2 ^ (-54 : ℤ) := by
    have hf : ⌊(29 / 100 : ℚ) / 2 ^ (-54 : ℤ)⌋ = 5224175567749775 := by rw [Int.floor_eq_iff]; norm_num
    refine roundQ_of_fract_lt_half (by rw [ulpExp_of_mem (E := -2)] <;> norm_num [abs_of_pos]) hf ?_
    rw [Int.fract, hf]; norm_num
  have hp : roundQ (5224175567749775 * 2 ^ (-54 : ℤ) * 100) = 8162774324609023 * 2 ^ (-48 : ℤ) := by
    have hf : ⌊(5224175567749775 * 2 ^ (-54 : ℤ) * 100 : ℚ) / 2 ^ (-48 : ℤ)⌋ = 8162774324609023 := by
      rw [Int.floor_eq_iff]; norm_num
    refine roundQ_of_fract_lt_half (by rw [ulpExp_of_mem (E := 4)] <;> norm_num [abs_of_pos]) hf ?_
    rw [Int.fract, hf]; norm_num
  have hP : absUsedPercent ⟨100, by decide, by decide⟩ ⟨29, by decide, by decide⟩ = 8162774324609023 * 2 ^ (-48 : ℤ) := by
    have h29 : roundQ ((29 : ℤ) : ℚ) = 29 := by rw [roundQ_intCast (by norm_num)]; norm_num
    have h100 : roundQ ((100 : ℤ) : ℚ) = 100 := by rw [roundQ_intCast (by norm_num)]; norm_num
    simp only [absUsedPercent, h29, h100, hq, hp]
  have hpos : (0 : Quantity) < ⟨100, by decide, by decide⟩ ∧ (0 : Quantity) < ⟨29, by decide, by decide⟩ := by decide
  refine ⟨hc ▸ hpos.1, hu ▸ hpos.2, calculateAbsUsedCapacity_near_exact _ _ _ _ (hc ▸ hpos.1) (hu ▸ hpos.2), ?_, ?_⟩
  · rw [hc, hu, exactUsedPercent]; norm_num
  · rw [get_calculateAbsUsedCapacity, if_pos (by rw [orZero_some]; exact (AList.mem_insert _).mpr (.inl rfl)), hc, hu,
      absUsedValue_of_pos _ hpos.1 hpos.2, hP, truncQ, if_pos (by positivity)]
    rw [show ⌊(8162774324609023 * 2 ^ (-48 : ℤ) : ℚ)⌋ = 28 by rw [Int.floor_eq_iff]; norm_num]
    rfl

end Resources
