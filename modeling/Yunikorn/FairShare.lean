/-
# Fair share: the dominant share against guarantees

`getFairShare` is the dominant-resource share of a queue: the largest share
of any allocated type, each taken against the guaranteed quantity of the type
or, when the guarantee has none, against the fair maximum, as the `float64`
quotient `float64(allocated) / float64(denominator)`. A type with negative
usage is skipped, and the result is never below `0`.
`CompUsageRatioSeparately` compares two queues by it.

The loop is stated once for any quotient (`getFairShareWith`); the code is its
instance at `quotFloat`, and `exactFairShare` at the exact quotient. The loop
is a running maximum, so the result is at most `x` exactly when `0 ≤ x` and
every counted share is (`getFairShareWith_le_iff`). Whether a type has a
denominator does not depend on the usage, and rounding is monotone, so the
fair share grows with the allocation (`getFairShare_mono`). Two quotients
within a factor of each other give fair shares within that factor
(`getFairShareWith_mem`): the code's is within three roundings of the exact
one (`getFairShare_near_exact`), and the two comparisons agree on queues whose
exact shares are further apart (`compUsageRatioSeparately_eq_of_separated`).

Key definitions: `getShareFairForDenominatorWith`, `getFairShareWith`, `getFairShare`,
`compUsageRatioSeparately`, `exactFairShare`.
Key theorems: `getFairShareWith_le_iff`, `getFairShareWith_mono`, `getFairShareWith_mem`,
`getFairShare_mono`, `getFairShare_near_exact`, `compUsageRatioSeparately_eq_of_separated`.
-/
import Yunikorn.Ranking
import Mathlib.Tactic.Linarith

namespace Resources

open Resource

/-! ### The loop, for any quotient

What the loop needs of a quotient at a positive denominator is that no usage
gives `0`, and for monotonicity that it grows with the usage. -/

section
variable (quot : Quantity → Quantity → ℚ)

/-- `getShareFairForDenominator` with the quotient as a parameter: the share of
`allocated` against the denominator for `resourceType`, and whether there is
one; an explicit zero or negative denominator gives `1` with usage. -/
def getShareFairForDenominatorWith (resourceType : String) (allocated : Quantity)
    (denominatorResources : Option Resource) : ℚ × Bool :=
  match denominatorResources with
  | none => (0, false)
  | some d =>
    let denominator := d.get resourceType
    if resourceType ∈ d.resources ∧ denominator ≤ 0 then
      if allocated ≤ 0 then (0, true) else (1, true)
    else if denominator > 0 then (quot allocated denominator, true)
    else (0, false)

/-- The share of one allocated entry: against the guarantee, or against the
fair maximum when the guarantee has no denominator for the type. -/
def fairShareOfWith (guaranteed fair : Option Resource) (k : String) (v : Quantity) : ℚ × Bool :=
  let next := getShareFairForDenominatorWith quot k v guaranteed
  if !next.2 then getShareFairForDenominatorWith quot k v fair else next

/-- One iteration of the loop of `getFairShare`: a negative usage is skipped,
a share found above the maximum so far replaces it. -/
def fairShareStepWith (allocated : Resource) (guaranteed fair : Option Resource) (maxShare : ℚ)
    (e : Σ _ : String, Quantity) : ℚ :=
  if allocated.get e.1 < 0 then maxShare
  else
    let next := fairShareOfWith quot guaranteed fair e.1 e.2
    if next.2 ∧ next.1 > maxShare then next.1 else maxShare

/-- The loop of `getFairShare`: the largest share of the allocated types, `0`
for a nil or empty allocation. -/
def getFairShareWith (allocated guaranteed fair : Option Resource) : ℚ :=
  match allocated with
  | none => 0
  | some a =>
    if a.resources.entries.length = 0 then 0
    else a.resources.entries.foldl (fairShareStepWith quot a guaranteed fair) 0

/-- `CompUsageRatioSeparately`: `1` if the left fair share is larger, `-1` if
the right one is larger, `0` if equal. -/
def compUsageRatioSeparatelyWith (leftAllocated leftGuaranteed leftFairMax rightAllocated rightGuaranteed
    rightFairMax : Option Resource) : ℤ :=
  let lshare := getFairShareWith quot leftAllocated leftGuaranteed leftFairMax
  let rshare := getFairShareWith quot rightAllocated rightGuaranteed rightFairMax
  if lshare > rshare then 1 else if lshare < rshare then -1 else 0

/-- The share of type `k` at usage `v` counts: the usage is not negative and a
denominator is found. -/
def CountedWith (g f : Option Resource) (k : String) (v : Quantity) : Prop :=
  0 ≤ v ∧ (fairShareOfWith quot g f k v).2 = true

variable {quot}

/-- Whether a denominator is found depends on the type only. -/
theorem getShareFairForDenominatorWith_found (quot' : Quantity → Quantity → ℚ) (k : String) (v w : Quantity)
    (d : Option Resource) :
    (getShareFairForDenominatorWith quot k v d).2 = (getShareFairForDenominatorWith quot' k w d).2 := by
  cases d with
  | none => rfl
  | some d => dsimp only [getShareFairForDenominatorWith]; split_ifs <;> rfl

theorem getShareFairForDenominatorWith_zero (hq0 : ∀ d, 0 < d → quot 0 d = 0) (k : String)
    (d : Option Resource) : (getShareFairForDenominatorWith quot k 0 d).1 = 0 := by
  cases d with
  | none => rfl
  | some d =>
    dsimp only [getShareFairForDenominatorWith]
    split_ifs with _ h0 hpos
    · rfl
    · exact absurd le_rfl h0
    · exact hq0 _ hpos
    · rfl

theorem getShareFairForDenominatorWith_mono (hmono : ∀ d v w, 0 < d → v ≤ w → quot v d ≤ quot w d)
    (k : String) {v w : Quantity} (d : Option Resource) (h : v ≤ w) :
    (getShareFairForDenominatorWith quot k v d).1 ≤ (getShareFairForDenominatorWith quot k w d).1 := by
  cases d with
  | none => exact le_refl 0
  | some d =>
    dsimp only [getShareFairForDenominatorWith]
    split_ifs with hd hv hw hw hpos
    · exact le_rfl
    · exact zero_le_one
    · exact absurd (h.trans hw) hv
    · exact le_rfl
    · exact hmono _ _ _ hpos h
    · exact le_rfl

theorem fairShareOfWith_found (quot' : Quantity → Quantity → ℚ) (g f : Option Resource) (k : String)
    (v w : Quantity) : (fairShareOfWith quot g f k v).2 = (fairShareOfWith quot' g f k w).2 := by
  simp only [fairShareOfWith, getShareFairForDenominatorWith_found quot' k v w g]
  split_ifs
  · exact getShareFairForDenominatorWith_found quot' k v w f
  · exact getShareFairForDenominatorWith_found quot' k v w g

theorem fairShareOfWith_zero (hq0 : ∀ d, 0 < d → quot 0 d = 0) (g f : Option Resource) (k : String) :
    (fairShareOfWith quot g f k 0).1 = 0 := by
  simp only [fairShareOfWith]; split_ifs <;> exact getShareFairForDenominatorWith_zero hq0 k _

theorem fairShareOfWith_mono (hmono : ∀ d v w, 0 < d → v ≤ w → quot v d ≤ quot w d)
    (g f : Option Resource) (k : String) {v w : Quantity} (h : v ≤ w) :
    (fairShareOfWith quot g f k v).1 ≤ (fairShareOfWith quot g f k w).1 := by
  simp only [fairShareOfWith, getShareFairForDenominatorWith_found quot k v w g]
  split_ifs
  · exact getShareFairForDenominatorWith_mono hmono k f h
  · exact getShareFairForDenominatorWith_mono hmono k g h

theorem getShareFairForDenominatorWith_rel (quot' : Quantity → Quantity → ℚ) (R : ℚ → ℚ → Prop)
    (h0 : R 0 0) (h1 : R 1 1) (k : String) {v : Quantity} (hq : ∀ d, 0 < d → R (quot v d) (quot' v d))
    (d : Option Resource) :
    R (getShareFairForDenominatorWith quot k v d).1 (getShareFairForDenominatorWith quot' k v d).1 := by
  cases d with
  | none => exact h0
  | some d =>
    dsimp only [getShareFairForDenominatorWith]
    split_ifs with _ _ hpos
    exacts [h0, h1, hq _ hpos, h0]

theorem fairShareOfWith_rel (quot' : Quantity → Quantity → ℚ) (R : ℚ → ℚ → Prop) (h0 : R 0 0) (h1 : R 1 1)
    (g f : Option Resource) (k : String) {v : Quantity} (hq : ∀ d, 0 < d → R (quot v d) (quot' v d)) :
    R (fairShareOfWith quot g f k v).1 (fairShareOfWith quot' g f k v).1 := by
  simp only [fairShareOfWith, getShareFairForDenominatorWith_found quot' k v v g]
  split_ifs
  · exact getShareFairForDenominatorWith_rel quot' R h0 h1 k hq f
  · exact getShareFairForDenominatorWith_rel quot' R h0 h1 k hq g

theorem fairShareStepWith_le_iff (a : Resource) (g f : Option Resource) (m x : ℚ)
    (e : Σ _ : String, Quantity) :
    fairShareStepWith quot a g f m e ≤ x ↔
      m ≤ x ∧ (0 ≤ a.get e.1 → (fairShareOfWith quot g f e.1 e.2).2 = true →
        (fairShareOfWith quot g f e.1 e.2).1 ≤ x) := by
  dsimp only [fairShareStepWith]
  split_ifs with hneg hnext
  · exact ⟨fun h => ⟨h, fun hn => absurd hn (not_le.mpr hneg)⟩, fun h => h.1⟩
  · exact ⟨fun h => ⟨(le_of_lt hnext.2).trans h, fun _ _ => h⟩, fun h => h.2 (not_lt.mp hneg) hnext.1⟩
  · refine ⟨fun h => ⟨h, fun _ hf => ?_⟩, fun h => h.1⟩
    exact (not_lt.mp fun hlt => hnext ⟨hf, hlt⟩).trans h

theorem foldl_fairShareStepWith_le_iff (a : Resource) (g f : Option Resource) (x : ℚ) :
    ∀ (es : List (Σ _ : String, Quantity)) (m : ℚ), es.foldl (fairShareStepWith quot a g f) m ≤ x ↔
      m ≤ x ∧ ∀ e ∈ es, 0 ≤ a.get e.1 → (fairShareOfWith quot g f e.1 e.2).2 = true →
        (fairShareOfWith quot g f e.1 e.2).1 ≤ x
  | [], m => by simp
  | e :: es, m => by
    rw [List.foldl_cons, foldl_fairShareStepWith_le_iff a g f x es, fairShareStepWith_le_iff,
      List.forall_mem_cons, and_assoc]

theorem getFairShareWith_some (a : Resource) (g f : Option Resource) :
    getFairShareWith quot (some a) g f = a.resources.entries.foldl (fairShareStepWith quot a g f) 0 := by
  simp only [getFairShareWith]
  split_ifs with h0
  · rw [List.length_eq_zero.mp h0]; rfl
  · rfl

/-- **The fair share as a maximum.** `getFairShareWith` is at most `x` exactly
when `0` is and the share of every counted type is. -/
theorem getFairShareWith_le_iff (hq0 : ∀ d, 0 < d → quot 0 d = 0) (a g f : Option Resource) (x : ℚ) :
    getFairShareWith quot a g f ≤ x ↔
      0 ≤ x ∧ ∀ k, CountedWith quot g f k ((orZero a).get k) →
        (fairShareOfWith quot g f k ((orZero a).get k)).1 ≤ x := by
  -- every type off the map has usage `0`, whose share `0` is at most `x`
  have off : ∀ (r : Resource), 0 ≤ x →
      ((∀ k ∈ r.resources, CountedWith quot g f k (r.get k) → (fairShareOfWith quot g f k (r.get k)).1 ≤ x) ↔
        ∀ k, CountedWith quot g f k (r.get k) → (fairShareOfWith quot g f k (r.get k)).1 ≤ x) :=
    fun r hx => forall_mem_iff (P := fun k v => CountedWith quot g f k v → (fairShareOfWith quot g f k v).1 ≤ x)
      fun k _ => (fairShareOfWith_zero hq0 g f k).symm ▸ hx
  cases a with
  | none =>
    refine ⟨fun h => ⟨h, fun k _ => ?_⟩, fun h => h.1⟩
    simpa [fairShareOfWith_zero hq0] using h
  | some a =>
    rw [getFairShareWith_some, orZero_some, foldl_fairShareStepWith_le_iff,
      forall_entries_iff a fun k v => 0 ≤ a.get k → (fairShareOfWith quot g f k v).2 = true →
        (fairShareOfWith quot g f k v).1 ≤ x]
    exact and_congr_right fun hx => (forall₂_congr fun k _ => by rw [CountedWith, and_imp]).trans
      (off a hx)

/-- The fair share grows with the allocation for every quotient that is `0`
at no usage and grows with the usage, and so does the comparison against any
other queue. -/
theorem getFairShareWith_mono (hq0 : ∀ d, 0 < d → quot 0 d = 0)
    (hmono : ∀ d v w, 0 < d → v ≤ w → quot v d ≤ quot w d) (g f a a' : Option Resource)
    (hle : ∀ k, (orZero a).get k ≤ (orZero a').get k) :
    getFairShareWith quot a g f ≤ getFairShareWith quot a' g f ∧
      ∀ rA rG rF : Option Resource,
        compUsageRatioSeparatelyWith quot a g f rA rG rF ≤ compUsageRatioSeparatelyWith quot a' g f rA rG rF := by
  obtain ⟨h0, hmax⟩ := (getFairShareWith_le_iff hq0 a' g f _).mp le_rfl
  have hle' : getFairShareWith quot a g f ≤ getFairShareWith quot a' g f :=
    (getFairShareWith_le_iff hq0 a g f _).mpr ⟨h0, fun k ⟨hv, hf⟩ =>
      (fairShareOfWith_mono hmono g f k (hle k)).trans (hmax k ⟨hv.trans (hle k),
        (fairShareOfWith_found quot g f k _ _).symm.trans hf⟩)⟩
  refine ⟨hle', fun rA rG rF => ?_⟩
  dsimp only [compUsageRatioSeparatelyWith]
  split_ifs <;> first | omega | (exfalso; linarith)

/-- Two quotients within factors `L ≤ 1 ≤ U` of each other on non-negative
usages give fair shares within the same factors: the same types count, and
the maximum of related shares is related. -/
theorem getFairShareWith_mem (quot' : Quantity → Quantity → ℚ) {L U : ℚ} (hL : 0 < L) (hL1 : L ≤ 1)
    (hU1 : 1 ≤ U) (hq0 : ∀ d, 0 < d → quot 0 d = 0) (hq0' : ∀ d, 0 < d → quot' 0 d = 0)
    (hq : ∀ v d, 0 ≤ v → 0 < d → quot' v d * L ≤ quot v d ∧ quot v d ≤ quot' v d * U) (a g f : Option Resource) :
    getFairShareWith quot' a g f * L ≤ getFairShareWith quot a g f ∧
      getFairShareWith quot a g f ≤ getFairShareWith quot' a g f * U := by
  have hU : 0 ≤ U := zero_le_one.trans hU1
  have hrel : ∀ k v, 0 ≤ v → (fairShareOfWith quot' g f k v).1 * L ≤ (fairShareOfWith quot g f k v).1 ∧
      (fairShareOfWith quot g f k v).1 ≤ (fairShareOfWith quot' g f k v).1 * U := fun k v hv =>
    fairShareOfWith_rel quot' (fun x y => y * L ≤ x ∧ x ≤ y * U) (by simp) (by simpa using ⟨hL1, hU1⟩) g f k
      fun d hd => hq v d hv hd
  have found : ∀ k v, (fairShareOfWith quot g f k v).2 = (fairShareOfWith quot' g f k v).2 :=
    fun k v => fairShareOfWith_found quot' g f k v v
  obtain ⟨hE0, hE⟩ := (getFairShareWith_le_iff hq0' a g f _).mp le_rfl
  obtain ⟨hF0, hF⟩ := (getFairShareWith_le_iff hq0 a g f _).mp le_rfl
  constructor
  · have h : getFairShareWith quot' a g f ≤ getFairShareWith quot a g f / L :=
      (getFairShareWith_le_iff hq0' a g f _).mpr ⟨div_nonneg hF0 hL.le, fun k ⟨hv, hf⟩ =>
        (le_div_iff₀ hL).mpr ((hrel k _ hv).1.trans (hF k ⟨hv, (found k _).trans hf⟩))⟩
    exact (le_div_iff₀ hL).mp h
  · exact (getFairShareWith_le_iff hq0 a g f _).mpr ⟨mul_nonneg hE0 hU, fun k ⟨hv, hf⟩ =>
      (hrel k _ hv).2.trans (mul_le_mul_of_nonneg_right (hE k ⟨hv, (found k _).symm.trans hf⟩) hU)⟩

end

/-! ### The code's `float64` shares -/

/-- `getShareFairForDenominator`, on the `float64` quotient. -/
def getShareFairForDenominator (resourceType : String) (allocated : Quantity)
    (denominatorResources : Option Resource) : ℚ × Bool :=
  getShareFairForDenominatorWith quotFloat resourceType allocated denominatorResources

/-- `getFairShare`, on the `float64` quotient. -/
def getFairShare (allocated guaranteed fair : Option Resource) : ℚ :=
  getFairShareWith quotFloat allocated guaranteed fair

/-- `CompUsageRatioSeparately`, on the `float64` fair shares. -/
def compUsageRatioSeparately (leftAllocated leftGuaranteed leftFairMax rightAllocated rightGuaranteed
    rightFairMax : Option Resource) : ℤ :=
  compUsageRatioSeparatelyWith quotFloat leftAllocated leftGuaranteed leftFairMax rightAllocated
    rightGuaranteed rightFairMax

/-- **The fair share grows with the allocation**, for every guarantee and
fair maximum, and so does the comparison against any other queue. -/
theorem getFairShare_mono (g f a a' : Option Resource)
    (hle : ∀ k, (orZero a).get k ≤ (orZero a').get k) :
    getFairShare a g f ≤ getFairShare a' g f ∧
      ∀ rA rG rF : Option Resource,
        compUsageRatioSeparately a g f rA rG rF ≤ compUsageRatioSeparately a' g f rA rG rF :=
  getFairShareWith_mono (fun c _ => quotFloat_zero_left c) (fun _ _ _ hd h => quotFloat_mono hd.le h) g f a a' hle

/-- A run of the monotonicity: usage `{x: 1}` grown to `{x: 2}` against the
fair maximum `{x: 4}`, with no guarantee. -/
theorem getFairShare_mono_small :
    (∀ k, (orZero (some (newResource.set "x" ⟨1, by decide, by decide⟩))).get k ≤
      (orZero (some (newResource.set "x" ⟨2, by decide, by decide⟩))).get k) ∧
    getFairShare (some (newResource.set "x" ⟨1, by decide, by decide⟩)) none
        (some (newResource.set "x" ⟨4, by decide, by decide⟩)) ≤
      getFairShare (some (newResource.set "x" ⟨2, by decide, by decide⟩)) none
        (some (newResource.set "x" ⟨4, by decide, by decide⟩)) ∧
    ∀ rA rG rF : Option Resource,
      compUsageRatioSeparately (some (newResource.set "x" ⟨1, by decide, by decide⟩)) none
          (some (newResource.set "x" ⟨4, by decide, by decide⟩)) rA rG rF ≤
        compUsageRatioSeparately (some (newResource.set "x" ⟨2, by decide, by decide⟩)) none
          (some (newResource.set "x" ⟨4, by decide, by decide⟩)) rA rG rF := by
  have hle : ∀ k, (orZero (some (newResource.set "x" ⟨1, by decide, by decide⟩))).get k ≤
      (orZero (some (newResource.set "x" ⟨2, by decide, by decide⟩))).get k := fun k => by
    simp only [orZero_some, get_set, get_newResource]; split_ifs <;> decide
  exact ⟨hle, getFairShare_mono _ _ _ _ hle⟩

/-! ### Against the exact shares -/

/-- The exact quotient of a usage by a positive denominator. -/
def exactQuot (allocated denominator : Quantity) : ℚ := (allocated.val : ℚ) / denominator.val

/-- The fair share the `float64` one approximates: the same loop on the exact quotient. -/
def exactFairShare (allocated guaranteed fair : Option Resource) : ℚ :=
  getFairShareWith exactQuot allocated guaranteed fair

theorem exactQuot_zero (d : Quantity) (_ : 0 < d) : exactQuot 0 d = 0 := by
  simp [exactQuot]

theorem quotFloat_mem {v d : Quantity} (hv : 0 ≤ v) (hd : 0 < d) :
    exactQuot v d * ((1 - 1 / 2 ^ 53) ^ 2 / (1 + 1 / 2 ^ 53)) ≤ quotFloat v d ∧
      quotFloat v d ≤ exactQuot v d * ((1 + 1 / 2 ^ 53) ^ 2 / (1 - 1 / 2 ^ 53)) := by
  rcases hv.eq_or_lt with rfl | hv
  · simp [exactQuot]
  · exact roundQ_div_mem hv hd

/-- **The `float64` fair share is within three roundings of the exact one**,
for every allocation, guarantee and fair maximum. -/
theorem getFairShare_near_exact (a g f : Option Resource) :
    exactFairShare a g f * ((1 - 1 / 2 ^ 53) ^ 2 / (1 + 1 / 2 ^ 53)) ≤ getFairShare a g f ∧
      getFairShare a g f ≤ exactFairShare a g f * ((1 + 1 / 2 ^ 53) ^ 2 / (1 - 1 / 2 ^ 53)) :=
  getFairShareWith_mem exactQuot (by norm_num) (by norm_num) (by norm_num) (fun c _ => quotFloat_zero_left c)
    exactQuot_zero (fun _ _ hv hd => quotFloat_mem hv hd) a g f

/-- **The `float64` comparison of fair shares agrees with the exact one**
whenever one exact fair share exceeds the other by more than the rounding
factor `(1 + 2^-53)^3 / (1 - 2^-53)^3`, in both orders of the arguments. -/
theorem compUsageRatioSeparately_eq_of_separated (lA lG lF rA rG rF : Option Resource)
    (h : exactFairShare rA rG rF * ((1 + 1 / 2 ^ 53) ^ 2 / (1 - 1 / 2 ^ 53)) <
      exactFairShare lA lG lF * ((1 - 1 / 2 ^ 53) ^ 2 / (1 + 1 / 2 ^ 53))) :
    compUsageRatioSeparately lA lG lF rA rG rF = 1 ∧ compUsageRatioSeparatelyWith exactQuot lA lG lF rA rG rF = 1 ∧
      compUsageRatioSeparately rA rG rF lA lG lF = -1 ∧
      compUsageRatioSeparatelyWith exactQuot rA rG rF lA lG lF = -1 := by
  have hmem := getFairShareWith_mem exactQuot (by norm_num) (by norm_num) (by norm_num)
    (fun c _ => quotFloat_zero_left c) exactQuot_zero (fun _ _ hv hd => quotFloat_mem hv hd)
  have hF : getFairShare rA rG rF < getFairShare lA lG lF :=
    (hmem rA rG rF).2.trans_lt (h.trans_le (hmem lA lG lF).1)
  have hE0 : ∀ a g f, 0 ≤ exactFairShare a g f := fun a g f =>
    ((getFairShareWith_le_iff exactQuot_zero a g f _).mp le_rfl).1
  have hE : exactFairShare rA rG rF < exactFairShare lA lG lF :=
    calc exactFairShare rA rG rF
        ≤ exactFairShare rA rG rF * ((1 + 1 / 2 ^ 53) ^ 2 / (1 - 1 / 2 ^ 53)) :=
          le_mul_of_one_le_right (hE0 _ _ _) (by norm_num)
      _ < exactFairShare lA lG lF * ((1 - 1 / 2 ^ 53) ^ 2 / (1 + 1 / 2 ^ 53)) := h
      _ ≤ exactFairShare lA lG lF := mul_le_of_le_one_right (hE0 _ _ _) (by norm_num)
  have hcmp : ∀ x y : ℚ, y < x → ((if x > y then 1 else if x < y then -1 else 0 : ℤ) = 1 ∧
      (if y > x then 1 else if y < x then -1 else 0 : ℤ) = -1) := fun x y hxy =>
    ⟨if_pos hxy, by rw [if_neg (not_lt.mpr hxy.le), if_pos hxy]⟩
  exact ⟨(hcmp _ _ hF).1, (hcmp _ _ hE).1, (hcmp _ _ hF).2, (hcmp _ _ hE).2⟩

/-- The allocation `{x: 2}` against an explicit zero fair maximum `{x: 0}` has
exact fair share `1`, far above the empty queue's `0`. -/
theorem compUsageRatioSeparately_eq_of_separated_small :
    exactFairShare none none none * ((1 + 1 / 2 ^ 53) ^ 2 / (1 - 1 / 2 ^ 53)) <
        exactFairShare (some (newResource.set "x" ⟨2, by decide, by decide⟩)) none (some (newResource.set "x" 0)) *
          ((1 - 1 / 2 ^ 53) ^ 2 / (1 + 1 / 2 ^ 53)) ∧
      compUsageRatioSeparately (some (newResource.set "x" ⟨2, by decide, by decide⟩)) none
        (some (newResource.set "x" 0)) none none none = 1 ∧
      compUsageRatioSeparatelyWith exactQuot (some (newResource.set "x" ⟨2, by decide, by decide⟩)) none
        (some (newResource.set "x" 0)) none none none = 1 ∧
      compUsageRatioSeparately none none none (some (newResource.set "x" ⟨2, by decide, by decide⟩)) none
        (some (newResource.set "x" 0)) = -1 ∧
      compUsageRatioSeparatelyWith exactQuot none none none (some (newResource.set "x" ⟨2, by decide, by decide⟩))
        none (some (newResource.set "x" 0)) = -1 := by
  have hx : (fairShareOfWith exactQuot none (some (newResource.set "x" 0)) "x"
      ((orZero (some (newResource.set "x" ⟨2, by decide, by decide⟩))).get "x")).1 = 1 := by decide
  have h1 : 1 ≤ exactFairShare (some (newResource.set "x" ⟨2, by decide, by decide⟩)) none
      (some (newResource.set "x" 0)) :=
    hx ▸ ((getFairShareWith_le_iff exactQuot_zero _ _ _ _).mp le_rfl).2 "x" ⟨by decide, by decide⟩
  have h : exactFairShare none none none * ((1 + 1 / 2 ^ 53) ^ 2 / (1 - 1 / 2 ^ 53)) <
      exactFairShare (some (newResource.set "x" ⟨2, by decide, by decide⟩)) none (some (newResource.set "x" 0)) *
        ((1 - 1 / 2 ^ 53) ^ 2 / (1 + 1 / 2 ^ 53)) := by
    rw [show exactFairShare none none none = 0 from rfl, zero_mul]
    exact mul_pos (zero_lt_one.trans_le h1) (by norm_num)
  exact ⟨h, compUsageRatioSeparately_eq_of_separated _ _ _ _ _ _ h⟩

end Resources
