/-
# Admission: headroom against the sum of usage and request

A scheduler can ask whether a request `R` fits under a maximum `M` with usage
`U` in two ways: subtract the usage first and fit the request in the headroom
(`Sub(M, U).FitIn(R)`, or `SubOnlyExisting` with `FitInMaxUndef`), or add
the request to the usage and fit the sum (`M.FitIn(Add(U, R))`).

With non-negative values, the headroom check implies the sum check, and the
two agree as long as `Add` does not saturate (`fitIn_headroom_iff_add`). When
`U[k] + R[k]` exceeds `MaxInt64`, `Add` clamps it to `MaxInt64`, which fits
under a maximum of `MaxInt64`, while the headroom `MaxInt64 - U[k]` rejects
the request (`fitIn_headroom_saturated`).

Key theorems: `fit_headroom`, `fitIn_headroom_iff_add`, `fitIn_headroom_saturated`.
-/
import Yunikorn.Algebra
import Yunikorn.Compare

namespace Resources

open Resource

/-- One type of the two checks, from `u` fitting in `m`: a request that fits
in the headroom fits with the usage added, and the two agree while the sum
does not saturate. -/
theorem fit_headroom {m u r : Quantity} (hm : 0 ≤ m) (hu : 0 ≤ u) (hr : 0 ≤ r) (hum : u ≤ max 0 m) :
    (r ≤ max 0 (clamp (m.val - u.val)) → clamp (u.val + r.val) ≤ max 0 m) ∧
      (u.val + r.val ≤ maxInt64 →
        (r ≤ max 0 (clamp (m.val - u.val)) ↔ clamp (u.val + r.val) ≤ max 0 m)) := by
  have := m.le_max
  simp only [Quantity.le_def, Quantity.val_max, Quantity.val_zero, val_clamp, maxInt64] at *
  omega

/-- **Headroom and sum agree below saturation.** For non-negative `M`, `U`
and `R` with `U` fitting in `M`: if the request fits in the headroom it fits
with the usage added, and when no `U[k] + R[k]` exceeds `MaxInt64` the two
checks are equal; for `FitIn` with `Sub`, and for `FitInMaxUndef` with
`SubOnlyExisting`. -/
theorem fitIn_headroom_iff_add (M U R : Option Resource) (hM : ∀ k, 0 ≤ (orZero M).get k)
    (hU : ∀ k, 0 ≤ (orZero U).get k) (hR : ∀ k, 0 ≤ (orZero R).get k) :
    (fitIn M U = true →
      (fitIn (sub M U) R = true → fitIn M (add U R) = true) ∧
      ((∀ k, ((orZero U).get k).val + ((orZero R).get k).val ≤ maxInt64) →
        fitIn (sub M U) R = fitIn M (add U R))) ∧
    (fitInMaxUndef M U = true →
      (fitInMaxUndef (subOnlyExisting M U) R = true → fitInMaxUndef M (add U R) = true) ∧
      ((∀ k, ((orZero U).get k).val + ((orZero R).get k).val ≤ maxInt64) →
        fitInMaxUndef (subOnlyExisting M U) R = fitInMaxUndef M (add U R))) := by
  have hne : ∀ k, (orZero U).get k ≠ minQuantity := fun k h => absurd (h ▸ hU k) (by decide)
  have key := fun k => fit_headroom (hM k) (hU k) (hR k)
  have hsub : ∀ k, (orZero (sub M U)).get k = clamp (((orZero M).get k).val - ((orZero U).get k).val) :=
    fun k => get_sub_of_ne_min M U (hne k)
  have hsoe : ∀ k ∈ (orZero M).resources,
      (orZero (subOnlyExisting M U)).get k = clamp (((orZero M).get k).val - ((orZero U).get k).val) :=
    fun k hk => (get_onlyExisting subVal subVal_zero M U hk).trans (subVal_eq_clamp _ (hne k))
  refine ⟨fun hMU => ⟨fun h => ?_, fun hsum => ?_⟩, fun hMU => ⟨fun h => ?_, fun hsum => ?_⟩⟩
  · rw [fitIn_iff] at hMU h ⊢
    intro k
    rw [get_add]
    exact (key k (hMU k)).1 (hsub k ▸ h k)
  · rw [fitIn_iff] at hMU
    rw [Bool.eq_iff_iff, fitIn_iff, fitIn_iff]
    refine forall_congr' fun k => ?_
    rw [hsub, get_add]
    exact (key k (hMU k)).2 (hsum k)
  · rw [fitInMaxUndef_iff] at hMU h ⊢
    intro k hk
    rw [get_add]
    exact (key k (hMU k hk)).1 (hsoe k hk ▸ h k ((mem_onlyExisting subVal M U k).mpr hk))
  · rw [fitInMaxUndef_iff] at hMU
    rw [Bool.eq_iff_iff, fitInMaxUndef_iff, fitInMaxUndef_iff]
    refine forall_congr' fun k => imp_congr_ctx (mem_onlyExisting subVal M U k) fun hk => ?_
    rw [hsoe k hk, get_add]
    exact (key k (hMU k hk)).2 (hsum k)

/-- The headroom test on `{x: 10}` with usage `{x: 3}` and request `{x: 5}`. -/
theorem fitIn_headroom_iff_add_small :
    let M := some (newResource.set "x" ⟨10, by decide, by decide⟩)
    let U := some (newResource.set "x" ⟨3, by decide, by decide⟩)
    let R := some (newResource.set "x" ⟨5, by decide, by decide⟩)
    (∀ k, 0 ≤ (orZero M).get k) ∧ (∀ k, 0 ≤ (orZero U).get k) ∧ (∀ k, 0 ≤ (orZero R).get k) ∧
    ((fitIn M U = true →
      (fitIn (sub M U) R = true → fitIn M (add U R) = true) ∧
      ((∀ k, ((orZero U).get k).val + ((orZero R).get k).val ≤ maxInt64) →
        fitIn (sub M U) R = fitIn M (add U R))) ∧
    (fitInMaxUndef M U = true →
      (fitInMaxUndef (subOnlyExisting M U) R = true → fitInMaxUndef M (add U R) = true) ∧
      ((∀ k, ((orZero U).get k).val + ((orZero R).get k).val ≤ maxInt64) →
        fitInMaxUndef (subOnlyExisting M U) R = fitInMaxUndef M (add U R)))) := by
  have h : ∀ q : Quantity, 0 ≤ q → ∀ k, 0 ≤ (orZero (some (newResource.set "x" q))).get k :=
    fun q hq k => by rw [orZero_some, get_set]; split_ifs; exacts [hq, le_refl 0]
  exact ⟨h _ (by decide), h _ (by decide), h _ (by decide),
    fitIn_headroom_iff_add _ _ _ (h _ (by decide)) (h _ (by decide)) (h _ (by decide))⟩

/-- **At saturation the two checks differ.** `M = {x: MaxInt64}`, `U = {x: 1}`,
`R = {x: MaxInt64}`: `U` fits in `M`, the request does not fit in the headroom
`{x: MaxInt64 - 1}`, but `Add(U, R)` saturates to `{x: MaxInt64}`, which fits
in `M`; the same with `FitInMaxUndef` and `SubOnlyExisting`. -/
theorem fitIn_headroom_saturated :
    let M := some (newResource.set "x" maxQuantity)
    let U := some (newResource.set "x" ⟨1, by decide, by decide⟩)
    let R := some (newResource.set "x" maxQuantity)
    fitIn M U = true ∧ fitIn (sub M U) R = false ∧ fitIn M (add U R) = true ∧
      fitInMaxUndef M U = true ∧ fitInMaxUndef (subOnlyExisting M U) R = false ∧
      fitInMaxUndef M (add U R) = true := by
  decide

end Resources
