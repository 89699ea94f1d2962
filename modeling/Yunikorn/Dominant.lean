/-
# The dominant resource type

`DominantResourceType` walks the usage map and keeps a running maximum of the
usage ratio, seeded at `0` with the empty name. A type the capacity does not
define is skipped; a zero capacity gives ratio `1` for a non-zero usage and `0`
otherwise; any other ratio is `float64(usedVal) / float64(capVal)`. A ratio at
least the running maximum takes its place, so the last of equal ratios wins.

Each step leaves the maximum alone or moves it up to the visited ratio
(`dominantStep_eq`), so in every order of Go's map iteration the name returned
is an argmax of the `float64` ratios (`dominantResourceType_isDominant`).
Rounding merges ratios that the exact `usedVal / capVal` tells apart, and then
the last one visited wins: usage `{a: 2^53 + 1, b: 2^53}` against capacity `1`
gives `b` (`dominantResourceType_not_exact_argmax`). Against the exact ratios
the name is an argmax up to a relative `2^-50` (`dominantResourceType_near_argmax`).

Key definitions: `usageRatio`, `dominantStep`, `dominantLoop`, `dominantResourceType`,
`IsDominant`, `exactUsageRatio`, `IsNearDominant`.
Key theorems: `dominantStep_eq`, `foldl_dominantStep_cases`, `dominantResourceType_isDominant`,
`dominantResourceType_not_exact_argmax`, `dominantResourceType_near_argmax`.
-/
import Yunikorn.Resource
import Yunikorn.Float64

namespace Resources

open Resource

/-- The ratio `DominantResourceType` computes: at a zero capacity `0` for no
usage and `1` for any, otherwise `float64(usedVal) / float64(capVal)`. -/
def usageRatio (usedVal capVal : Quantity) : ℚ :=
  if capVal = 0 then (if usedVal = 0 then 0 else 1) else quotFloat usedVal capVal

/-- One iteration of the loop over the usage map: a type missing from the
capacity is skipped, and a ratio at least the running maximum replaces it and
the dominant name. -/
def dominantStep (capacity : Resource) (acc : ℚ × String) (e : Σ _ : String, Quantity) : ℚ × String :=
  match capacity.resources.lookup e.1 with
  | none => acc
  | some capVal =>
    let temp := usageRatio e.2 capVal
    if temp ≥ acc.1 then (temp, e.1) else acc

/-- The loop of `DominantResourceType` over the usage entries in the order
given, from `div = 0` and `dominant = ""`. -/
def dominantLoop (capacity : Resource) (entries : List (Σ _ : String, Quantity)) : ℚ × String :=
  entries.foldl (dominantStep capacity) (0, "")

/-- `DominantResourceType`: the empty string for a `nil` usage or capacity,
otherwise the name the loop ends on. -/
def dominantResourceType (r capacity : Option Resource) : String :=
  match r, capacity with
  | some r, some capacity => (dominantLoop capacity r.resources.entries).2
  | _, _ => ""

/-- The argmax promise for the code's ratios: when some type of both maps has
a non-negative ratio, a type of both whose ratio is the largest; otherwise the
empty string. -/
def IsDominant (r c : Resource) (name : String) : Prop :=
  ((∃ k ∈ r.resources, k ∈ c.resources ∧ 0 ≤ usageRatio (r.get k) (c.get k)) →
    name ∈ r.resources ∧ name ∈ c.resources ∧
      ∀ k ∈ r.resources, k ∈ c.resources → usageRatio (r.get k) (c.get k) ≤ usageRatio (r.get name) (c.get name)) ∧
  ((¬∃ k ∈ r.resources, k ∈ c.resources ∧ 0 ≤ usageRatio (r.get k) (c.get k)) → name = "")

theorem dominantResourceType_some (r c : Resource) :
    dominantResourceType (some r) (some c) = (dominantLoop c r.resources.entries).2 := rfl

/-! ### One step, and the loop in any order -/

/-- A step moves the maximum to the visited ratio exactly when the capacity
defines the type and the ratio is at least the maximum. -/
theorem dominantStep_eq (c : Resource) (acc : ℚ × String) (e : Σ _ : String, Quantity) :
    dominantStep c acc e =
      if e.1 ∈ c.resources ∧ acc.1 ≤ usageRatio e.2 (c.get e.1) then (usageRatio e.2 (c.get e.1), e.1)
      else acc := by
  unfold dominantStep
  split
  · next h => rw [if_neg fun hc => absurd h (by rw [lookup_of_mem hc.1]; simp)]
  · next v h =>
    have hc : e.1 ∈ c.resources := AList.lookup_isSome.mp (by rw [h]; rfl)
    rw [get_of_lookup h]
    simp only [ge_iff_le, hc, true_and]

theorem le_dominantStep (c : Resource) (acc : ℚ × String) (e : Σ _ : String, Quantity) :
    acc.1 ≤ (dominantStep c acc e).1 ∧
      (e.1 ∈ c.resources → usageRatio e.2 (c.get e.1) ≤ (dominantStep c acc e).1) := by
  rw [dominantStep_eq]
  split_ifs with h
  · exact ⟨h.2, fun _ => le_rfl⟩
  · exact ⟨le_rfl, fun hc => (not_le.mp fun h' => h ⟨hc, h'⟩).le⟩

theorem le_foldl_dominantStep (c : Resource) :
    ∀ (es : List (Σ _ : String, Quantity)) (acc : ℚ × String),
      acc.1 ≤ (es.foldl (dominantStep c) acc).1 ∧
        ∀ e ∈ es, e.1 ∈ c.resources → usageRatio e.2 (c.get e.1) ≤ (es.foldl (dominantStep c) acc).1
  | [], _ => ⟨le_rfl, by simp⟩
  | e :: es, acc => by
    obtain ⟨h1, h2⟩ := le_dominantStep c acc e
    obtain ⟨ih1, ih2⟩ := le_foldl_dominantStep c es (dominantStep c acc e)
    exact ⟨h1.trans ih1, List.forall_mem_cons.mpr ⟨fun hc => (h2 hc).trans ih1, ih2⟩⟩

/-- The loop leaves the accumulator alone when every visited ratio is below
the maximum, and otherwise ends on a visited type and its ratio. -/
theorem foldl_dominantStep_cases (c : Resource) :
    ∀ (es : List (Σ _ : String, Quantity)) (acc : ℚ × String),
      ((∀ e ∈ es, e.1 ∈ c.resources → usageRatio e.2 (c.get e.1) < acc.1) ∧
        es.foldl (dominantStep c) acc = acc) ∨
      ∃ e ∈ es, e.1 ∈ c.resources ∧ es.foldl (dominantStep c) acc = (usageRatio e.2 (c.get e.1), e.1)
  | [], _ => .inl ⟨by simp, rfl⟩
  | e :: es, acc => by
    rw [List.foldl_cons, dominantStep_eq]
    split_ifs with h
    · rcases foldl_dominantStep_cases c es _ with ⟨-, hfix⟩ | ⟨e', he', hc, hfin⟩
      · exact .inr ⟨e, List.mem_cons_self _ _, h.1, hfix⟩
      · exact .inr ⟨e', List.mem_cons_of_mem _ he', hc, hfin⟩
    · rcases foldl_dominantStep_cases c es acc with ⟨hlt, hfix⟩ | ⟨e', he', hc, hfin⟩
      · exact .inl ⟨List.forall_mem_cons.mpr ⟨fun hc => not_le.mp fun h' => h ⟨hc, h'⟩, hlt⟩, hfix⟩
      · exact .inr ⟨e', List.mem_cons_of_mem _ he', hc, hfin⟩

theorem isDominant_foldl (r c : Resource) (order : List (Σ _ : String, Quantity))
    (horder : order.Perm r.resources.entries) : IsDominant r c (dominantLoop c order).2 := by
  have hmem : ∀ e ∈ order, e.1 ∈ r.resources ∧ e.2 = r.get e.1 := fun e he => by
    have he := horder.mem_iff.mp he
    exact ⟨AList.mem_keys.mp (List.mem_map_of_mem Sigma.fst he), (get_of_mem_entries he).symm⟩
  have hvisit : ∀ k ∈ r.resources, (⟨k, r.get k⟩ : Σ _ : String, Quantity) ∈ order :=
    fun k hk => horder.mem_iff.mpr (AList.mem_lookup_iff.mp (lookup_of_mem hk))
  obtain ⟨hseed, hle⟩ := le_foldl_dominantStep c order (0, "")
  refine ⟨fun ⟨k, hkr, hkc, hk0⟩ => ?_, fun hnone => ?_⟩
  · rcases foldl_dominantStep_cases c order (0, "") with ⟨hlt, -⟩ | ⟨e, he, hc, hfin⟩
    · exact absurd (hlt _ (hvisit k hkr) hkc) (not_lt.mpr hk0)
    · obtain ⟨her, hget⟩ := hmem e he
      rw [dominantLoop, hfin]
      refine ⟨her, hc, fun k' hk'r hk'c => ?_⟩
      simpa [hfin, ← hget] using hle _ (hvisit k' hk'r) hk'c
  · rcases foldl_dominantStep_cases c order (0, "") with ⟨-, hfix⟩ | ⟨e, he, hc, hfin⟩
    · rw [dominantLoop, hfix]
    · obtain ⟨her, hget⟩ := hmem e he
      exact absurd ⟨e.1, her, hc, by simpa [hfin, ← hget] using hseed⟩ hnone

/-- **`DominantResourceType` returns an argmax of its `float64` ratios, in
every iteration order.** -/
theorem dominantResourceType_isDominant (r c : Resource) :
    (∀ order : List (Σ _ : String, Quantity), order.Perm r.resources.entries →
      IsDominant r c (dominantLoop c order).2) ∧
    IsDominant r c (dominantResourceType (some r) (some c)) :=
  ⟨isDominant_foldl r c, isDominant_foldl r c _ (List.Perm.refl _)⟩

/-! ### Against the exact ratios -/

/-- The exact ratio the `float64` one approximates, with the same cases at a
zero capacity. -/
def exactUsageRatio (usedVal capVal : Quantity) : ℚ :=
  if capVal = 0 then (if usedVal = 0 then 0 else 1) else (usedVal.val : ℚ) / capVal.val

/-- **Rounding moves the argmax.** Usage `{a: 2^53 + 1, b: 2^53}`, visited `a`
first, against capacity `{a: 1, b: 1}`: both `float64` ratios are `2^53` and
`b` wins the tie, though `a` has the larger exact ratio. -/
theorem dominantResourceType_not_exact_argmax :
    ((newResource.set "b" ⟨2 ^ 53, by decide, by decide⟩).set "a" ⟨2 ^ 53 + 1, by decide, by decide⟩).resources.keys =
      ["a", "b"] ∧
    dominantResourceType
      (some ((newResource.set "b" ⟨2 ^ 53, by decide, by decide⟩).set "a" ⟨2 ^ 53 + 1, by decide, by decide⟩))
      (some ((newResource.set "b" ⟨1, by decide, by decide⟩).set "a" ⟨1, by decide, by decide⟩)) = "b" ∧
    exactUsageRatio ⟨2 ^ 53, by decide, by decide⟩ ⟨1, by decide, by decide⟩ <
      exactUsageRatio ⟨2 ^ 53 + 1, by decide, by decide⟩ ⟨1, by decide, by decide⟩ := by
  -- `float64(2^53 + 1)` and `float64(2^53)` are both `2^53`, and so are their ratios to `1`
  have hratio : ∀ v : Quantity, roundQ (v.val : ℚ) = 2 ^ 53 → usageRatio v ⟨1, by decide, by decide⟩ = 2 ^ 53 :=
    fun v hv => by
      rw [usageRatio, if_neg (by decide), quotFloat, hv, show ((⟨1, by decide, by decide⟩ : Quantity).val : ℚ) = 1 by
        norm_num, roundQ_one, div_one, roundQ_two_pow_53]
  have ha := hratio ⟨2 ^ 53 + 1, by decide, by decide⟩
    (by have := roundQ_two_pow_53_add_one; norm_num at this ⊢; exact this)
  have hb := hratio ⟨2 ^ 53, by decide, by decide⟩ (by have := roundQ_two_pow_53; norm_num at this ⊢; exact this)
  refine ⟨rfl, ?_, by rw [exactUsageRatio, exactUsageRatio, if_neg (by decide), if_neg (by decide)]; norm_num⟩
  have hca : ((newResource.set "b" ⟨1, by decide, by decide⟩).set "a" ⟨1, by decide, by decide⟩).get "a" =
      ⟨1, by decide, by decide⟩ := get_set_self _ _ _
  have hcb : ((newResource.set "b" ⟨1, by decide, by decide⟩).set "a" ⟨1, by decide, by decide⟩).get "b" =
      ⟨1, by decide, by decide⟩ := by rw [get_set_ne _ _ (by decide), get_set_self]
  have hent : ((newResource.set "b" ⟨2 ^ 53, by decide, by decide⟩).set "a"
      ⟨2 ^ 53 + 1, by decide, by decide⟩).resources.entries =
      ([⟨"a", ⟨2 ^ 53 + 1, by decide, by decide⟩⟩, ⟨"b", ⟨2 ^ 53, by decide, by decide⟩⟩] :
        List (Σ _ : String, Quantity)) := rfl
  rw [dominantResourceType_some, dominantLoop, hent, List.foldl_cons, List.foldl_cons, List.foldl_nil,
    dominantStep_eq, dominantStep_eq]
  -- both types are in the capacity; `a` raises the maximum to `2^53`, and `b` ties it
  simp only [hca, hcb, ha, hb]
  rfl

/-- What the loop promises of the exact ratios: when the two maps share a
type, a shared type whose exact ratio is within `2^-50` of that of every
shared type; otherwise the empty string. -/
def IsNearDominant (r c : Resource) (name : String) : Prop :=
  ((∃ k ∈ r.resources, k ∈ c.resources) →
    name ∈ r.resources ∧ name ∈ c.resources ∧
      ∀ k ∈ r.resources, k ∈ c.resources →
        exactUsageRatio (r.get k) (c.get k) * (1 - 1 / 2 ^ 50) ≤ exactUsageRatio (r.get name) (c.get name)) ∧
  ((¬∃ k ∈ r.resources, k ∈ c.resources) → name = "")

theorem exactUsageRatio_nonneg {u c : Quantity} (hu : 0 ≤ u) (hc : 0 ≤ c) : 0 ≤ exactUsageRatio u c := by
  unfold exactUsageRatio
  split_ifs
  exacts [le_rfl, zero_le_one, div_nonneg (Int.cast_nonneg.mpr hu) (Int.cast_nonneg.mpr hc)]

theorem usageRatio_mem {u c : Quantity} (hu : 0 ≤ u) (hc : 0 ≤ c) :
    exactUsageRatio u c * ((1 - 1 / 2 ^ 53) ^ 2 / (1 + 1 / 2 ^ 53)) ≤ usageRatio u c ∧
      usageRatio u c ≤ exactUsageRatio u c * ((1 + 1 / 2 ^ 53) ^ 2 / (1 - 1 / 2 ^ 53)) := by
  unfold exactUsageRatio usageRatio
  split_ifs with hc0 hu0
  · simp
  · norm_num
  · rcases hu.eq_or_lt with rfl | hu
    · simp
    · exact roundQ_div_mem hu (hc.lt_of_ne' hc0)

theorem isNearDominant_foldl (r c : Resource) (hr : ∀ k, 0 ≤ r.get k) (hc : ∀ k, 0 ≤ c.get k)
    (order : List (Σ _ : String, Quantity)) (horder : order.Perm r.resources.entries) :
    IsNearDominant r c (dominantLoop c order).2 := by
  obtain ⟨hsome, hnone⟩ := isDominant_foldl r c order horder
  have hnn : ∀ k, 0 ≤ usageRatio (r.get k) (c.get k) := fun k =>
    (mul_nonneg (exactUsageRatio_nonneg (hr k) (hc k)) (by norm_num)).trans (usageRatio_mem (hr k) (hc k)).1
  refine ⟨fun ⟨k, hkr, hkc⟩ => ?_, fun h => hnone fun ⟨k, hkr, hkc, _⟩ => h ⟨k, hkr, hkc⟩⟩
  obtain ⟨hdr, hdc, hmax⟩ := hsome ⟨k, hkr, hkc, hnn k⟩
  refine ⟨hdr, hdc, fun k' hk'r hk'c => ?_⟩
  set d := (dominantLoop c order).2
  set L : ℚ := (1 - 1 / 2 ^ 53) ^ 2 / (1 + 1 / 2 ^ 53)
  set U : ℚ := (1 + 1 / 2 ^ 53) ^ 2 / (1 - 1 / 2 ^ 53)
  have hU : 0 < U := by norm_num [U]
  have hchain : exactUsageRatio (r.get k') (c.get k') * L ≤ exactUsageRatio (r.get d) (c.get d) * U :=
    ((usageRatio_mem (hr k') (hc k')).1.trans (hmax k' hk'r hk'c)).trans (usageRatio_mem (hr d) (hc d)).2
  calc exactUsageRatio (r.get k') (c.get k') * (1 - 1 / 2 ^ 50)
      ≤ exactUsageRatio (r.get k') (c.get k') * (L / U) :=
        mul_le_mul_of_nonneg_left (by norm_num [L, U]) (exactUsageRatio_nonneg (hr k') (hc k'))
    _ = exactUsageRatio (r.get k') (c.get k') * L / U := (mul_div_assoc _ _ _).symm
    _ ≤ exactUsageRatio (r.get d) (c.get d) * U / U := div_le_div_of_nonneg_right hchain hU.le
    _ = exactUsageRatio (r.get d) (c.get d) := mul_div_cancel_right₀ _ hU.ne'

/-- **`DominantResourceType` returns a near argmax of the exact ratios, in
every iteration order**, for maps with no negative value. -/
theorem dominantResourceType_near_argmax (r c : Resource) (hr : ∀ k, 0 ≤ r.get k)
    (hc : ∀ k, 0 ≤ c.get k) :
    (∀ order : List (Σ _ : String, Quantity), order.Perm r.resources.entries →
      IsNearDominant r c (dominantLoop c order).2) ∧
    IsNearDominant r c (dominantResourceType (some r) (some c)) :=
  ⟨isNearDominant_foldl r c hr hc, isNearDominant_foldl r c hr hc _ (List.Perm.refl _)⟩

/-- The usage `{x: 1}` against the capacity `{x: 3}`. -/
theorem dominantResourceType_near_argmax_small :
    (∀ k, 0 ≤ (newResource.set "x" ⟨1, by decide, by decide⟩).get k) ∧
    (∀ k, 0 ≤ (newResource.set "x" ⟨3, by decide, by decide⟩).get k) ∧
    IsNearDominant (newResource.set "x" ⟨1, by decide, by decide⟩) (newResource.set "x" ⟨3, by decide, by decide⟩)
      (dominantResourceType (some (newResource.set "x" ⟨1, by decide, by decide⟩))
        (some (newResource.set "x" ⟨3, by decide, by decide⟩))) := by
  have hr : ∀ k, 0 ≤ (newResource.set "x" ⟨1, by decide, by decide⟩).get k :=
    fun k => by rw [get_set]; split_ifs; exacts [by decide, le_refl 0]
  have hc : ∀ k, 0 ≤ (newResource.set "x" ⟨3, by decide, by decide⟩).get k :=
    fun k => by rw [get_set]; split_ifs; exacts [by decide, le_refl 0]
  exact ⟨hr, hc, (dominantResourceType_near_argmax _ _ hr hc).2⟩

end Resources
