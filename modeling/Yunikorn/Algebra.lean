/-
# The vector algebra

`Add`, `Sub`, `AddTo`, `SubFrom`, `AddOnlyExisting`, `SubOnlyExisting`, the
non-negative subtractions, `Multiply` and the component-wise functions, each a
loop over one map writing into another (`Resource.applyEach`).

`Add` and `Sub` are one function of the calculator (`combine`), as are
`AddTo` and `SubFrom` (`applyTo`) and the two `OnlyExisting` functions
(`onlyExisting`). `Add` is exact-then-clamped at every type and commutes
(`add_exact_then_clamped`); `Sub` is exact-then-clamped at every type whose
subtrahend is not `MinInt64` (`get_sub_of_ne_min`), and at that subtrahend
it returns `MinInt64` where the clamped difference is `MaxInt64`
(`sub_min_subtrahend`). The in-place `AddTo` and `SubFrom` leave their base
`DeepEquals` to `Add` and `Sub` of it (`deepEquals_applyTo_combine`).

`SubEliminateNegative` and `SubErrorNegative` clamp at `0`, and report, only
the types their loop visits, those of the right side
(`get_subEliminateNegative`, `subErrorNegative_isSome_iff`): a negative value
of the left side alone is returned as it is, with no error
(`subErrorNegative_left_negative`). Their message names, in the order the
loop visits them, exactly the types at which `Sub` is negative, so every
iteration order gives the same resource and a message naming the same types
(`subNonNegative_message`). `Multiply` is exact-then-clamped at every type
(`multiply_exact_then_clamped`).

Key definitions: `combine`, `add`, `sub`, `applyTo`, `addTo`, `subFrom`, `onlyExisting`,
`subNonNegative`, `negativeText`, `multiply`.
Key theorems: `get_combine`, `mem_combine`, `add_exact_then_clamped`, `sub_min_subtrahend`,
`get_subEliminateNegative`, `subErrorNegative_isSome_iff`, `subNonNegative_message`,
`multiply_exact_then_clamped`.
-/
import Yunikorn.Equality

namespace Resources

open Resource

/-! ### `Add` and `Sub` -/

/-- `Add` and `Sub`: `nil` on the left is `Zero`, `nil` on the right returns a
clone of the left, otherwise a clone of the left with each type of the right
combined into it by `op`. -/
def combine (op : Quantity → Quantity → Quantity) (left right : Option Resource) : Option Resource :=
  let left := orZero left
  match right with
  | none => some left.clone
  | some right => some (left.clone.applyEach (fun _ => op) right)

/-- `Add`. -/
def add (left right : Option Resource) : Option Resource := combine addVal left right

/-- `Sub`. -/
def sub (left right : Option Resource) : Option Resource := combine subVal left right

theorem combine_eq (op : Quantity → Quantity → Quantity) (left right : Option Resource) :
    combine op left right = some ((orZero left).clone.applyEach (fun _ => op) (orZero right)) := by
  cases right <;> rfl

theorem mem_combine (op : Quantity → Quantity → Quantity) (left right : Option Resource) (k : String) :
    k ∈ (orZero (combine op left right)).resources ↔
      k ∈ (orZero left).resources ∨ k ∈ (orZero right).resources := by
  rw [combine_eq, orZero_some, mem_applyEach, mem_clone]

theorem get_combine (op : Quantity → Quantity → Quantity) (left right : Option Resource) (k : String) :
    (orZero (combine op left right)).get k =
      if k ∈ (orZero right).resources then op ((orZero left).get k) ((orZero right).get k)
      else (orZero left).get k := by
  rw [combine_eq, orZero_some, get_applyEach, get_clone]

/-- The loop of `Add` and `AddTo` adds each type of `delta` exactly, then clamps. -/
theorem get_applyEach_addVal (out delta : Resource) (k : String) :
    (out.applyEach (fun _ => addVal) delta).get k = clamp ((out.get k).val + (delta.get k).val) := by
  rw [get_applyEach]
  split_ifs with h
  · exact addVal_eq_clamp _ _
  · rw [get_of_not_mem h, Quantity.val_zero, Int.add_zero, clamp_val]

/-- The loop of `Sub` and `SubFrom` subtracts exactly, then clamps, at every
type whose subtrahend is not `MinInt64`. -/
theorem get_applyEach_subVal (out delta : Resource) {k : String} (hk : delta.get k ≠ minQuantity) :
    (out.applyEach (fun _ => subVal) delta).get k = clamp ((out.get k).val - (delta.get k).val) := by
  rw [get_applyEach]
  split_ifs with h
  · exact subVal_eq_clamp _ hk
  · rw [get_of_not_mem h, Quantity.val_zero, Int.sub_zero, clamp_val]

theorem get_add (left right : Option Resource) (k : String) :
    (orZero (add left right)).get k = clamp (((orZero left).get k).val + ((orZero right).get k).val) := by
  rw [add, combine_eq, orZero_some, get_applyEach_addVal, get_clone]

/-- `Sub` is exact-then-clamped at every type whose subtrahend is not `MinInt64`. -/
theorem get_sub_of_ne_min (left right : Option Resource) {k : String}
    (hk : (orZero right).get k ≠ minQuantity) :
    (orZero (sub left right)).get k = clamp (((orZero left).get k).val - ((orZero right).get k).val) := by
  rw [sub, combine_eq, orZero_some, get_applyEach_subVal _ _ hk, get_clone]

/-! ### `AddTo` and `SubFrom` -/

/-- `AddTo` and `SubFrom`: the base after the call. A `nil` base stays `nil`
and a `nil` delta leaves the base unchanged. -/
def applyTo (op : Quantity → Quantity → Quantity) : Option Resource → Option Resource → Option Resource
  | some r, some delta => some (r.applyEach (fun _ => op) delta)
  | r, _ => r

/-- `AddTo`. -/
def addTo (r add : Option Resource) : Option Resource := applyTo addVal r add

/-- `SubFrom`. -/
def subFrom (r sub : Option Resource) : Option Resource := applyTo subVal r sub

theorem applyTo_some (op : Quantity → Quantity → Quantity) (base : Resource) (delta : Option Resource) :
    applyTo op (some base) delta = some (base.applyEach (fun _ => op) (orZero delta)) := by
  cases delta <;> rfl

/-- The in-place form leaves the base `DeepEquals` to the new-vector form. -/
theorem deepEquals_applyTo_combine (op : Quantity → Quantity → Quantity) (base : Resource)
    (delta : Option Resource) :
    deepEquals (applyTo op (some base) delta) (combine op (some base) delta) = true := by
  rw [applyTo_some, combine_eq, orZero_some, deepEquals_iff]
  intro k
  rw [lookup_applyEach, lookup_applyEach, get_clone, lookup_clone]

/-- **`Add` is exact-then-clamped**: it is never `nil`, has the types of both
operands, and at every type the exact sum clamped to `[MinInt64, MaxInt64]`.
`AddTo` leaves its base `DeepEquals` to `Add`, and `Add` commutes up to
`DeepEquals`. -/
theorem add_exact_then_clamped :
    (∀ l r : Option Resource, ∃ out, add l r = some out ∧
      (∀ k, k ∈ out.resources ↔ k ∈ (orZero l).resources ∨ k ∈ (orZero r).resources) ∧
      ∀ k, out.get k = clamp (((orZero l).get k).val + ((orZero r).get k).val)) ∧
    (∀ (base : Resource) (d : Option Resource), deepEquals (addTo (some base) d) (add (some base) d) = true) ∧
    (∀ l r : Option Resource, deepEquals (add l r) (add r l) = true) := by
  have hsome : ∀ l r, add l r = some (orZero (add l r)) := fun l r => by rw [add, combine_eq]; rfl
  refine ⟨fun l r => ⟨_, hsome l r, mem_combine addVal l r, get_add l r⟩,
    deepEquals_applyTo_combine addVal, fun l r => ?_⟩
  rw [hsome l r, hsome r l, deepEquals_iff']
  refine ⟨fun k => ?_, fun k => ?_⟩
  · exact (mem_combine addVal l r k).trans (or_comm.trans (mem_combine addVal r l k).symm)
  · rw [get_add, get_add, Int.add_comm]

/-- **`Sub` at a subtrahend of `MinInt64`.** `subVal` negates the subtrahend
before adding, and `-MinInt64` wraps to `MinInt64`: `{x: -1} - {x: MinInt64}`
is `{x: MinInt64}`, where the clamped difference `-1 + 2^63` is `MaxInt64`. -/
theorem sub_min_subtrahend :
    (orZero (sub (some (newResource.set "x" ⟨-1, by decide, by decide⟩))
        (some (newResource.set "x" minQuantity)))).get "x" = minQuantity ∧
      clamp (-1 - minInt64) = maxQuantity := by
  refine ⟨?_, rfl⟩
  rw [sub, get_combine, if_pos (by decide)]
  exact (subVal_minQuantity _).trans rfl

/-! ### The `OnlyExisting` functions -/

/-- `AddOnlyExisting` and `SubOnlyExisting`: with a `nil` input, a clone of
the base; otherwise a new resource with the types of the base only, each
combined with the delta's value by `op`. -/
def onlyExisting (op : Quantity → Quantity → Quantity) (base delta : Option Resource) : Option Resource :=
  match base, delta with
  | some base, some delta => some (newResource.applyEach (fun k _ v => op v (delta.get k)) base)
  | base, _ => clone base

/-- `SubOnlyExisting`. -/
def subOnlyExisting (base delta : Option Resource) : Option Resource := onlyExisting subVal base delta

/-- `AddOnlyExisting`. -/
def addOnlyExisting (base delta : Option Resource) : Option Resource := onlyExisting addVal base delta

theorem mem_onlyExisting (op : Quantity → Quantity → Quantity) (base delta : Option Resource) (k : String) :
    k ∈ (orZero (onlyExisting op base delta)).resources ↔ k ∈ (orZero base).resources := by
  rcases base with _ | b <;> rcases delta with _ | d
  · rfl
  · rfl
  · exact mem_clone b k
  · simp [onlyExisting, mem_applyEach, newResource, AList.not_mem_empty]

/-- The value of an `OnlyExisting` result at a type of the base. -/
theorem get_onlyExisting (op : Quantity → Quantity → Quantity) (hop : ∀ v, op v 0 = v)
    (base delta : Option Resource) {k : String} (hk : k ∈ (orZero base).resources) :
    (orZero (onlyExisting op base delta)).get k = op ((orZero base).get k) ((orZero delta).get k) := by
  rcases base with _ | b <;> rcases delta with _ | d
  · exact absurd hk (not_mem_zero k)
  · exact absurd hk (not_mem_zero k)
  · exact (get_clone b k).trans (hop _).symm
  · rw [orZero_some] at hk
    simp only [onlyExisting, orZero_some, get_applyEach, if_pos hk]

/-! ### The non-negative subtraction -/

/-- The message `subNonNegative` builds: the first type, then each further one. -/
def negativeMessage (message k : String) : String :=
  if message = "" then "resource quantity less than zero for: " ++ k else message ++ ", " ++ k

/-- `subNonNegative`: `Sub`, resetting each type that goes negative to `0`
and naming it in the message. -/
def subNonNegative (left right : Option Resource) : Option Resource × String :=
  let left := orZero left
  match right with
  | none => (some left.clone, "")
  | some right =>
    let (out, message) := right.resources.entries.foldl
      (fun (acc : Resource × String) e =>
        let out := acc.1.set e.1 (subVal (acc.1.get e.1) e.2)
        if out.get e.1 < 0 then (out.set e.1 0, negativeMessage acc.2 e.1) else (out, acc.2))
      (left.clone, "")
    (some out, message)

/-- `SubEliminateNegative`. -/
def subEliminateNegative (left right : Option Resource) : Option Resource :=
  (subNonNegative left right).1

/-- `SubErrorNegative`: the clamped result, and an error carrying the message
when it is not empty. -/
def subErrorNegative (left right : Option Resource) : Option Resource × Option String :=
  let (res, message) := subNonNegative left right
  (res, if message ≠ "" then some message else none)

theorem negativeMessage_ne_empty (message k : String) : negativeMessage message k ≠ "" := by
  have h1 : 0 < "resource quantity less than zero for: ".length := by decide
  have h2 : 0 < ", ".length := by decide
  intro h
  replace h := congrArg String.length h
  unfold negativeMessage at h
  split_ifs at h <;> simp only [String.length_append, String.length_empty] at h <;> omega

/-- The body of `subNonNegative`'s loop over the types of `right`. -/
def subNonNegativeStep (acc : Resource × String) (e : Σ _ : String, Quantity) : Resource × String :=
  let out := acc.1.set e.1 (subVal (acc.1.get e.1) e.2)
  if out.get e.1 < 0 then (out.set e.1 0, negativeMessage acc.2 e.1) else (out, acc.2)

theorem subNonNegative_some (left : Option Resource) (right : Resource) :
    subNonNegative left (some right) =
      (some (right.resources.entries.foldl subNonNegativeStep ((orZero left).clone, "")).1,
        (right.resources.entries.foldl subNonNegativeStep ((orZero left).clone, "")).2) := rfl

/-- A step writes `max 0 (out[k] - v)`, and names `k` in the message exactly
when the difference is negative. -/
theorem subNonNegativeStep_eq (acc : Resource × String) (e : Σ _ : String, Quantity) :
    subNonNegativeStep acc e =
      (acc.1.set e.1 (max 0 (subVal (acc.1.get e.1) e.2)),
        if subVal (acc.1.get e.1) e.2 < 0 then negativeMessage acc.2 e.1 else acc.2) := by
  unfold subNonNegativeStep
  simp only [get_set_self]
  split_ifs with h
  · rw [max_eq_left h.le, set_set]
  · rw [max_eq_right (not_lt.mp h)]

theorem foldl_subNonNegativeStep_fst (es : List (Σ _ : String, Quantity)) (acc : Resource × String) :
    (es.foldl subNonNegativeStep acc).1 =
      es.foldl (fun out e => out.set e.1 (max 0 (subVal (out.get e.1) e.2))) acc.1 := by
  induction es generalizing acc with
  | nil => rfl
  | cons e es ih => rw [List.foldl_cons, ih, subNonNegativeStep_eq]; rfl

/-- The loop's message stays empty exactly when no visited difference is
negative; the keys are distinct, so each is read before it is written. -/
theorem foldl_subNonNegativeStep_snd (es : List (Σ _ : String, Quantity)) (hes : es.NodupKeys)
    (acc : Resource × String) :
    (es.foldl subNonNegativeStep acc).2 = "" ↔ acc.2 = "" ∧ ∀ e ∈ es, 0 ≤ subVal (acc.1.get e.1) e.2 := by
  induction es generalizing acc with
  | nil => simp
  | cons e es ih =>
    obtain ⟨he, hes⟩ := List.nodupKeys_cons.mp hes
    have hmsg : (subNonNegativeStep acc e).2 = "" ↔ acc.2 = "" ∧ 0 ≤ subVal (acc.1.get e.1) e.2 := by
      rw [subNonNegativeStep_eq]
      split_ifs with h
      · simp [negativeMessage_ne_empty, not_le.mpr h]
      · simp [not_lt.mp h]
    have hrest : (∀ e' ∈ es, 0 ≤ subVal ((subNonNegativeStep acc e).1.get e'.1) e'.2) ↔
        ∀ e' ∈ es, 0 ≤ subVal (acc.1.get e'.1) e'.2 := by
      refine forall₂_congr fun e' he' => ?_
      rw [subNonNegativeStep_eq, get_set_ne]
      exact fun h => he (h ▸ List.mem_keys_of_mem he')
    rw [List.foldl_cons, ih hes, hmsg, hrest, List.forall_mem_cons, and_assoc]

theorem subEliminateNegative_eq (left right : Option Resource) :
    subEliminateNegative left right =
      some ((orZero left).clone.applyEach (fun _ o v => max 0 (subVal o v)) (orZero right)) := by
  cases right with
  | none => rfl
  | some r => rw [subEliminateNegative, subNonNegative_some, foldl_subNonNegativeStep_fst]; rfl

/-- `SubEliminateNegative` is `Sub` with the types of `right` clamped at `0`;
the other types keep the value `Sub` gives them. -/
theorem get_subEliminateNegative (left right : Option Resource) (k : String) :
    (orZero (subEliminateNegative left right)).get k =
      if k ∈ (orZero right).resources then max 0 ((orZero (sub left right)).get k)
      else (orZero (sub left right)).get k := by
  rw [subEliminateNegative_eq, orZero_some, get_applyEach, sub, get_combine, get_clone]
  split_ifs <;> rfl

theorem mem_subEliminateNegative (left right : Option Resource) (k : String) :
    k ∈ (orZero (subEliminateNegative left right)).resources ↔ k ∈ (orZero (sub left right)).resources := by
  rw [subEliminateNegative_eq, orZero_some, mem_applyEach, sub, mem_combine, mem_clone]

/-- `SubErrorNegative` reports an error exactly when `Sub` is negative at a
type of `right`. -/
theorem subErrorNegative_isSome_iff (left right : Option Resource) :
    (subErrorNegative left right).2.isSome ↔
      ∃ k ∈ (orZero right).resources, (orZero (sub left right)).get k < 0 := by
  cases right with
  | none => simp [subErrorNegative, subNonNegative]
  | some r =>
    have hmsg := foldl_subNonNegativeStep_snd r.resources.entries r.resources.nodupKeys ((orZero left).clone, "")
    rw [forall_entries_iff r fun k v => 0 ≤ subVal ((orZero left).clone.get k) v] at hmsg
    have hsub : (∃ k ∈ r.resources, (orZero (sub left (some r))).get k < 0) ↔
        ∃ k ∈ r.resources, subVal ((orZero left).get k) (r.get k) < 0 :=
      exists_congr fun k => and_congr_right fun hk => by rw [sub, get_combine, orZero_some, if_pos hk]
    simpa [subErrorNegative, subNonNegative_some, hmsg] using hsub.symm

/-- With no negative value in `left`, only the types of `right` can go
negative, and the non-negative subtractions are `max 0` of `Sub` at every type. -/
theorem subErrorNegative_of_nonneg (left right : Option Resource) (hl : ∀ k, 0 ≤ (orZero left).get k) :
    (∀ k, (orZero (subEliminateNegative left right)).get k = max 0 ((orZero (sub left right)).get k)) ∧
    ((subErrorNegative left right).2.isSome ↔ ∃ k, (orZero (sub left right)).get k < 0) := by
  have hoff : ∀ k, k ∉ (orZero right).resources → (orZero (sub left right)).get k = (orZero left).get k :=
    fun k hk => by rw [sub, get_combine, if_neg hk]
  refine ⟨fun k => ?_, (subErrorNegative_isSome_iff left right).trans
    ⟨fun ⟨k, _, h⟩ => ⟨k, h⟩, fun ⟨k, h⟩ => ⟨k, by_contra fun hk => ?_, h⟩⟩⟩
  · rw [get_subEliminateNegative]
    split_ifs with hk
    · rfl
    · rw [hoff k hk, max_eq_right (hl k)]
  · exact absurd (hoff k hk ▸ h) (not_lt.mpr (hl k))

/-- `{x: 1}` minus `{x: 2}`. -/
theorem subErrorNegative_of_nonneg_small :
    (∀ k, 0 ≤ (orZero (some (newResource.set "x" ⟨1, by decide, by decide⟩))).get k) ∧
    (∀ k, (orZero (subEliminateNegative (some (newResource.set "x" ⟨1, by decide, by decide⟩))
        (some (newResource.set "x" ⟨2, by decide, by decide⟩)))).get k =
      max 0 ((orZero (sub (some (newResource.set "x" ⟨1, by decide, by decide⟩))
        (some (newResource.set "x" ⟨2, by decide, by decide⟩)))).get k)) ∧
    ((subErrorNegative (some (newResource.set "x" ⟨1, by decide, by decide⟩))
        (some (newResource.set "x" ⟨2, by decide, by decide⟩))).2.isSome ↔
      ∃ k, (orZero (sub (some (newResource.set "x" ⟨1, by decide, by decide⟩))
        (some (newResource.set "x" ⟨2, by decide, by decide⟩)))).get k < 0) := by
  have hl : ∀ k, 0 ≤ (orZero (some (newResource.set "x" ⟨1, by decide, by decide⟩))).get k :=
    fun k => by rw [orZero_some, get_set]; split_ifs; exacts [by decide, le_refl 0]
  exact ⟨hl, subErrorNegative_of_nonneg _ _ hl⟩

/-- **A value of `left` at a type `right` does not define is neither clamped
nor reported.** For every `v`, `SubErrorNegative({x: v}, {y: 0})` and
`SubErrorNegative({x: v}, nil)` return `v` at `x`, as `Sub` does, with no
error; for a negative `v` the function's own contract asks for `0` and an
error. -/
theorem subErrorNegative_left_negative (v : Quantity) :
    (orZero (sub (some (newResource.set "x" v)) (some (newResource.set "y" 0)))).get "x" = v ∧
    (orZero (subErrorNegative (some (newResource.set "x" v)) (some (newResource.set "y" 0))).1).get "x" = v ∧
    (subErrorNegative (some (newResource.set "x" v)) (some (newResource.set "y" 0))).2 = none ∧
    (orZero (subErrorNegative (some (newResource.set "x" v)) none).1).get "x" = v ∧
    (subErrorNegative (some (newResource.set "x" v)) none).2 = none := by
  have hpass : ∀ right : Option Resource, "x" ∉ (orZero right).resources →
      (orZero (sub (some (newResource.set "x" v)) right)).get "x" = v ∧
      (orZero (subErrorNegative (some (newResource.set "x" v)) right).1).get "x" = v := fun right hr => by
    have hsub : (orZero (sub (some (newResource.set "x" v)) right)).get "x" = v := by
      rw [sub, get_combine, if_neg hr, orZero_some, get_set_self]
    exact ⟨hsub, (get_subEliminateNegative _ right "x").trans (by rw [if_neg hr, hsub])⟩
  have hy : "x" ∉ (orZero (some (newResource.set "y" 0))).resources := by
    simp only [orZero_some, newResource, Resource.set, AList.mem_insert, AList.not_mem_empty, or_false]
    decide
  have herr : (subErrorNegative (some (newResource.set "x" v)) (some (newResource.set "y" 0))).2 = none := by
    rw [← Option.not_isSome_iff_eq_none, subErrorNegative_isSome_iff]
    rintro ⟨k, hk, hneg⟩
    obtain rfl : k = "y" := by
      simpa only [orZero_some, newResource, Resource.set, AList.mem_insert, AList.not_mem_empty, or_false] using hk
    simp [sub, get_combine, hk, get_set, subVal_zero] at hneg
  exact ⟨(hpass _ hy).1, (hpass _ hy).2, herr, (hpass none (not_mem_zero _)).2, rfl⟩

/-! ### The message of `subNonNegative`, in every iteration order -/

/-- What the message of `subNonNegative` says about the types `ks`, named in
order: nothing for none, otherwise the prefix and the names joined by `", "`. -/
def negativeText (ks : List String) : String :=
  if ks = [] then "" else "resource quantity less than zero for: " ++ ", ".intercalate ks

theorem foldl_negativeMessage_of_ne (ks : List String) {acc : String} (hacc : acc ≠ "") :
    ks.foldl negativeMessage acc = String.intercalate.go acc ", " ks := by
  induction ks generalizing acc with
  | nil => rfl
  | cons k ks ih =>
    have hstep : negativeMessage acc k = acc ++ ", " ++ k := if_neg hacc
    rw [List.foldl_cons, ih (negativeMessage_ne_empty acc k), hstep]
    rfl

theorem intercalate_go_append (a b s : String) (ks : List String) :
    String.intercalate.go (a ++ b) s ks = a ++ String.intercalate.go b s ks := by
  induction ks generalizing b with
  | nil => rfl
  | cons k ks ih => simp only [String.intercalate.go, String.append_assoc, ← ih]

/-- Naming the types one by one builds `negativeText`. -/
theorem foldl_negativeMessage (ks : List String) : ks.foldl negativeMessage "" = negativeText ks := by
  cases ks with
  | nil => rfl
  | cons k ks =>
    rw [List.foldl_cons, foldl_negativeMessage_of_ne ks (negativeMessage_ne_empty "" k)]
    exact intercalate_go_append _ k _ ks

/-- The loop's message names, in the order visited, the types whose
difference is negative; the keys are distinct, so each is read before it is
written. -/
theorem foldl_subNonNegativeStep_snd_eq (es : List (Σ _ : String, Quantity)) (hes : es.NodupKeys)
    (acc : Resource × String) :
    (es.foldl subNonNegativeStep acc).2 =
      ((es.filter fun e => subVal (acc.1.get e.1) e.2 < 0).map Sigma.fst).foldl negativeMessage acc.2 := by
  induction es generalizing acc with
  | nil => rfl
  | cons e es ih =>
    obtain ⟨he, hes⟩ := List.nodupKeys_cons.mp hes
    have hrest : (es.filter fun e' => subVal ((subNonNegativeStep acc e).1.get e'.1) e'.2 < 0) =
        es.filter fun e' => subVal (acc.1.get e'.1) e'.2 < 0 := by
      refine List.filter_congr fun e' he' => ?_
      rw [subNonNegativeStep_eq, get_set_ne]
      exact fun h => he (h ▸ List.mem_keys_of_mem he')
    rw [List.foldl_cons, ih hes, hrest, List.filter_cons, subNonNegativeStep_eq]
    by_cases h : subVal (acc.1.get e.1) e.2 < 0 <;> simp [h]

/-- The loop in any order of the types of `right`: the same clamped resource,
and the message naming the types at which `Sub` is negative, in the order
visited. -/
theorem foldl_subNonNegativeStep_perm (left : Option Resource) (right : Resource)
    {order : List (Σ _ : String, Quantity)} (horder : order.Perm right.resources.entries) :
    (∀ k, (order.foldl subNonNegativeStep ((orZero left).clone, "")).1.resources.lookup k =
      (orZero (subEliminateNegative left (some right))).resources.lookup k) ∧
    (order.foldl subNonNegativeStep ((orZero left).clone, "")).2 =
      negativeText ((order.filter fun e => (orZero (sub left (some right))).get e.1 < 0).map Sigma.fst) := by
  have hnd : order.NodupKeys := (List.perm_nodupKeys horder).mpr right.resources.nodupKeys
  refine ⟨fun k => ?_, ?_⟩
  · rw [foldl_subNonNegativeStep_fst, lookup_foldl_set (fun _ o v => max 0 (subVal o v)) _ _ hnd,
      subEliminateNegative_eq, orZero_some, applyEach, orZero_some,
      lookup_foldl_set (fun _ o v => max 0 (subVal o v)) _ _ right.resources.nodupKeys,
      List.perm_dlookup k hnd right.resources.nodupKeys horder]
  · rw [foldl_subNonNegativeStep_snd_eq order hnd, foldl_negativeMessage]
    congr 2
    refine List.filter_congr fun e he => ?_
    have he := horder.subset he
    rw [get_clone, sub, get_combine, orZero_some,
      if_pos (show e.1 ∈ right.resources from AList.mem_keys.mp (List.mem_keys_of_mem he)),
      get_of_mem_entries he]

/-- **The error names exactly the types that go negative, in every
iteration order.** Whatever order the loop visits the types of `right` in, it
returns the same clamped resource, and its message is empty when no
difference is negative, and otherwise the prefix followed by the types at
which `Sub` is negative, each once, joined by `", "` in the order visited; in
particular for the map's own order. -/
theorem subNonNegative_message (left : Option Resource) (right : Resource) :
    (∀ order : List (Σ _ : String, Quantity), order.Perm right.resources.entries →
      (∀ k, (order.foldl subNonNegativeStep ((orZero left).clone, "")).1.resources.lookup k =
        (orZero (subEliminateNegative left (some right))).resources.lookup k) ∧
      (order.foldl subNonNegativeStep ((orZero left).clone, "")).2 =
        negativeText ((order.filter fun e => (orZero (sub left (some right))).get e.1 < 0).map Sigma.fst)) ∧
    (subNonNegative left (some right)).2 =
      negativeText ((right.resources.entries.filter fun e =>
        (orZero (sub left (some right))).get e.1 < 0).map Sigma.fst) :=
  ⟨fun _ horder => foldl_subNonNegativeStep_perm left right horder,
    (foldl_subNonNegativeStep_perm left right (List.Perm.refl _)).2⟩

/-! ### `Multiply` and the component-wise functions -/

/-- `Multiply`: a new resource, empty for a `nil` base or a zero ratio. -/
def multiply (base : Option Resource) (ratio : Quantity) : Option Resource :=
  match base with
  | none => some newResource
  | some base =>
    if ratio = 0 then some newResource
    else some (newResource.applyEach (fun _ _ v => mulVal v ratio) base)

theorem multiply_some (b : Resource) {n : Quantity} (hn : n ≠ 0) :
    multiply (some b) n = some (newResource.applyEach (fun _ _ v => mulVal v n) b) := by
  simp [multiply, hn]

/-- **`Multiply` is exact-then-clamped.** For a non-zero ratio the result has
the types of the base and, at each, the exact product clamped to the range;
in particular `MinInt64 * -1` and `-1 * MinInt64` give `MaxInt64`. A zero
ratio or a `nil` base gives the empty resource. -/
theorem multiply_exact_then_clamped :
    (∀ (base : Option Resource) (n : Quantity), n ≠ 0 → ∃ out, multiply base n = some out ∧
      (∀ k, k ∈ out.resources ↔ k ∈ (orZero base).resources) ∧
      ∀ k, out.get k = clamp (((orZero base).get k).val * n.val)) ∧
    mulVal minQuantity ⟨-1, by decide, by decide⟩ = maxQuantity ∧
    mulVal ⟨-1, by decide, by decide⟩ minQuantity = maxQuantity ∧
    (∀ base : Option Resource, multiply base 0 = some newResource) ∧
    (∀ n : Quantity, multiply none n = some newResource) := by
  refine ⟨fun base n hn => ?_, by rw [mulVal_eq_clamp]; rfl, by rw [mulVal_eq_clamp]; rfl,
    fun base => by cases base <;> simp [multiply], fun n => rfl⟩
  cases base with
  | none => exact ⟨newResource, rfl, fun k => by simp [newResource, AList.not_mem_empty],
      fun k => by ext; simp⟩
  | some b =>
    refine ⟨_, multiply_some b hn, fun k => ?_, fun k => ?_⟩
    · simp [mem_applyEach, newResource, AList.not_mem_empty]
    · rw [get_applyEach, orZero_some]
      split_ifs with hk
      · exact mulVal_eq_clamp _ _
      · rw [get_of_not_mem hk]; ext; simp

/-- `ComponentWiseMin`: `nil` for two `nil`s, a clone of the other for one;
otherwise the smaller value at each type of either, a type of one only keeping
its value. -/
def componentWiseMin (left right : Option Resource) : Option Resource :=
  match left, right with
  | none, none => none
  | none, right => clone right
  | left, none => clone left
  | some left, some right =>
    let pick (other : Resource) (k : String) (v : Quantity) : Quantity :=
      match other.resources.lookup k with
      | some val => min v val
      | none => v
    some ((newResource.applyEach (fun k _ v => pick right k v) left).applyEach
      (fun k _ v => pick left k v) right)

/-- `ComponentWiseMax`: an empty resource unless both are set; then the larger
of the two values at each type of either, an absent type counting as `0`. -/
def componentWiseMax (left right : Option Resource) : Option Resource :=
  match left, right with
  | some left, some right =>
    some ((newResource.applyEach (fun k _ v => max v (right.get k)) left).applyEach
      (fun k _ v => max v (left.get k)) right)
  | _, _ => some newResource

/-- `ComponentWiseMinOnlyExisting`: the smaller value at each type of `left`. -/
def componentWiseMinOnlyExisting (left right : Option Resource) : Option Resource :=
  match left, right with
  | none, _ => none
  | left, none => clone left
  | some left, some right =>
    some (newResource.applyEach
      (fun k _ v => match right.resources.lookup k with
        | some val => min v val
        | none => v) left)

/-- `MergeIfNotPresent`: a clone of `left`, with the types of `right` that
`left` does not define. -/
def mergeIfNotPresent (left right : Option Resource) : Option Resource :=
  match left, right with
  | none, none => none
  | none, right => clone right
  | left, none => clone left
  | some left, some right =>
    some (right.resources.entries.foldl
      (fun out e => if (left.resources.lookup e.1).isSome then out else out.set e.1 e.2) left.clone)

end Resources
