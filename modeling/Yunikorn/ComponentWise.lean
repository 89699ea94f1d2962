/-
# The component-wise functions: `ComponentWiseMin` is a meet up to `DeepEquals`

`ComponentWiseMin` returns `nil` for two `nil`s and a clone of the other for
one; otherwise it writes the types of `left`, then those of `right`, taking the
smaller value where both define the type. So a type of the result is defined
exactly when one side defines it, with the smaller value where both do: its
map reads are `Option.merge min` of the two sides' reads
(`lookupOpt_componentWiseMin`). `DeepEquals` compares two resources through
their map reads (`deepEquals_iff_lookupOpt`), so `ComponentWiseMin` inherits
the laws of `min`: it is commutative, associative and idempotent with `nil` as
identity (`componentWiseMin_monoid`).

The other component-wise functions read the same way. `ComponentWiseMax`
counts an absent type as `0`, so it is the pointwise `max` of the sparse
readings (`get_componentWiseMax`), and the empty resource when either side is
`nil`. `ComponentWiseMinOnlyExisting` is `ComponentWiseMin` at the types of
`left` only (`lookupOpt_componentWiseMinOnlyExisting`), and `MergeIfNotPresent`
reads `left`, then `right` (`lookupOpt_mergeIfNotPresent`).

So `MergeIfNotPresent` inherits the laws of `<|>`: it is associative and
idempotent with `nil` as identity (`mergeIfNotPresent_monoid`), and
`ComponentWiseMax` those of `max` on set resources, where the empty resource
is an identity only for a resource without negative values
(`componentWiseMax_semilattice`).

Key definitions: `lookupOpt`.
Key theorems: `lookupOpt_componentWiseMin`, `deepEquals_iff_lookupOpt`, `componentWiseMin_monoid`,
`get_componentWiseMax`, `lookupOpt_componentWiseMinOnlyExisting`, `lookupOpt_mergeIfNotPresent`,
`mergeIfNotPresent_monoid`, `componentWiseMax_semilattice`.
-/
import Yunikorn.Algebra

namespace Resources

open Resource

/-- The map read `r.Resources[k]` with its `ok` flag, on a resource that may be
`nil`: `none` for `nil` or an undefined type. -/
def lookupOpt (p : Option Resource) (k : String) : Option Quantity :=
  p.bind fun r => r.resources.lookup k

@[simp] theorem lookupOpt_none (k : String) : lookupOpt none k = none := rfl

@[simp] theorem lookupOpt_some (r : Resource) (k : String) :
    lookupOpt (some r) k = r.resources.lookup k := rfl

theorem lookupOpt_clone (p : Option Resource) (k : String) : lookupOpt (clone p) k = lookupOpt p k := by
  cases p <;> simp [clone, lookup_clone]

/-- **`DeepEquals` compares map reads**: both `nil`, or both set with the same
read at every type. -/
theorem deepEquals_iff_lookupOpt (p q : Option Resource) :
    deepEquals p q = true ↔ p.isSome = q.isSome ∧ ∀ k, lookupOpt p k = lookupOpt q k := by
  match p, q with
  | some p, some q => rw [deepEquals_iff]; simp
  | none, none | none, some _ | some _, none => simp [deepEquals]

/-! ### The two loops -/

theorem isSome_componentWiseMin (a b : Option Resource) :
    (componentWiseMin a b).isSome = (a.isSome || b.isSome) := by
  cases a <;> cases b <;> rfl

@[simp] theorem merge_min_none_left (x : Option Quantity) : (none : Option Quantity).merge min x = x := by
  cases x <;> rfl

@[simp] theorem merge_min_none_right (x : Option Quantity) : x.merge min none = x := by
  cases x <;> rfl

/-- Each type of `ComponentWiseMin` is read as the smaller of the two sides'
values where both define it, and as the one defined value otherwise. -/
theorem lookupOpt_componentWiseMin (a b : Option Resource) (k : String) :
    lookupOpt (componentWiseMin a b) k = (lookupOpt a k).merge min (lookupOpt b k) := by
  match a, b with
  | none, none => rfl
  | none, some r => simp [componentWiseMin, lookupOpt_clone]
  | some l, none => simp [componentWiseMin, lookupOpt_clone]
  | some l, some r =>
    have hread : ∀ s : Resource, s.resources.lookup k = if k ∈ s.resources then some (s.get k) else none :=
      fun s => by split_ifs with h; exacts [lookup_of_mem h, AList.lookup_eq_none.mpr h]
    simp only [componentWiseMin, lookupOpt_some, lookup_applyEach, hread l, hread r, get_newResource]
    by_cases hl : k ∈ l.resources <;> by_cases hr : k ∈ r.resources <;>
      simp [hl, hr, newResource, Option.merge, min_comm]

/-! ### The laws of `min` -/

theorem merge_min_comm (x y : Option Quantity) : x.merge min y = y.merge min x := by
  cases x <;> cases y <;> simp [Option.merge, min_comm]

theorem merge_min_assoc (x y z : Option Quantity) :
    (x.merge min y).merge min z = x.merge min (y.merge min z) := by
  cases x <;> cases y <;> cases z <;> simp [Option.merge, min_assoc]

theorem merge_min_self (x : Option Quantity) : x.merge min x = x := by
  cases x <;> simp [Option.merge]

/-- **`ComponentWiseMin` is a commutative idempotent monoid with identity
`nil`, up to `DeepEquals`.** A headroom folded with it over a queue hierarchy
is the same in any grouping and order. -/
theorem componentWiseMin_monoid :
    (∀ a b : Option Resource, deepEquals (componentWiseMin a b) (componentWiseMin b a) = true) ∧
    (∀ a b c : Option Resource, deepEquals (componentWiseMin (componentWiseMin a b) c)
      (componentWiseMin a (componentWiseMin b c)) = true) ∧
    (∀ a : Option Resource, deepEquals (componentWiseMin a a) a = true) ∧
    (∀ a : Option Resource, deepEquals (componentWiseMin none a) a = true) := by
  simp only [deepEquals_iff_lookupOpt, isSome_componentWiseMin, lookupOpt_componentWiseMin]
  exact ⟨fun a b => ⟨Bool.or_comm _ _, fun k => merge_min_comm _ _⟩,
    fun a b c => ⟨Bool.or_assoc _ _ _, fun k => merge_min_assoc _ _ _⟩,
    fun a => ⟨Bool.or_self _, fun k => merge_min_self _⟩,
    fun a => ⟨Bool.false_or _, fun k => merge_min_none_left _⟩⟩

/-! ### `ComponentWiseMax`, `ComponentWiseMinOnlyExisting` and `MergeIfNotPresent` -/

/-- `ComponentWiseMax` of two set resources has the types of either, each at
the larger value, an absent type counting as `0`. -/
theorem get_componentWiseMax (l r : Resource) (k : String) :
    (orZero (componentWiseMax (some l) (some r))).get k = max (l.get k) (r.get k) := by
  simp only [componentWiseMax, orZero_some, get_applyEach, get_newResource]
  split_ifs with hr hl
  · exact max_comm _ _
  · rfl
  · rw [get_of_not_mem hl, get_of_not_mem hr]; rfl

theorem mem_componentWiseMax (l r : Resource) (k : String) :
    k ∈ (orZero (componentWiseMax (some l) (some r))).resources ↔ k ∈ l.resources ∨ k ∈ r.resources := by
  simp [componentWiseMax, mem_applyEach, newResource, AList.not_mem_empty]

/-- `ComponentWiseMinOnlyExisting` reads as `ComponentWiseMin` at the types of
`left`, and as undefined elsewhere. -/
theorem lookupOpt_componentWiseMinOnlyExisting (a b : Option Resource) (k : String) :
    lookupOpt (componentWiseMinOnlyExisting a b) k =
      if (lookupOpt a k).isSome then (lookupOpt a k).merge min (lookupOpt b k) else none := by
  match a, b with
  | none, _ => simp [componentWiseMinOnlyExisting]
  | some l, none => simp [componentWiseMinOnlyExisting, lookupOpt_clone]; cases l.resources.lookup k <;> rfl
  | some l, some r =>
    simp only [componentWiseMinOnlyExisting, lookupOpt_some, lookup_applyEach]
    by_cases hl : k ∈ l.resources
    · rw [if_pos hl, lookup_of_mem hl]
      cases r.resources.lookup k <;> rfl
    · rw [if_neg hl, AList.lookup_eq_none.mpr hl]; rfl

/-- The loop of `MergeIfNotPresent`: a type of `left` keeps what it read, any
other type reads the entry of the loop, if there is one. -/
theorem lookup_foldl_mergeStep (left : Resource) :
    ∀ (es : List (Σ _ : String, Quantity)) (out : Resource), es.NodupKeys → ∀ k,
      (es.foldl (fun out e => if (left.resources.lookup e.1).isSome then out else out.set e.1 e.2)
        out).resources.lookup k =
        if k ∈ left.resources then out.resources.lookup k else (es.dlookup k <|> out.resources.lookup k)
  | [], out, _, k => by split_ifs <;> rfl
  | ⟨k', v'⟩ :: es, out, hnd, k => by
    obtain ⟨hk', hnd⟩ := List.nodupKeys_cons.mp hnd
    rw [List.foldl_cons, lookup_foldl_mergeStep left es _ hnd k]
    by_cases hl' : k' ∈ left.resources
    · have hne : ∀ (h : k ∉ left.resources), k ≠ k' := fun h he => h (he ▸ hl')
      simp only [AList.lookup_isSome.mpr hl', if_true]
      split_ifs with hl
      · rfl
      · rw [List.dlookup_cons_ne es ⟨k', v'⟩ (hne hl)]
    · simp only [AList.lookup_isSome, hl', if_false, Resource.set]
      by_cases hk : k = k'
      · subst hk
        simp [hl', List.dlookup_eq_none.mpr hk', AList.lookup_insert, List.dlookup_cons_eq]
      · simp [AList.lookup_insert_ne hk, List.dlookup_cons_ne es ⟨k', v'⟩ hk]

/-- `MergeIfNotPresent` reads `left`, and `right` where `left` does not define
the type. -/
theorem lookupOpt_mergeIfNotPresent (a b : Option Resource) (k : String) :
    lookupOpt (mergeIfNotPresent a b) k = (lookupOpt a k <|> lookupOpt b k) := by
  match a, b with
  | none, none => rfl
  | none, some r => simp [mergeIfNotPresent, lookupOpt_clone]
  | some l, none => simp [mergeIfNotPresent, lookupOpt_clone]
  | some l, some r =>
    simp only [mergeIfNotPresent, lookupOpt_some]
    rw [lookup_foldl_mergeStep l _ _ r.resources.nodupKeys, lookup_clone]
    split_ifs with hl
    · rw [lookup_of_mem hl]; rfl
    · rw [AList.lookup_eq_none.mpr hl, Option.orElse_none]; rfl

/-! ### The laws of `MergeIfNotPresent` and `ComponentWiseMax` -/

theorem orElse_assoc (x y z : Option Quantity) : ((x <|> y) <|> z) = (x <|> (y <|> z)) := by
  cases x <;> rfl

theorem orElse_self (x : Option Quantity) : (x <|> x) = x := by
  cases x <;> rfl

theorem isSome_mergeIfNotPresent (a b : Option Resource) :
    (mergeIfNotPresent a b).isSome = (a.isSome || b.isSome) := by
  cases a <;> cases b <;> rfl

/-- **`MergeIfNotPresent` is an idempotent monoid with identity `nil`, up to
`DeepEquals`**: merging several resources gives the same result in any
grouping, each type taking its value from the first resource that defines
it. -/
theorem mergeIfNotPresent_monoid :
    (∀ a b c : Option Resource, deepEquals (mergeIfNotPresent (mergeIfNotPresent a b) c)
      (mergeIfNotPresent a (mergeIfNotPresent b c)) = true) ∧
    (∀ a : Option Resource, deepEquals (mergeIfNotPresent a a) a = true) ∧
    (∀ a : Option Resource, deepEquals (mergeIfNotPresent none a) a = true ∧
      deepEquals (mergeIfNotPresent a none) a = true) := by
  simp only [deepEquals_iff_lookupOpt, isSome_mergeIfNotPresent, lookupOpt_mergeIfNotPresent]
  exact ⟨fun a b c => ⟨Bool.or_assoc _ _ _, fun k => orElse_assoc _ _ _⟩,
    fun a => ⟨Bool.or_self _, fun k => orElse_self _⟩,
    fun a => ⟨⟨Bool.false_or _, fun k => Option.none_orElse _⟩, ⟨Bool.or_false _, fun k => Option.orElse_none _⟩⟩⟩

/-- `ComponentWiseMax` of two set resources: the types of either, each at the
larger value. -/
theorem componentWiseMax_spec (l r : Resource) :
    ∃ m, componentWiseMax (some l) (some r) = some m ∧
      (∀ k, k ∈ m.resources ↔ k ∈ l.resources ∨ k ∈ r.resources) ∧ ∀ k, m.get k = max (l.get k) (r.get k) :=
  ⟨_, rfl, mem_componentWiseMax l r, get_componentWiseMax l r⟩

/-- **`ComponentWiseMax` is a semilattice on set resources, up to
`DeepEquals`**: commutative, associative and idempotent. The empty resource
is an identity only for a resource with no negative value, since an absent
type counts as `0`. -/
theorem componentWiseMax_semilattice :
    (∀ a b : Resource, deepEquals (componentWiseMax (some a) (some b)) (componentWiseMax (some b) (some a)) = true) ∧
    (∀ a b c : Resource, deepEquals (componentWiseMax (componentWiseMax (some a) (some b)) (some c))
      (componentWiseMax (some a) (componentWiseMax (some b) (some c))) = true) ∧
    (∀ a : Resource, deepEquals (componentWiseMax (some a) (some a)) (some a) = true) ∧
    (∀ a : Resource, deepEquals (componentWiseMax (some a) (some newResource)) (some a) = true ↔
      ∀ k, 0 ≤ a.get k) := by
  refine ⟨fun a b => ?_, fun a b c => ?_, fun a => ?_, fun a => ?_⟩
  · obtain ⟨ab, hab, hab1, hab2⟩ := componentWiseMax_spec a b
    obtain ⟨ba, hba, hba1, hba2⟩ := componentWiseMax_spec b a
    rw [hab, hba, deepEquals_iff']
    exact ⟨fun k => by rw [hab1, hba1, or_comm], fun k => by rw [hab2, hba2, max_comm]⟩
  · obtain ⟨ab, hab, hab1, hab2⟩ := componentWiseMax_spec a b
    obtain ⟨bc, hbc, hbc1, hbc2⟩ := componentWiseMax_spec b c
    obtain ⟨l, hl, hl1, hl2⟩ := componentWiseMax_spec ab c
    obtain ⟨r, hr, hr1, hr2⟩ := componentWiseMax_spec a bc
    rw [hab, hbc, hl, hr, deepEquals_iff']
    exact ⟨fun k => by rw [hl1, hr1, hab1, hbc1, or_assoc], fun k => by rw [hl2, hr2, hab2, hbc2, max_assoc]⟩
  · obtain ⟨aa, haa, haa1, haa2⟩ := componentWiseMax_spec a a
    rw [haa, deepEquals_iff']
    exact ⟨fun k => by rw [haa1, or_self], fun k => by rw [haa2, max_self]⟩
  · obtain ⟨m, hm, hm1, hm2⟩ := componentWiseMax_spec a newResource
    rw [hm, deepEquals_iff']
    simp only [hm1, hm2, get_newResource, newResource, AList.not_mem_empty, or_false, iff_self, implies_true,
      true_and]
    exact ⟨fun h k => (h k) ▸ le_max_right _ _, fun h k => max_eq_left (h k)⟩

end Resources
