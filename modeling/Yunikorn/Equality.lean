/-
# The emptiness and equality predicates

`IsEmpty`, `IsZero`, `HasNegativeValue`, `Equals`, `DeepEquals` and
`EqualsOrEmpty` as the source computes them: each is a loop over one or two
maps with an early `return false`, here `List.all` over the entries.

Against the sparse reading of a resource (an absent type counts as `0`, `nil`
as `Zero`): `Equals` of two non-`nil` resources is pointwise equality
(`equals_iff`), `EqualsOrEmpty` is pointwise equality with `nil` allowed
(`equalsOrEmpty_iff`), and `DeepEquals` compares the maps themselves, key sets
included (`deepEquals_iff`). Pruning the zero entries turns the first into
the last (`equals_iff_pointwise_iff_deepEquals_prune`).

`MatchAny` also has a pointer shortcut, `r == other`, here the flag `same`.

Key definitions: `isZero`, `equals`, `deepEquals`, `equalsOrEmpty`, `matchAny`.
Key theorems: `equals_iff`, `deepEquals_iff`, `equalsOrEmpty_iff`.
-/
import Yunikorn.Resource

namespace Resources

open Resource

/-- `IsEmpty`: `nil` or no types defined. -/
def isEmpty : Option Resource → Bool
  | none => true
  | some r => r.resources.entries.length = 0

/-- `IsZero`: `nil`, or every defined value is `0`. -/
def isZero : Option Resource → Bool
  | none => true
  | some r => r.resources.entries.all fun e => e.2 = 0

/-- `HasNegativeValue`. -/
def hasNegativeValue : Option Resource → Bool
  | none => false
  | some r => r.resources.entries.any fun e => e.2 < 0

/-- `Equals`: both loops compare `m[k]`, which reads an absent type as `0`.
The source's shortcut `left == right` on the pointers returns what the loops
return for a resource against itself (`equals_iff`). -/
def equals : Option Resource → Option Resource → Bool
  | none, none => true
  | some left, some right =>
    (left.resources.entries.all fun e => right.get e.1 = e.2) &&
      right.resources.entries.all fun e => left.get e.1 = e.2
  | _, _ => false

/-- `DeepEquals`: the same number of entries, and every entry of `left` is an
entry of `right`. -/
def deepEquals : Option Resource → Option Resource → Bool
  | none, none => true
  | some left, some right =>
    right.resources.entries.length = left.resources.entries.length &&
      left.resources.entries.all fun e =>
        match right.resources.lookup e.1 with
        | some val => val = e.2
        | none => false
  | _, _ => false

/-- `EqualsOrEmpty`: equal when both are zero, otherwise `Equals`. -/
def equalsOrEmpty (left right : Option Resource) : Bool :=
  (isZero left && isZero right) || equals left right

/-! ### The predicates, pointwise -/

theorem forall_mem_iff {r : Resource} {P : String → Quantity → Prop} (h0 : ∀ k, P k 0) :
    (∀ k ∈ r.resources, P k (r.get k)) ↔ ∀ k, P k (r.get k) := by
  refine ⟨fun h k => ?_, fun h k _ => h k⟩
  by_cases hk : k ∈ r.resources
  · exact h k hk
  · rw [get_of_not_mem hk]; exact h0 k

theorem exists_mem_iff {r : Resource} {P : String → Quantity → Prop} (h0 : ∀ k, ¬P k 0) :
    (∃ k ∈ r.resources, P k (r.get k)) ↔ ∃ k, P k (r.get k) := by
  refine ⟨fun ⟨k, _, hk⟩ => ⟨k, hk⟩, fun ⟨k, hk⟩ => ⟨k, ?_, hk⟩⟩
  by_contra hm
  rw [get_of_not_mem hm] at hk
  exact h0 k hk

theorem isZero_iff (p : Option Resource) : isZero p = true ↔ ∀ k, (orZero p).get k = 0 := by
  cases p with
  | none => simp [isZero]
  | some r =>
    simp only [isZero, orZero_some]
    rw [all_entries_iff r fun _ v => decide (v = 0)]
    simpa using forall_mem_iff (P := fun _ v => v = 0) (fun _ => rfl)

theorem hasNegativeValue_iff (p : Option Resource) :
    hasNegativeValue p = true ↔ ∃ k, (orZero p).get k < 0 := by
  cases p with
  | none => simp [hasNegativeValue]
  | some r =>
    simp only [hasNegativeValue, orZero_some]
    rw [any_entries_iff r fun _ v => decide (v < 0)]
    simpa using exists_mem_iff (P := fun _ v => v < 0) fun _ => lt_irrefl 0

/-- **`Equals` is pointwise equality** on non-`nil` resources. -/
theorem equals_iff (a b : Resource) : equals (some a) (some b) = true ↔ ∀ k, a.get k = b.get k := by
  simp only [equals, Bool.and_eq_true]
  rw [all_entries_iff a fun k v => decide (b.get k = v), all_entries_iff b fun k v => decide (a.get k = v),
    forall_iff_forall_mem₂ a b (P := fun k => a.get k = b.get k) fun k ha hb =>
      (get_of_not_mem ha).trans (get_of_not_mem hb).symm]
  simp only [decide_eq_true_eq, eq_comm (a := b.get _)]

theorem equalsOrEmpty_iff (p q : Option Resource) :
    equalsOrEmpty p q = true ↔ ∀ k, (orZero p).get k = (orZero q).get k := by
  have hz := isZero_iff p
  have hz' := isZero_iff q
  cases p <;> cases q
  · simp [equalsOrEmpty, isZero]
  · simp only [equalsOrEmpty, equals, Bool.or_false, Bool.and_eq_true, hz, hz', orZero_none, get_zero]
    simp [eq_comm]
  · simp [equalsOrEmpty, equals, hz, hz']
  · simp only [equalsOrEmpty, Bool.or_eq_true, Bool.and_eq_true, hz, hz', orZero_some, equals_iff]
    constructor
    · rintro (⟨ha, hb⟩ | h) k
      · rw [ha k, hb k]
      · exact h k
    · exact Or.inr

/-- Two maps with the same lookups: the same types, with the same values. -/
theorem lookup_eq_iff (a b : Resource) :
    (∀ k, a.resources.lookup k = b.resources.lookup k) ↔
      (∀ k, k ∈ a.resources ↔ k ∈ b.resources) ∧ ∀ k, a.get k = b.get k := by
  constructor
  · intro h
    refine ⟨fun k => ?_, fun k => by simp [Resource.get, h k]⟩
    rw [← AList.lookup_isSome, ← AList.lookup_isSome, h k]
  · rintro ⟨hm, hv⟩ k
    by_cases hk : k ∈ a.resources
    · rw [lookup_of_mem hk, lookup_of_mem ((hm k).mp hk), hv k]
    · rw [AList.lookup_eq_none.mpr hk, AList.lookup_eq_none.mpr (mt (hm k).mpr hk)]

/-- **`DeepEquals` compares the maps**: the same lookup at every type. -/
theorem deepEquals_iff (a b : Resource) :
    deepEquals (some a) (some b) = true ↔ ∀ k, a.resources.lookup k = b.resources.lookup k := by
  have hloop : (a.resources.entries.all fun e =>
      match b.resources.lookup e.1 with
      | some val => decide (val = e.2)
      | none => false) = true ↔ ∀ k ∈ a.resources, b.resources.lookup k = some (a.get k) := by
    rw [all_entries_iff a fun k v => match b.resources.lookup k with
      | some val => decide (val = v)
      | none => false]
    refine forall₂_congr fun k _ => ?_
    cases b.resources.lookup k <;> simp [eq_comm]
  have hkeys : ∀ r : Resource, r.resources.entries.length = r.resources.keys.length :=
    fun r => (List.length_map _ _).symm
  simp only [deepEquals, Bool.and_eq_true, decide_eq_true_eq, hloop, hkeys]
  constructor
  · rintro ⟨hlen, hsub⟩
    have hsub' : a.resources.keys ⊆ b.resources.keys := fun k hk =>
      AList.mem_keys.mp (AList.lookup_isSome.mp (by simp [hsub k (AList.mem_keys.mpr hk)]))
    have hperm := (List.subperm_of_subset a.resources.keys_nodup hsub').perm_of_length_le hlen.le
    intro k
    by_cases hk : k ∈ a.resources
    · rw [hsub k hk, lookup_of_mem hk]
    · have hkb : k ∉ b.resources := fun h =>
        hk (AList.mem_keys.mpr (hperm.mem_iff.mpr (AList.mem_keys.mp h)))
      rw [AList.lookup_eq_none.mpr hk, AList.lookup_eq_none.mpr hkb]
  · intro h
    obtain ⟨hm, -⟩ := (lookup_eq_iff a b).mp h
    refine ⟨?_, fun k hk => by rw [← h k, lookup_of_mem hk]⟩
    refine ((List.perm_ext_iff_of_nodup a.resources.keys_nodup b.resources.keys_nodup).mpr
      fun k => ?_).length_eq.symm
    simpa only [AList.mem_keys] using hm k

theorem deepEquals_iff' (a b : Resource) :
    deepEquals (some a) (some b) = true ↔
      (∀ k, k ∈ a.resources ↔ k ∈ b.resources) ∧ ∀ k, a.get k = b.get k :=
  (deepEquals_iff a b).trans (lookup_eq_iff a b)

/-! ### Equality after pruning -/

/-- **The equality notions agree with the sparse reading.** `Equals` of
non-`nil` resources is pointwise equality, which is `DeepEquals` of pruned
clones; `EqualsOrEmpty` is pointwise equality with `nil` read as empty; and
`Equals` is an equivalence on non-`nil` resources. -/
theorem equals_iff_pointwise_iff_deepEquals_prune :
    (∀ a b : Resource,
      (equals (some a) (some b) = true ↔ ∀ k, a.get k = b.get k) ∧
      ((∀ k, a.get k = b.get k) ↔ deepEquals (prune (clone (some a))) (prune (clone (some b))) = true)) ∧
    (∀ a b : Option Resource, equalsOrEmpty a b = true ↔ ∀ k, (orZero a).get k = (orZero b).get k) ∧
    (∀ a : Resource, equals (some a) (some a) = true) ∧
    (∀ a b : Resource, equals (some a) (some b) = true → equals (some b) (some a) = true) ∧
    (∀ a b c : Resource, equals (some a) (some b) = true → equals (some b) (some c) = true →
      equals (some a) (some c) = true) := by
  refine ⟨fun a b => ⟨equals_iff a b, ?_⟩, equalsOrEmpty_iff, fun a => (equals_iff a a).mpr fun _ => rfl,
    fun a b h => (equals_iff b a).mpr fun k => ((equals_iff a b).mp h k).symm,
    fun a b c h1 h2 => (equals_iff a c).mpr fun k => ((equals_iff a b).mp h1 k).trans ((equals_iff b c).mp h2 k)⟩
  simp only [clone, prune, Option.map_some', deepEquals_iff', Resource.mem_prune, Resource.mem_clone,
    Resource.get_prune, Resource.get_clone]
  constructor
  · intro h
    refine ⟨fun k => ?_, h⟩
    by_cases ha : k ∈ a.resources
    · by_cases hb : k ∈ b.resources
      · simp [ha, hb, h k]
      · simp [ha, hb, h k, get_of_not_mem hb]
    · simp [ha, ← h k, get_of_not_mem ha]
  · exact fun h => h.2

/-! ### `MatchAny` -/

/-- `MatchAny`: `false` when either resource is `nil`; `true` when both are
the same pointer (`same`); otherwise whether some type of `r` is defined in
`other`. Values play no part. -/
def matchAny (same : Bool) : Option Resource → Option Resource → Bool
  | some r, some other => same || r.resources.entries.any fun e => (other.resources.lookup e.1).isSome
  | _, _ => false

end Resources
