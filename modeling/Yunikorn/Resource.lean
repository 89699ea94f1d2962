/-
# Resources: sparse maps from resource type to quantity

`Resource` is the source's `type Resource struct { Resources map[string]Quantity }`.
The map is an association list with distinct keys (`AList`); the order of its
entries is the order a `range` loop visits them, which Go leaves unspecified,
so every result below is stated through lookups and holds for every order.
A `*Resource` is an `Option Resource`, `none` being `nil`.

Reading `r.Resources[k]` gives `0` for an absent type (`Resource.get`).
Every loop of the form `for k, v := range delta.Resources { out.Resources[k]
= op(out.Resources[k], v) }` is `Resource.applyEach`: it writes each type of
`delta` once, from the value `out` had before the loop (`get_applyEach`,
`mem_applyEach`). `Clone` is that loop into a new map, and `Prune` deletes
the zero entries (`lookup_prune`).

Key definitions: `Resource`, `Resource.get`, `Resource.applyEach`, `clone`, `prune`.
Key theorems: `Resource.get_applyEach`, `Resource.mem_applyEach`, `Resource.all_entries_iff`.
-/
import Yunikorn.Quantity
import Mathlib.Data.List.AList

namespace Resources

/-- The source's `Resource`. -/
structure Resource where
  resources : AList fun _ : String => Quantity

/-- `NewResource()`: an empty map. -/
def newResource : Resource := ⟨∅⟩

/-- `NewResourceFromMap`: an empty resource for a `nil` map, otherwise a
resource around the map itself (which Go shares with the caller). -/
def newResourceFromMap : Option (AList fun _ : String => Quantity) → Resource
  | none => newResource
  | some m => ⟨m⟩

namespace Resource

/-- `r.Resources[k]`: the quantity of type `k`, `0` when it is not defined. -/
def get (r : Resource) (k : String) : Quantity := (r.resources.lookup k).getD 0

/-- `r.Resources[k] = v`. -/
def set (r : Resource) (k : String) (v : Quantity) : Resource := ⟨r.resources.insert k v⟩

/-- `delete(r.Resources, k)`. -/
def delete (r : Resource) (k : String) : Resource := ⟨r.resources.erase k⟩

@[simp] theorem get_set_self (r : Resource) (k : String) (v : Quantity) : (r.set k v).get k = v := by
  simp [get, set, AList.lookup_insert]

theorem get_set_ne (r : Resource) {k k' : String} (v : Quantity) (h : k' ≠ k) :
    (r.set k v).get k' = r.get k' := by
  simp [get, set, AList.lookup_insert_ne h]

theorem get_set (r : Resource) (k : String) (v : Quantity) (k' : String) :
    (r.set k v).get k' = if k' = k then v else r.get k' := by
  split_ifs with h
  · rw [h, get_set_self]
  · exact get_set_ne r v h

@[simp] theorem set_set (r : Resource) (k : String) (v w : Quantity) : (r.set k v).set k w = r.set k w := by
  simp only [set, AList.insert_insert]

@[simp] theorem get_newResource (k : String) : newResource.get k = 0 := rfl

theorem get_of_not_mem {r : Resource} {k : String} (h : k ∉ r.resources) : r.get k = 0 := by
  simp [get, AList.lookup_eq_none.mpr h]

theorem get_of_lookup {r : Resource} {k : String} {v : Quantity}
    (h : r.resources.lookup k = some v) : r.get k = v := by
  simp [get, h]

theorem lookup_of_mem {r : Resource} {k : String} (h : k ∈ r.resources) :
    r.resources.lookup k = some (r.get k) := by
  obtain ⟨v, hv⟩ := Option.isSome_iff_exists.mp (AList.lookup_isSome.mpr h)
  rw [hv, get_of_lookup hv]

theorem get_of_mem_entries {r : Resource} {e : Σ _ : String, Quantity}
    (he : e ∈ r.resources.entries) : r.get e.1 = e.2 :=
  get_of_lookup (AList.mem_lookup_iff.mpr he)

/-- A property of every entry is one of every defined type and its value. -/
theorem forall_entries_iff (r : Resource) (P : String → Quantity → Prop) :
    (∀ e ∈ r.resources.entries, P e.1 e.2) ↔ ∀ k ∈ r.resources, P k (r.get k) :=
  ⟨fun h k hk => h ⟨k, r.get k⟩ (AList.mem_lookup_iff.mp (lookup_of_mem hk)),
    fun h e he => get_of_mem_entries he ▸
      h e.1 (AList.mem_keys.mp (List.mem_map_of_mem Sigma.fst he))⟩

/-- A loop over the entries that checks `p` of each is a check of `p` at every
defined type. -/
theorem all_entries_iff (r : Resource) (p : String → Quantity → Bool) :
    r.resources.entries.all (fun e => p e.1 e.2) = true ↔ ∀ k ∈ r.resources, p k (r.get k) = true := by
  rw [List.all_eq_true]
  exact forall_entries_iff r fun k v => p k v = true

theorem any_entries_iff (r : Resource) (p : String → Quantity → Bool) :
    r.resources.entries.any (fun e => p e.1 e.2) = true ↔ ∃ k ∈ r.resources, p k (r.get k) = true := by
  simp only [List.any_eq_true]
  constructor
  · rintro ⟨⟨k, v⟩, he, hp⟩
    have hl := AList.mem_lookup_iff.mpr he
    exact ⟨k, AList.lookup_isSome.mp (Option.isSome_iff_exists.mpr ⟨v, hl⟩), by rwa [get_of_lookup hl]⟩
  · rintro ⟨k, hk, hp⟩
    exact ⟨⟨k, r.get k⟩, AList.mem_lookup_iff.mp (lookup_of_mem hk), hp⟩

/-- A property of every type is one of the types of two maps, when it holds
off both. -/
theorem forall_iff_forall_mem₂ (a b : Resource) {P : String → Prop}
    (h : ∀ k, k ∉ a.resources → k ∉ b.resources → P k) :
    (∀ k, P k) ↔ (∀ k ∈ a.resources, P k) ∧ ∀ k ∈ b.resources, P k := by
  refine ⟨fun hP => ⟨fun k _ => hP k, fun k _ => hP k⟩, fun ⟨ha, hb⟩ k => ?_⟩
  by_cases hka : k ∈ a.resources
  · exact ha k hka
  by_cases hkb : k ∈ b.resources
  · exact hb k hkb
  · exact h k hka hkb

theorem exists_iff_exists_mem₂ (a b : Resource) {P : String → Prop}
    (h : ∀ k, k ∉ a.resources → k ∉ b.resources → ¬P k) :
    (∃ k, P k) ↔ (∃ k ∈ a.resources, P k) ∨ ∃ k ∈ b.resources, P k := by
  refine ⟨fun ⟨k, hk⟩ => ?_, fun h' => h'.elim (fun ⟨k, _, hk⟩ => ⟨k, hk⟩) fun ⟨k, _, hk⟩ => ⟨k, hk⟩⟩
  by_cases hka : k ∈ a.resources
  · exact .inl ⟨k, hka, hk⟩
  by_cases hkb : k ∈ b.resources
  · exact .inr ⟨k, hkb, hk⟩
  · exact absurd hk (h k hka hkb)

/-- A `range` loop that returns `false` as soon as `bad` holds of an entry and
otherwise raises a flag where `flag` holds: `none` is the early `return false`,
`some f` the flag when the loop ends. -/
def scanFlag (bad flag : String → Quantity → Bool) (r : Resource) (init : Bool) : Option Bool :=
  r.resources.entries.foldl
    (fun acc e => acc.bind fun f => if bad e.1 e.2 then none else some (f || flag e.1 e.2)) (some init)

theorem foldl_scanFlag (bad flag : String → Quantity → Bool) :
    ∀ (es : List (Σ _ : String, Quantity)) (init : Bool),
      es.foldl (fun acc e => acc.bind fun f => if bad e.1 e.2 then none else some (f || flag e.1 e.2))
          (some init) =
        if es.any (fun e => bad e.1 e.2) then none else some (init || es.any fun e => flag e.1 e.2)
  | [], _ => by simp
  | ⟨k, v⟩ :: es, init => by
    have hnone : ∀ es' : List (Σ _ : String, Quantity), es'.foldl
        (fun acc e => acc.bind fun f => if bad e.1 e.2 then none else some (f || flag e.1 e.2)) none = none :=
      fun es' => by induction es' <;> simp_all
    cases hb : bad k v
    · simp only [List.foldl_cons, Option.some_bind, hb, Bool.false_eq_true, if_false,
        foldl_scanFlag bad flag es, List.any_cons, Bool.false_or, Bool.or_assoc]
    · simp [hb, hnone]

theorem scanFlag_eq (bad flag : String → Quantity → Bool) (r : Resource) (init : Bool) :
    r.scanFlag bad flag init =
      if ∃ k ∈ r.resources, bad k (r.get k) = true then none
      else some (init || decide (∃ k ∈ r.resources, flag k (r.get k) = true)) := by
  rw [scanFlag, foldl_scanFlag]
  simp only [← any_entries_iff]
  split_ifs <;> simp_all

/-- The loop `for k, v := range delta.Resources { out.Resources[k] = op(k,
out.Resources[k], v) }`: the write of every loop that builds a map in the
source (`Clone`, `Add`, `Sub`, `AddTo`, `SubFrom`, `Multiply`, the
`OnlyExisting` and `ComponentWise` functions). -/
def applyEach (op : String → Quantity → Quantity → Quantity) (out delta : Resource) : Resource :=
  delta.resources.entries.foldl (fun out e => out.set e.1 (op e.1 (out.get e.1) e.2)) out

theorem lookup_foldl_set (op : String → Quantity → Quantity → Quantity) :
    ∀ (es : List (Σ _ : String, Quantity)) (out : Resource), es.NodupKeys → ∀ k,
      (es.foldl (fun out e => out.set e.1 (op e.1 (out.get e.1) e.2)) out).resources.lookup k =
        match es.dlookup k with
        | some v => some (op k (out.get k) v)
        | none => out.resources.lookup k
  | [], _, _, _ => rfl
  | ⟨k', v'⟩ :: es, out, hnd, k => by
    obtain ⟨hk', hnd⟩ := List.nodupKeys_cons.mp hnd
    rw [List.foldl_cons, lookup_foldl_set op es _ hnd k]
    by_cases h : k = k'
    · subst h
      simp [List.dlookup_eq_none.mpr hk', List.dlookup_cons_eq, set, AList.lookup_insert, get]
    · simp only [List.dlookup_cons_ne es ⟨k', v'⟩ h]
      split <;> simp [get, set, AList.lookup_insert_ne h]

theorem lookup_applyEach (op : String → Quantity → Quantity → Quantity) (out delta : Resource)
    (k : String) : (out.applyEach op delta).resources.lookup k =
      if k ∈ delta.resources then some (op k (out.get k) (delta.get k)) else out.resources.lookup k := by
  rw [applyEach, lookup_foldl_set op _ out delta.resources.nodupKeys]
  split_ifs with h
  · rw [← AList.lookup, lookup_of_mem h]
  · rw [← AList.lookup, AList.lookup_eq_none.mpr h]

theorem get_applyEach (op : String → Quantity → Quantity → Quantity) (out delta : Resource)
    (k : String) : (out.applyEach op delta).get k =
      if k ∈ delta.resources then op k (out.get k) (delta.get k) else out.get k := by
  unfold get; rw [lookup_applyEach]; split_ifs <;> rfl

theorem mem_applyEach (op : String → Quantity → Quantity → Quantity) (out delta : Resource)
    (k : String) :
    k ∈ (out.applyEach op delta).resources ↔ k ∈ out.resources ∨ k ∈ delta.resources := by
  by_cases h : k ∈ delta.resources
  · simp only [h, or_true, iff_true]
    rw [← AList.lookup_isSome, lookup_applyEach, if_pos h]; rfl
  · rw [← AList.lookup_isSome, lookup_applyEach, if_neg h, AList.lookup_isSome]; simp [h]

/-- The non-`nil` body of `Clone`: each entry copied into a new map. -/
def clone (r : Resource) : Resource := applyEach (fun _ _ v => v) newResource r

@[simp] theorem get_clone (r : Resource) (k : String) : r.clone.get k = r.get k := by
  unfold clone; rw [get_applyEach]
  split_ifs with h
  · rfl
  · rw [get_of_not_mem h]; rfl

theorem lookup_clone (r : Resource) (k : String) : r.clone.resources.lookup k = r.resources.lookup k := by
  unfold clone; rw [lookup_applyEach]
  split_ifs with h
  · exact (lookup_of_mem h).symm
  · rw [AList.lookup_eq_none.mpr h]; rfl

@[simp] theorem mem_clone (r : Resource) (k : String) : k ∈ r.clone.resources ↔ k ∈ r.resources := by
  simp [clone, newResource, mem_applyEach, AList.not_mem_empty]

/-- The non-`nil` body of `Prune`: deleting, while ranging over the map, each
entry whose value is `0`. -/
def prune (r : Resource) : Resource :=
  r.resources.entries.foldl (fun r e => if e.2 = 0 then r.delete e.1 else r) r

theorem lookup_foldl_delete :
    ∀ (es : List (Σ _ : String, Quantity)) (out : Resource), es.NodupKeys → ∀ k,
      (es.foldl (fun r e => if e.2 = 0 then r.delete e.1 else r) out).resources.lookup k =
        if es.dlookup k = some 0 then none else out.resources.lookup k
  | [], _, _, _ => by simp
  | ⟨k', v'⟩ :: es, out, hnd, k => by
    obtain ⟨hk', hnd⟩ := List.nodupKeys_cons.mp hnd
    rw [List.foldl_cons, lookup_foldl_delete es _ hnd k]
    by_cases h : k = k'
    · subst h
      by_cases hv : v' = 0 <;>
        simp [hv, List.dlookup_eq_none.mpr hk', List.dlookup_cons_eq, delete, AList.lookup_erase]
    · simp only [List.dlookup_cons_ne es ⟨k', v'⟩ h]
      split_ifs <;> simp [delete, AList.lookup_erase_ne h]

theorem lookup_prune (r : Resource) (k : String) :
    r.prune.resources.lookup k = if r.resources.lookup k = some 0 then none else r.resources.lookup k :=
  lookup_foldl_delete _ r r.resources.nodupKeys k

@[simp] theorem get_prune (r : Resource) (k : String) : r.prune.get k = r.get k := by
  unfold get; rw [lookup_prune]; split_ifs with h <;> simp [h]

@[simp] theorem mem_prune (r : Resource) (k : String) :
    k ∈ r.prune.resources ↔ k ∈ r.resources ∧ r.get k ≠ 0 := by
  rw [← AList.lookup_isSome, lookup_prune, ← AList.lookup_isSome]
  by_cases hk : k ∈ r.resources
  · simp [lookup_of_mem hk, hk]
  · simp [AList.lookup_eq_none.mpr hk, hk]

end Resource

/-- `Zero`, the shared empty resource that is never updated. -/
def zero : Resource := newResource

/-- A `nil` resource read as `Zero`, as `if left == nil { left = Zero }` does. -/
def orZero (p : Option Resource) : Resource := p.getD zero

@[simp] theorem get_zero (k : String) : zero.get k = 0 := rfl
@[simp] theorem not_mem_zero (k : String) : k ∉ zero.resources := AList.not_mem_empty k
@[simp] theorem orZero_none : orZero none = zero := rfl
@[simp] theorem orZero_some (r : Resource) : orZero (some r) = r := rfl

/-- `Clone`: `nil` for `nil`, otherwise a copy. -/
def clone (r : Option Resource) : Option Resource := r.map Resource.clone

/-- `Prune`: the resource after the call; a `nil` resource does not change. -/
def prune (r : Option Resource) : Option Resource := r.map Resource.prune

end Resources
