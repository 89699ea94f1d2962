/-
# Containment and the comparison predicates

`FitIn` and `FitInMaxUndef` (the source's private `fitIn` with `skipUndef`
off and on), `StrictlyGreaterThan`, `StrictlyGreaterThanOrEquals`,
`StrictlyGreaterThanOnlyExisting` and `StrictlyGreaterThanZero`, as loops
over the maps with their early returns and flags (`Resource.scanFlag`).

Each reads pointwise, an absent type counting as `0` and `nil` as `Zero`:
`FitIn` asks the smaller value to be at most the larger one floored at `0`
(`fitIn_iff`), `FitInMaxUndef` asks it only at the types the larger defines
(`fitInMaxUndef_iff`), `StrictlyGreaterThanOrEquals` is pointwise `≥`
(`strictlyGreaterThanOrEquals_iff`) and `StrictlyGreaterThan` adds that some
type differs (`strictlyGreaterThan_iff`). Together they make one order
(`strictlyGreaterThan_order`). `FitIn` is a preorder, equal to
`StrictlyGreaterThanOrEquals` when the larger side has no negative value
(`fitIn_preorder_eq_strictlyGreaterThanOrEquals`).

`StrictlyGreaterThanOnlyExisting` asks, at the types both define, for no
smaller value on the left and one different value; against an empty `smaller`
it asks for a non-empty `r` with only positive values, and with no shared type
for a non-empty `r` (`strictlyGreaterThanOnlyExisting_iff`).

Key definitions: `fitInWith`, `fitIn`, `fitInMaxUndef`, `strictlyGreaterThan`,
`strictlyGreaterThanOrEquals`, `strictlyGreaterThanZero`.
Key theorems: `fitInWith_iff`, `strictlyGreaterThan_iff`, `strictlyGreaterThan_order`,
`fitIn_preorder_eq_strictlyGreaterThanOrEquals`, `strictlyGreaterThanOnlyExisting_iff`.
-/
import Yunikorn.Equality

namespace Resources

open Resource

/-! ### `FitIn` -/

/-- The source's private `fitIn`: every type of `smaller` fits under the
larger value floored at `0`; with `skipUndef`, a type the larger does not
define fits. -/
def fitInWith (r smaller : Option Resource) (skipUndef : Bool) : Bool :=
  let r := orZero r
  match smaller with
  | none => true
  | some smaller => smaller.resources.entries.all fun e =>
      let largerValue := r.get e.1
      let ok := (r.resources.lookup e.1).isSome
      (skipUndef && !ok) || !decide (e.2 > max 0 largerValue)

/-- `FitIn`: an undefined type of the larger counts as `0`. -/
def fitIn (r smaller : Option Resource) : Bool := fitInWith r smaller false

/-- `FitInMaxUndef`: an undefined type of the larger is unbounded. -/
def fitInMaxUndef (r smaller : Option Resource) : Bool := fitInWith r smaller true

theorem fitInWith_iff (r smaller : Option Resource) (skipUndef : Bool) :
    fitInWith r smaller skipUndef = true ↔
      ∀ k, (skipUndef = true → k ∈ (orZero r).resources) →
        (orZero smaller).get k ≤ max 0 ((orZero r).get k) := by
  cases smaller with
  | none => simp [fitInWith]
  | some s =>
    simp only [fitInWith, orZero_some]
    rw [all_entries_iff s fun k v => (skipUndef && !((orZero r).resources.lookup k).isSome) ||
      !decide (v > max 0 ((orZero r).get k))]
    rw [← forall_mem_iff (P := fun k v => (skipUndef = true → k ∈ (orZero r).resources) →
      v ≤ max 0 ((orZero r).get k)) fun _ _ => le_max_left _ _]
    refine forall₂_congr fun k _ => ?_
    have hok : ((orZero r).resources.lookup k).isSome = decide (k ∈ (orZero r).resources) := by
      rw [Bool.eq_iff_iff, AList.lookup_isSome, decide_eq_true_iff]
    rw [hok]
    cases skipUndef <;> by_cases hk : k ∈ (orZero r).resources <;> simp [hk]

theorem fitIn_iff (r smaller : Option Resource) :
    fitIn r smaller = true ↔ ∀ k, (orZero smaller).get k ≤ max 0 ((orZero r).get k) := by
  simp [fitIn, fitInWith_iff]

theorem fitInMaxUndef_iff (r smaller : Option Resource) :
    fitInMaxUndef r smaller = true ↔
      ∀ k, k ∈ (orZero r).resources → (orZero smaller).get k ≤ max 0 ((orZero r).get k) := by
  simp [fitInMaxUndef, fitInWith_iff]

/-! ### The strict comparisons -/

/-- `StrictlyGreaterThan`: both loops return `false` at a smaller larger
value and raise `notEqual` at a difference; the result is `notEqual`. -/
def strictlyGreaterThan (larger smaller : Option Resource) : Bool :=
  let larger := orZero larger
  let smaller := orZero smaller
  ((larger.scanFlag (fun k v => decide (smaller.get k > v)) (fun k v => smaller.get k != v) false).bind
    fun notEqual =>
      smaller.scanFlag (fun k v => decide (larger.get k < v)) (fun k v => larger.get k != v) notEqual).getD
    false

/-- `StrictlyGreaterThanOrEquals`: both loops without the flag. -/
def strictlyGreaterThanOrEquals (larger smaller : Option Resource) : Bool :=
  let larger := orZero larger
  let smaller := orZero smaller
  (larger.resources.entries.all fun e => !decide (smaller.get e.1 > e.2)) &&
    smaller.resources.entries.all fun e => !decide (larger.get e.1 < e.2)

/-- `StrictlyGreaterThanZero`: `false` for `nil` and at a negative value,
otherwise whether some value is positive. -/
def strictlyGreaterThanZero : Option Resource → Bool
  | none => false
  | some larger => (larger.scanFlag (fun _ v => decide (v < 0)) (fun _ v => decide (v > 0)) false).getD false

/-- `StrictlyGreaterThanOnlyExisting`: one loop over the types of `r` with
three flags (`notEqual`, `atleastOneResourcePresent`,
`isAllPositiveInLarger`), then the source's three cases. -/
def strictlyGreaterThanOnlyExisting (r smaller : Option Resource) : Bool :=
  let r := orZero r
  let smaller := orZero smaller
  let flags := r.resources.entries.foldl
    (fun acc e => acc.bind fun (notEqual, present, allPositive) =>
      let allPositive := if isEmpty (some smaller) && decide (e.2 ≤ 0) then false else allPositive
      match smaller.resources.lookup e.1 with
      | some val => if val > e.2 then none else some (notEqual || val != e.2, true, allPositive)
      | none => some (notEqual, present, allPositive))
    (some (false, false, true))
  match flags with
  | none => false
  | some (notEqual, present, allPositive) =>
    if isEmpty (some smaller) && !isEmpty (some r) then allPositive
    else if present then notEqual
    else !isEmpty (some r) && !isEmpty (some smaller)

theorem strictlyGreaterThanOrEquals_iff (a b : Option Resource) :
    strictlyGreaterThanOrEquals a b = true ↔ ∀ k, (orZero b).get k ≤ (orZero a).get k := by
  simp only [strictlyGreaterThanOrEquals, Bool.and_eq_true]
  rw [all_entries_iff (orZero a) fun k v => !decide ((orZero b).get k > v),
    all_entries_iff (orZero b) fun k v => !decide ((orZero a).get k < v),
    forall_iff_forall_mem₂ _ _ (P := fun k => (orZero b).get k ≤ (orZero a).get k) fun k ha hb =>
      (get_of_not_mem hb).trans_le (get_of_not_mem ha).ge]
  simp only [Bool.not_eq_true', decide_eq_false_iff_not, not_lt]

theorem strictlyGreaterThan_iff (a b : Option Resource) :
    strictlyGreaterThan a b = true ↔
      (∀ k, (orZero b).get k ≤ (orZero a).get k) ∧ ∃ k, (orZero a).get k ≠ (orZero b).get k := by
  have hloops : strictlyGreaterThan a b = true ↔
      ((∀ k ∈ (orZero a).resources, (orZero b).get k ≤ (orZero a).get k) ∧
        ∀ k ∈ (orZero b).resources, (orZero b).get k ≤ (orZero a).get k) ∧
      ((∃ k ∈ (orZero a).resources, (orZero a).get k ≠ (orZero b).get k) ∨
        ∃ k ∈ (orZero b).resources, (orZero a).get k ≠ (orZero b).get k) := by
    simp only [strictlyGreaterThan, scanFlag_eq, decide_eq_true_eq, gt_iff_lt]
    by_cases h1 : ∃ k ∈ (orZero a).resources, (orZero a).get k < (orZero b).get k
    · rw [if_pos h1]
      simp only [Option.none_bind, Option.getD_none, Bool.false_eq_true, false_iff, not_and]
      obtain ⟨k, hk, hlt⟩ := h1
      exact fun h _ => absurd (h.1 k hk) (not_le.mpr hlt)
    rw [if_neg h1, Option.some_bind]
    by_cases h2 : ∃ k ∈ (orZero b).resources, (orZero a).get k < (orZero b).get k
    · rw [if_pos h2]
      simp only [Option.getD_none, Bool.false_eq_true, false_iff, not_and]
      obtain ⟨k, hk, hlt⟩ := h2
      exact fun h _ => absurd (h.2 k hk) (not_le.mpr hlt)
    rw [if_neg h2]
    push_neg at h1 h2
    simp only [Option.getD_some, Bool.false_or, Bool.or_eq_true, decide_eq_true_eq, bne_iff_ne, ne_eq]
    simp only [eq_comm (a := (orZero b).get _)]
    exact ⟨fun h => ⟨⟨h1, h2⟩, h⟩, fun h => h.2⟩
  rw [hloops, ← forall_iff_forall_mem₂ _ _ fun k ha hb => by rw [get_of_not_mem ha, get_of_not_mem hb],
    ← exists_iff_exists_mem₂ _ _ fun k ha hb => by rw [get_of_not_mem ha, get_of_not_mem hb]; simp]

theorem strictlyGreaterThanZero_iff (a : Resource) :
    strictlyGreaterThanZero (some a) = true ↔ (∀ k, 0 ≤ a.get k) ∧ ∃ k, 0 < a.get k := by
  simp only [strictlyGreaterThanZero, scanFlag_eq, decide_eq_true_eq]
  split_ifs with h
  · simp only [Option.getD_none, Bool.false_eq_true, false_iff, not_and]
    obtain ⟨k, -, hk⟩ := h
    exact fun h0 => absurd (h0 k) (not_le.mpr hk)
  · push_neg at h
    simp only [Option.getD_some, Bool.false_or, decide_eq_true_eq, gt_iff_lt]
    rw [forall_mem_iff (P := fun _ v => 0 ≤ v) fun _ => le_refl _] at h
    rw [exists_mem_iff (P := fun _ v => 0 < v) fun _ => lt_irrefl 0]
    exact ⟨fun h' => ⟨h, h'⟩, And.right⟩

/-- **The strict and non-strict comparisons form one order.**
`StrictlyGreaterThanOrEquals` is a preorder whose two-way relation is
`EqualsOrEmpty`, `StrictlyGreaterThan` is its strict part, and
`StrictlyGreaterThanZero` is `StrictlyGreaterThan` against `nil`. -/
theorem strictlyGreaterThan_order :
    (∀ a : Option Resource, strictlyGreaterThanOrEquals a a = true) ∧
    (∀ a b c : Option Resource, strictlyGreaterThanOrEquals a b = true →
      strictlyGreaterThanOrEquals b c = true → strictlyGreaterThanOrEquals a c = true) ∧
    (∀ a b : Option Resource, (strictlyGreaterThanOrEquals a b = true ∧
      strictlyGreaterThanOrEquals b a = true) ↔ equalsOrEmpty a b = true) ∧
    (∀ a b : Option Resource,
      strictlyGreaterThan a b = (strictlyGreaterThanOrEquals a b && !equalsOrEmpty a b)) ∧
    (∀ a : Option Resource, strictlyGreaterThan a a = false) ∧
    (∀ a b c : Option Resource, strictlyGreaterThan a b = true → strictlyGreaterThan b c = true →
      strictlyGreaterThan a c = true) ∧
    (∀ a : Option Resource, strictlyGreaterThanZero a = strictlyGreaterThan a none) := by
  have sgte := strictlyGreaterThanOrEquals_iff
  have sgt := strictlyGreaterThan_iff
  refine ⟨fun a => (sgte a a).mpr fun k => le_refl _,
    fun a b c hab hbc => (sgte a c).mpr fun k => ((sgte b c).mp hbc k).trans ((sgte a b).mp hab k),
    fun a b => ?_, fun a b => ?_, fun a => ?_, fun a b c hab hbc => ?_, fun a => ?_⟩
  · rw [sgte, sgte, equalsOrEmpty_iff]
    exact ⟨fun ⟨hab, hba⟩ k => le_antisymm (hba k) (hab k),
      fun h => ⟨fun k => (h k).ge, fun k => (h k).le⟩⟩
  · rw [Bool.eq_iff_iff, Bool.and_eq_true, sgt, sgte, Bool.not_eq_true', ← Bool.not_eq_true,
      equalsOrEmpty_iff, not_forall]
  · rw [← Bool.not_eq_true, sgt]
    exact fun ⟨_, k, hk⟩ => hk rfl
  · obtain ⟨hab, k, hk⟩ := (sgt a b).mp hab
    obtain ⟨hbc, -⟩ := (sgt b c).mp hbc
    exact (sgt a c).mpr ⟨fun k => (hbc k).trans (hab k), k,
      fun h => hk (le_antisymm ((le_of_eq h).trans (hbc k)) (hab k))⟩
  · rw [Bool.eq_iff_iff, sgt]
    cases a with
    | none => simp [strictlyGreaterThanZero]
    | some a =>
      simp only [strictlyGreaterThanZero_iff, orZero_some, orZero_none, get_zero]
      exact and_congr_right fun h => exists_congr fun k =>
        ⟨ne_of_gt, fun hne => lt_of_le_of_ne (h k) hne.symm⟩

/-- **`FitIn` is a preorder, and on valid capacities it is
`StrictlyGreaterThanOrEquals`.** Flooring the larger value at `0` keeps
reflexivity and transitivity, and changes nothing when the larger side has
no negative value. -/
theorem fitIn_preorder_eq_strictlyGreaterThanOrEquals :
    (∀ a : Option Resource, fitIn a a = true) ∧
    (∀ a b c : Option Resource, fitIn a b = true → fitIn b c = true → fitIn a c = true) ∧
    (∀ larger smaller : Option Resource, (∀ k, 0 ≤ (orZero larger).get k) →
      fitIn larger smaller = strictlyGreaterThanOrEquals larger smaller) := by
  refine ⟨fun a => (fitIn_iff a a).mpr fun k => le_max_right _ _,
    fun a b c hab hbc => (fitIn_iff a c).mpr fun k =>
      ((fitIn_iff b c).mp hbc k).trans (max_le (le_max_left _ _) ((fitIn_iff a b).mp hab k)),
    fun larger smaller hl => ?_⟩
  rw [Bool.eq_iff_iff, fitIn_iff, strictlyGreaterThanOrEquals_iff]
  exact forall_congr' fun k => by rw [max_eq_right (hl k)]

/-! ### `StrictlyGreaterThanOnlyExisting` -/

/-- The body of the loop of `StrictlyGreaterThanOnlyExisting`, with its flags
`notEqual`, `atleastOneResourcePresent` and `isAllPositiveInLarger`; `none` is
the early `return false`. -/
def onlyExistingStep (smaller : Resource) (acc : Option (Bool × Bool × Bool)) (e : Σ _ : String, Quantity) :
    Option (Bool × Bool × Bool) :=
  acc.bind fun (notEqual, present, allPositive) =>
    let allPositive := if isEmpty (some smaller) && decide (e.2 ≤ 0) then false else allPositive
    match smaller.resources.lookup e.1 with
    | some val => if val > e.2 then none else some (notEqual || val != e.2, true, allPositive)
    | none => some (notEqual, present, allPositive)

theorem strictlyGreaterThanOnlyExisting_eq (r smaller : Option Resource) :
    strictlyGreaterThanOnlyExisting r smaller =
      match (orZero r).resources.entries.foldl (onlyExistingStep (orZero smaller)) (some (false, false, true)) with
      | none => false
      | some (notEqual, present, allPositive) =>
        if isEmpty (some (orZero smaller)) && !isEmpty (some (orZero r)) then allPositive
        else if present then notEqual
        else !isEmpty (some (orZero r)) && !isEmpty (some (orZero smaller)) := rfl

theorem foldl_onlyExistingStep_none (s : Resource) :
    ∀ es : List (Σ _ : String, Quantity), es.foldl (onlyExistingStep s) none = none
  | [] => rfl
  | _ :: es => foldl_onlyExistingStep_none s es

theorem allPositive_step (E d a P : Bool) :
    ((if (E && d) = true then false else a) && !(E && P)) = (a && !(E && (d || P))) := by
  cases E <;> cases d <;> cases a <;> cases P <;> rfl

/-- The loop stops at a type where `smaller` is larger, and otherwise raises
each flag when one entry does. -/
theorem foldl_onlyExistingStep (s : Resource) :
    ∀ (es : List (Σ _ : String, Quantity)) (n p a : Bool),
      es.foldl (onlyExistingStep s) (some (n, p, a)) =
        if es.any (fun e => match s.resources.lookup e.1 with | some val => decide (val > e.2) | none => false)
        then none
        else some (n || es.any (fun e => match s.resources.lookup e.1 with | some val => val != e.2 | none => false),
          p || es.any (fun e => (s.resources.lookup e.1).isSome),
          a && !(isEmpty (some s) && es.any (fun e => decide (e.2 ≤ 0))))
  | [], n, p, a => by simp
  | e :: es, n, p, a => by
    rw [List.foldl_cons]
    simp only [onlyExistingStep, Option.some_bind, List.any_cons]
    cases s.resources.lookup e.1 with
    | none =>
      rw [foldl_onlyExistingStep s es, allPositive_step]
      simp only [Bool.false_or, Option.isSome_none]
    | some val =>
      by_cases hv : val > e.2
      · simp only [hv, if_true, decide_True, Bool.true_or, foldl_onlyExistingStep_none]
      · simp only [hv, if_false, decide_False, Bool.false_or, Option.isSome_some]
        rw [foldl_onlyExistingStep s es, allPositive_step]
        simp only [Bool.true_or, Bool.or_true, Bool.or_assoc]

theorem any_lookup_iff (r s : Resource) (f : Quantity → Quantity → Bool) :
    r.resources.entries.any (fun e => match s.resources.lookup e.1 with | some val => f val e.2 | none => false) = true ↔
      ∃ k ∈ r.resources, k ∈ s.resources ∧ f (s.get k) (r.get k) = true := by
  rw [any_entries_iff r fun k v => match s.resources.lookup k with | some val => f val v | none => false]
  refine exists_congr fun k => and_congr_right fun _ => ?_
  by_cases hs : k ∈ s.resources
  · simp [lookup_of_mem hs, hs]
  · simp [AList.lookup_eq_none.mpr hs, hs]

theorem not_mem_of_entries_nil {s : Resource} (h : s.resources.entries = []) (k : String) :
    k ∉ s.resources := fun hk => by
  have hk : k ∈ s.resources.keys := AList.mem_keys.mpr hk
  rw [AList.keys, h] at hk
  exact List.not_mem_nil k hk

theorem isEmpty_some_iff (r : Resource) : isEmpty (some r) = true ↔ r.resources.entries = [] := by
  simp [isEmpty]

/-- The final `switch` of `StrictlyGreaterThanOnlyExisting` on its flags,
given that a different shared value is a shared type and that an empty
`smaller` shares no type. -/
theorem onlyExisting_switch_iff :
    ∀ emptyS emptyR common notEqual nonPos : Bool, (notEqual = true → common = true) →
      (emptyS = true → common = false) →
      ((if (emptyS && !emptyR) = true then !(emptyS && nonPos)
        else if common = true then notEqual else (!emptyR && !emptyS)) = true ↔
        (emptyS = true ∧ emptyR = false ∧ nonPos = false) ∨
          (emptyS = false ∧ (notEqual = true ∨ (common = false ∧ emptyR = false)))) := by
  intro emptyS emptyR common notEqual nonPos
  cases emptyS <;> cases emptyR <;> cases common <;> cases notEqual <;> cases nonPos <;> decide

/-- **What `StrictlyGreaterThanOnlyExisting` computes.** No shared type may be
larger in `smaller`; then, against an empty `smaller`, a non-empty `r` with only
positive values; otherwise a shared type with a different value, or no shared
type and a non-empty `r`. -/
theorem strictlyGreaterThanOnlyExisting_iff (r smaller : Option Resource) :
    strictlyGreaterThanOnlyExisting r smaller = true ↔
      (∀ k ∈ (orZero r).resources, k ∈ (orZero smaller).resources →
        (orZero smaller).get k ≤ (orZero r).get k) ∧
      (((orZero smaller).resources.entries = [] ∧ (orZero r).resources.entries ≠ [] ∧
          ∀ k ∈ (orZero r).resources, 0 < (orZero r).get k) ∨
        ((orZero smaller).resources.entries ≠ [] ∧
          ((∃ k ∈ (orZero r).resources, k ∈ (orZero smaller).resources ∧
              (orZero smaller).get k ≠ (orZero r).get k) ∨
            ((∀ k ∈ (orZero r).resources, k ∉ (orZero smaller).resources) ∧
              (orZero r).resources.entries ≠ [])))) := by
  rw [strictlyGreaterThanOnlyExisting_eq, foldl_onlyExistingStep]
  generalize orZero r = R
  generalize orZero smaller = S
  have hbad := any_lookup_iff R S fun val v => decide (val > v)
  have hneq := any_lookup_iff R S fun val v => val != v
  have hcom : R.resources.entries.any (fun e => (S.resources.lookup e.1).isSome) = true ↔
      ∃ k ∈ R.resources, k ∈ S.resources := by
    rw [any_entries_iff R fun k _ => (S.resources.lookup k).isSome]; simp only [AList.lookup_isSome]
  have hpos : R.resources.entries.any (fun e => decide (e.2 ≤ 0)) = true ↔ ∃ k ∈ R.resources, R.get k ≤ 0 :=
    (any_entries_iff R fun _ v => decide (v ≤ 0)).trans (by simp only [decide_eq_true_eq])
  by_cases hb : ∃ k ∈ R.resources, k ∈ S.resources ∧ decide (S.get k > R.get k) = true
  · rw [if_pos (hbad.mpr hb)]
    obtain ⟨k, hk, hks, hgt⟩ := hb
    exact iff_of_false Bool.false_ne_true fun h => absurd (h.1 k hk hks) (not_le.mpr (of_decide_eq_true hgt))
  · rw [if_neg (mt hbad.mp hb), and_iff_right fun k hk hks => not_lt.mp fun h => hb ⟨k, hk, hks, decide_eq_true h⟩]
    simp only [Bool.false_or, Bool.true_and]
    rw [onlyExisting_switch_iff _ _ _ _ _ (fun h => hcom.mpr (let ⟨k, hk, hks, _⟩ := hneq.mp h; ⟨k, hk, hks⟩))
      (fun h => Bool.eq_false_iff.mpr fun hc => let ⟨k, _, hks⟩ := hcom.mp hc;
        absurd hks (not_mem_of_entries_nil ((isEmpty_some_iff S).mp h) k))]
    simp only [← Bool.not_eq_true, isEmpty_some_iff, hcom, hneq, hpos, bne_iff_ne, not_exists, not_and,
      not_le, ne_eq]

end Resources
