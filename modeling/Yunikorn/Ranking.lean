/-
# Usage ranking: shares of a total and `CompUsageRatio`

`getShares` turns a resource into the ascending list of its `float64` shares
of a total, `float64(v) / float64(total[k])`, or `float64(v)` where the total is
nil or zero; `CompUsageRatio` compares two such lists from the top with
`compareShares`. The loop sizes its array by the number of entries and skips
zero usages, whose slots stay `0.0`: up to order, the array is the share of
every entry (`getSharesWith_perm`).

For every total the ranking is a total preorder (`compUsageRatio_total_preorder`).
Rounding is monotone, so with no negative value anywhere more usage never
ranks lower (`compUsageRatio_mono`), and explicit zero entries do not move the
ranking (`compUsageRatio_congr_of_nonneg`). With a negative share they do: the
`0.0` slot of an explicit zero sorts above it (`compUsageRatio_zero_entry`).

`FairnessRatio` divides the largest share of one side by that of the other.
Every non-zero share lies between `2^-63` and `2^63` in magnitude, so a
non-zero right share gives a finite quotient; a zero one gives `1` only with a
zero left share, and an infinity otherwise (`fairnessRatio_spec`). Against a
positive right share the ratio grows with the left usage and falls with the
right one (`fairnessRatio_mono`).

Key definitions: `share`, `getSharesWith`, `getShares`, `compUsageRatio`, `largestShare`,
`fairnessRatio`.
Key theorems: `getSharesWith_perm`, `compareTop_sharesWith_nonpos`, `compUsageRatio_total_preorder`,
`compUsageRatio_mono`, `compUsageRatio_zero_entry`, `fairnessRatio_spec`, `fairnessRatio_mono`.
-/
import Yunikorn.Equality
import Yunikorn.CompareShares
import Yunikorn.Float64

namespace Resources

open Resource

/-- The share `getShares` records for the entry `(k, v)`: `float64(v)` if the
total is nil or zero for the type, else `float64(v) / float64(total[k])`. -/
def share (total : Option Resource) (k : String) (v : Quantity) : ℚ :=
  match total with
  | none => roundQ v.val
  | some t => if t.get k = 0 then roundQ v.val else quotFloat v (t.get k)

/-! ### One share -/

@[simp] theorem share_zero (total : Option Resource) (k : String) : share total k 0 = 0 := by
  cases total <;> simp [share]

theorem share_nonneg {total : Option Resource} {k : String} {v : Quantity}
    (ht : 0 ≤ (orZero total).get k) (hv : 0 ≤ v) : 0 ≤ share total k v := by
  have hv' : 0 ≤ roundQ v.val := roundQ_nonneg (Int.cast_nonneg.mpr hv)
  cases total with
  | none => exact hv'
  | some t =>
    dsimp only [share]; split_ifs
    exacts [hv', quotFloat_nonneg hv ht]

theorem share_mono {total : Option Resource} {k : String} {v w : Quantity}
    (ht : 0 ≤ (orZero total).get k) (h : v ≤ w) : share total k v ≤ share total k w := by
  have h' : roundQ v.val ≤ roundQ w.val := roundQ_monotone (Int.cast_le.mpr h)
  cases total with
  | none => exact h'
  | some t =>
    dsimp only [share]; split_ifs
    exacts [h', quotFloat_mono ht h]

/-- A share is at most `2^63` in magnitude, and at least `2^-63` unless it is `0`. -/
theorem abs_share_mem (total : Option Resource) (k : String) (v : Quantity) :
    |share total k v| ≤ 2 ^ 63 ∧ (share total k v ≠ 0 → 1 / 2 ^ 63 ≤ |share total k v|) := by
  have hround : |roundQ v.val| ≤ 2 ^ 63 ∧ (roundQ v.val ≠ 0 → 1 / 2 ^ 63 ≤ |roundQ v.val|) :=
    ⟨abs_roundQ_le_pow (abs_val_le v), fun h => (by norm_num : (1 : ℚ) / 2 ^ 63 ≤ 1).trans
      (one_le_abs_roundQ fun hv => h (by rw [hv, Quantity.val_zero, Int.cast_zero, roundQ_zero]))⟩
  cases total with
  | none => exact hround
  | some t =>
    dsimp only [share]; split_ifs with h0
    · exact hround
    · exact ⟨(abs_quotFloat_mem v h0).1, fun h => (abs_quotFloat_mem v h0).2 fun hv => h (by rw [hv, quotFloat_zero_left])⟩

/-! ### The share list

The loop is stated for any share function: what it needs is that a zero
usage has share `0`; what the ranking needs is that shares of non-negative
usages are non-negative and grow with the usage, as `share_nonneg` and
`share_mono` give. -/

section
variable (f : String → Quantity → ℚ)

/-- One iteration of the loop of `getShares`: a zero usage is skipped and its
slot keeps `0.0`; any other usage writes its share at `idx` and moves `idx` on. -/
def sharesStepWith (acc : List ℚ × ℕ) (e : Σ _ : String, Quantity) : List ℚ × ℕ :=
  if e.2 = 0 then acc else (acc.1.set acc.2 (f e.1 e.2), acc.2 + 1)

/-- The loop of `getShares`, sorted in increasing order. -/
def getSharesWith (res : Option Resource) : List ℚ :=
  match res with
  | none => []
  | some r =>
    if r.resources.entries.length = 0 then [] else
    (r.resources.entries.foldl (sharesStepWith f)
      (List.replicate r.resources.entries.length 0, 0)).1.insertionSort (· ≤ ·)

variable {f}

theorem foldl_sharesStepWith (hf0 : ∀ k, f k 0 = 0) :
    ∀ (es : List (Σ _ : String, Quantity)) (pre : List ℚ) (m : ℕ), es.length ≤ m →
      (es.foldl (sharesStepWith f) (pre ++ List.replicate m 0, pre.length)).1.Perm
        (pre ++ es.map (fun e => f e.1 e.2) ++ List.replicate (m - es.length) 0)
  | [], pre, m, _ => by simp
  | e :: es, pre, m, h => by
    obtain ⟨m, rfl⟩ : ∃ m', m = m' + 1 := ⟨m - 1, by rw [List.length_cons] at h; omega⟩
    have hlen : es.length ≤ m := Nat.le_of_succ_le_succ h
    rw [List.foldl_cons, sharesStepWith]
    split_ifs with he
    · -- a zero usage: its share is one of the slots left at `0.0`
      refine (foldl_sharesStepWith hf0 es pre (m + 1) (by omega)).trans ?_
      rw [show m + 1 - es.length = (m - es.length) + 1 by omega, List.replicate_succ,
        List.map_cons, he, hf0]
      simp only [List.append_assoc, List.cons_append, List.length_cons, Nat.add_sub_add_right]
      exact List.perm_middle.append_left pre
    · -- any other usage: written at `idx`, just past the prefix
      have hset : (pre ++ List.replicate (m + 1) 0).set pre.length (f e.1 e.2) =
          (pre ++ [f e.1 e.2]) ++ List.replicate m 0 := by
        rw [List.set_append_right _ _ le_rfl, Nat.sub_self, List.replicate_succ,
          List.set_cons_zero, List.append_assoc, List.singleton_append]
      have := foldl_sharesStepWith hf0 es (pre ++ [f e.1 e.2]) m hlen
      rw [List.length_append, List.length_singleton, ← hset] at this
      simpa only [List.map_cons, List.length_cons, Nat.add_sub_add_right, List.append_assoc,
        List.singleton_append] using this

/-- Up to order, the share list is the share of every entry, a zero usage
counting as share `0`. -/
theorem getSharesWith_perm (hf0 : ∀ k, f k 0 = 0) (res : Option Resource) :
    (getSharesWith f res).Perm ((orZero res).resources.entries.map fun e => f e.1 e.2) := by
  cases res with
  | none => simp [getSharesWith, orZero, zero, newResource]
  | some r =>
    simp only [getSharesWith, orZero_some]
    split_ifs with h
    · rw [List.length_eq_zero.mp h]; rfl
    · refine (List.perm_insertionSort _ _).trans ?_
      simpa using foldl_sharesStepWith hf0 r.resources.entries [] _ le_rfl

theorem getSharesWith_sorted (res : Option Resource) : (getSharesWith f res).Sorted (· ≤ ·) := by
  cases res with
  | none => exact List.sorted_nil
  | some r =>
    simp only [getSharesWith]
    split_ifs
    · exact List.sorted_nil
    · exact List.sorted_insertionSort _ _

theorem getSharesWith_congr {g : String → Quantity → ℚ} (res : Option Resource)
    (h : ∀ e ∈ (orZero res).resources.entries, f e.1 e.2 = g e.1 e.2) : getSharesWith f res = getSharesWith g res := by
  cases res with
  | none => rfl
  | some r =>
    simp only [getSharesWith]
    rw [List.foldl_ext (sharesStepWith f) (sharesStepWith g) _ fun _ e he => by simp only [sharesStepWith, h e he]]

theorem countP_getSharesWith (hf0 : ∀ k, f k 0 = 0) (res : Option Resource) (p : ℚ → Bool) :
    (getSharesWith f res).countP p =
      ((orZero res).resources.keys.filter fun k => p (f k ((orZero res).get k))).length := by
  rw [(getSharesWith_perm hf0 res).countP_eq, List.countP_map, ← List.countP_eq_length_filter,
    AList.keys, List.keys, List.countP_map]
  exact List.countP_congr fun e he => by simp [get_of_mem_entries he]

theorem getSharesWith_nonneg (hf0 : ∀ k, f k 0 = 0) (hnn : ∀ k v, 0 ≤ v → 0 ≤ f k v) {res : Option Resource}
    (hr : ∀ k, 0 ≤ (orZero res).get k) : ∀ x ∈ getSharesWith f res, 0 ≤ x := by
  intro x hx
  obtain ⟨e, he, rfl⟩ := List.mem_map.mp ((getSharesWith_perm hf0 res).subset hx)
  exact hnn e.1 e.2 (get_of_mem_entries he ▸ hr e.1)

/-- **More usage ranks at least as high**, for any share function that is `0`
at `0`, non-negative and monotone on non-negative usages. -/
theorem compareTop_sharesWith_nonpos (hf0 : ∀ k, f k 0 = 0) (hnn : ∀ k v, 0 ≤ v → 0 ≤ f k v)
    (hmono : ∀ k v w, 0 ≤ v → v ≤ w → f k v ≤ f k w) {a a' : Option Resource}
    (ha : ∀ k, 0 ≤ (orZero a).get k) (hle : ∀ k, (orZero a).get k ≤ (orZero a').get k) :
    compareTop (getSharesWith f a).reverse (getSharesWith f a').reverse ≤ 0 := by
  have ha' : ∀ k, 0 ≤ (orZero a').get k := fun k => (ha k).trans (hle k)
  refine compareTop_nonpos_of_countP_le (List.pairwise_reverse.mpr (getSharesWith_sorted a))
    (List.pairwise_reverse.mpr (getSharesWith_sorted a'))
    (fun x hx => getSharesWith_nonneg hf0 hnn ha x (List.mem_reverse.mp hx))
    (fun x hx => getSharesWith_nonneg hf0 hnn ha' x (List.mem_reverse.mp hx)) fun v hv => ?_
  rw [List.countP_reverse, List.countP_reverse, countP_getSharesWith hf0, countP_getSharesWith hf0]
  refine (List.subperm_of_subset ((AList.keys_nodup _).filter _) fun k hk => ?_).length_le
  obtain ⟨-, hvk⟩ := List.mem_filter.mp hk
  have hvk : v ≤ f k ((orZero a').get k) := (of_decide_eq_true hvk).trans (hmono k _ _ (ha k) (hle k))
  have hmem : k ∈ (orZero a').resources := by
    by_contra hn
    rw [get_of_not_mem hn, hf0] at hvk
    exact absurd hv hvk.not_lt
  exact List.mem_filter.mpr ⟨AList.mem_keys.mpr hmem, decide_eq_true hvk⟩

end

/-- Get the share of each resource quantity when compared to the total
resources quantity (`getShares`), sorted in increasing order. -/
def getShares (res total : Option Resource) : List ℚ := getSharesWith (share total) res

/-- Calculate share for left of total and right of total (`CompUsageRatio`):
`0` for equal shares, `1` if the left share is larger, `-1` if the right share
is larger. -/
def compUsageRatio (left right total : Option Resource) : ℤ :=
  compareShares (getShares left total) (getShares right total)

/-! ### Ranking -/

theorem compareTop_shares_nonpos {t a a' : Option Resource} (ht : ∀ k, 0 ≤ (orZero t).get k)
    (ha : ∀ k, 0 ≤ (orZero a).get k) (hle : ∀ k, (orZero a).get k ≤ (orZero a').get k) :
    compareTop (getShares a t).reverse (getShares a' t).reverse ≤ 0 :=
  compareTop_sharesWith_nonpos (share_zero t) (fun k _ hv => share_nonneg (ht k) hv)
    (fun k _ _ _ h => share_mono (ht k) h) ha hle

/-- **`CompUsageRatio` is a total preorder** for every total: reflexive,
antisymmetric and transitive, for all resources, nil and any signs included. -/
theorem compUsageRatio_total_preorder (t : Option Resource) :
    (∀ a, compUsageRatio a a t = 0) ∧
    (∀ a b, compUsageRatio a b t = -compUsageRatio b a t) ∧
    (∀ a b c, compUsageRatio a b t ≤ 0 → compUsageRatio b c t ≤ 0 → compUsageRatio a c t ≤ 0) :=
  ⟨fun _ => compareTop_self _, fun _ _ => compareTop_swap _ _, fun _ _ _ => compareTop_trans⟩

/-- **More usage never ranks as less used.** Under a total with no negative
value, if `a` has no negative value and `a'` dominates it at every type, then
`a` ranks at most as high as `a'` against every resource. -/
theorem compUsageRatio_mono (t a a' : Option Resource) (ht : ∀ k, 0 ≤ (orZero t).get k)
    (ha : ∀ k, 0 ≤ (orZero a).get k) (hle : ∀ k, (orZero a).get k ≤ (orZero a').get k)
    (b : Option Resource) : compUsageRatio a b t ≤ compUsageRatio a' b t :=
  compareTop_le_of_nonpos (compareTop_shares_nonpos ht ha hle) _

/-- A run of the monotonicity: `{x: 1}` against `{x: 2, y: 0}` under the total
`{x: 4}`, compared with `{y: 1}`. -/
theorem compUsageRatio_mono_small :
    let t := some (newResource.set "x" ⟨4, by decide, by decide⟩)
    let a := some (newResource.set "x" ⟨1, by decide, by decide⟩)
    let a' := some ((newResource.set "x" ⟨2, by decide, by decide⟩).set "y" 0)
    (∀ k, 0 ≤ (orZero t).get k) ∧ (∀ k, 0 ≤ (orZero a).get k) ∧
      (∀ k, (orZero a).get k ≤ (orZero a').get k) ∧
      compUsageRatio a (some (newResource.set "y" ⟨1, by decide, by decide⟩)) t ≤
        compUsageRatio a' (some (newResource.set "y" ⟨1, by decide, by decide⟩)) t := by
  have ht : ∀ k, 0 ≤ (orZero (some (newResource.set "x" ⟨4, by decide, by decide⟩))).get k :=
    fun k => by rw [orZero_some, get_set]; split_ifs; exacts [by decide, le_refl 0]
  have ha : ∀ k, 0 ≤ (orZero (some (newResource.set "x" ⟨1, by decide, by decide⟩))).get k :=
    fun k => by rw [orZero_some, get_set]; split_ifs; exacts [by decide, le_refl 0]
  have hle : ∀ k, (orZero (some (newResource.set "x" ⟨1, by decide, by decide⟩))).get k ≤
      (orZero (some ((newResource.set "x" ⟨2, by decide, by decide⟩).set "y" 0))).get k :=
    fun k => by
      simp only [orZero_some, get_set, get_newResource]
      by_cases hx : k = "x"
      · subst hx; decide
      · rw [if_neg hx]; split_ifs <;> decide
  exact ⟨ht, ha, hle, compUsageRatio_mono _ _ _ ht ha hle _⟩

/-- With no negative value anywhere, resources equal at every type (explicit
zero entries apart) rank the same against every resource. -/
theorem compUsageRatio_congr_of_nonneg {t a a' : Option Resource} (ht : ∀ k, 0 ≤ (orZero t).get k)
    (ha : ∀ k, 0 ≤ (orZero a).get k) (h : equalsOrEmpty a a' = true) (b : Option Resource) :
    compUsageRatio a b t = compUsageRatio a' b t := by
  have h := (equalsOrEmpty_iff a a').mp h
  have ha' : ∀ k, 0 ≤ (orZero a').get k := fun k => h k ▸ ha k
  exact le_antisymm
    (compareTop_le_of_nonpos (compareTop_shares_nonpos ht ha fun k => (h k).le) _)
    (compareTop_le_of_nonpos (compareTop_shares_nonpos ht ha' fun k => (h k).ge) _)

theorem getShares_none_of_small (r : Resource) (h : ∀ e ∈ r.resources.entries, |e.2.val| ≤ 2 ^ 53) :
    getShares (some r) none = getSharesWith (fun _ v => (v.val : ℚ)) (some r) :=
  getSharesWith_congr (some r) fun e he => roundQ_intCast (h e he)

/-- **An explicit zero entry moves the ranking.** With no total, `{x: -1}` has
the shares `[-1]` and `{x: -1, y: 0}` the shares `[-1, 0]`: the `0.0` slot
left for `y` tops the second list. -/
theorem compUsageRatio_zero_entry :
    equalsOrEmpty (some (newResource.set "x" ⟨-1, by decide, by decide⟩))
      (some ((newResource.set "x" ⟨-1, by decide, by decide⟩).set "y" 0)) = true ∧
    compUsageRatio (some (newResource.set "x" ⟨-1, by decide, by decide⟩))
      (some ((newResource.set "x" ⟨-1, by decide, by decide⟩).set "y" 0)) none = -1 := by
  refine ⟨by decide, ?_⟩
  rw [compUsageRatio, getShares_none_of_small _ (by decide), getShares_none_of_small _ (by decide)]
  decide

/-! ### `FairnessRatio` -/

theorem le_getLastD_of_sorted : ∀ (l : List ℚ) (d : ℚ), l.Sorted (· ≤ ·) → ∀ x ∈ l, x ≤ l.getLastD d
  | [], _, _, _, hx => absurd hx (List.not_mem_nil _)
  | a :: l, _, hs, x, hx => by
    obtain ⟨ha, hs⟩ := List.sorted_cons.mp hs
    rw [List.getLastD_cons]
    rcases List.mem_cons.mp hx with rfl | hx
    · rcases List.mem_cons.mp (List.getLastD_mem_cons l x) with h | h
      · rw [h]
      · exact ha _ h
    · exact le_getLastD_of_sorted l a hs x hx


section
variable (f : String → Quantity → ℚ)

/-- The largest share of a resource (`FairnessRatio`'s `lshare` and
`rshare`): the last of the sorted shares, `0` for an empty list. -/
def largestShareWith (res : Option Resource) : ℚ := (getSharesWith f res).getLastD 0

/-- `FairnessRatio`: the largest share of `left` over that of `right`, with
`1` for a NaN quotient. -/
def fairnessRatioWith (left right : Option Resource) : Float64 :=
  let ratio := (Float64.finite (largestShareWith f left)).div (.finite (largestShareWith f right))
  if ratio.isNaN then .finite 1 else ratio

theorem largestShareWith_spec (res : Option Resource) :
    (∀ s ∈ getSharesWith f res, s ≤ largestShareWith f res) ∧
      (largestShareWith f res ∈ getSharesWith f res ∨ (getSharesWith f res = [] ∧ largestShareWith f res = 0)) := by
  refine ⟨le_getLastD_of_sorted _ 0 (getSharesWith_sorted res), ?_⟩
  unfold largestShareWith
  rcases h : getSharesWith f res with _ | ⟨a, l⟩
  · exact .inr ⟨rfl, rfl⟩
  · exact .inl (by rw [List.getLastD_cons]; exact List.getLastD_mem_cons l a)

variable {f}

theorem largestShareWith_nonneg (hf0 : ∀ k, f k 0 = 0) (hnn : ∀ k v, 0 ≤ v → 0 ≤ f k v) {res : Option Resource}
    (hr : ∀ k, 0 ≤ (orZero res).get k) : 0 ≤ largestShareWith f res := by
  rcases (largestShareWith_spec f res).2 with h | ⟨-, h⟩
  · exact getSharesWith_nonneg hf0 hnn hr _ h
  · exact h.ge

theorem le_largestShareWith (hf0 : ∀ k, f k 0 = 0) (hnn : ∀ k v, 0 ≤ v → 0 ≤ f k v) {res : Option Resource}
    (hr : ∀ k, 0 ≤ (orZero res).get k) (k : String) : f k ((orZero res).get k) ≤ largestShareWith f res := by
  by_cases hk : k ∈ (orZero res).resources
  · exact (largestShareWith_spec f res).1 _ ((getSharesWith_perm hf0 res).symm.subset
      (List.mem_map.mpr ⟨⟨k, _⟩, AList.mem_lookup_iff.mp (lookup_of_mem hk), rfl⟩))
  · rw [get_of_not_mem hk, hf0]
    exact largestShareWith_nonneg hf0 hnn hr

/-- **The largest share grows with the usage**, for a share function that is
`0` at `0`, non-negative and monotone on non-negative usages. -/
theorem largestShareWith_mono (hf0 : ∀ k, f k 0 = 0) (hnn : ∀ k v, 0 ≤ v → 0 ≤ f k v)
    (hmono : ∀ k v w, 0 ≤ v → v ≤ w → f k v ≤ f k w) {a a' : Option Resource}
    (ha : ∀ k, 0 ≤ (orZero a).get k) (hle : ∀ k, (orZero a).get k ≤ (orZero a').get k) :
    largestShareWith f a ≤ largestShareWith f a' := by
  have ha' : ∀ k, 0 ≤ (orZero a').get k := fun k => (ha k).trans (hle k)
  rcases (largestShareWith_spec f a).2 with h | ⟨-, h⟩
  · obtain ⟨e, he, hfe⟩ := List.mem_map.mp ((getSharesWith_perm hf0 a).subset h)
    rw [← hfe, ← get_of_mem_entries he]
    exact (hmono _ _ _ (ha e.1) (hle e.1)).trans (le_largestShareWith hf0 hnn ha' e.1)
  · exact h ▸ largestShareWith_nonneg hf0 hnn ha'

/-- **`FairnessRatio` grows with the left usage and falls with the right
usage**, against a right side with a positive largest share: more usage on the
left never gives a smaller ratio, more on the right never a larger one. -/
theorem fairnessRatioWith_mono (hf0 : ∀ k, f k 0 = 0) (hnn : ∀ k v, 0 ≤ v → 0 ≤ f k v)
    (hmono : ∀ k v w, 0 ≤ v → v ≤ w → f k v ≤ f k w) {a a' b b' : Option Resource}
    (ha : ∀ k, 0 ≤ (orZero a).get k) (hle : ∀ k, (orZero a).get k ≤ (orZero a').get k)
    (hb : ∀ k, 0 ≤ (orZero b).get k) (hble : ∀ k, (orZero b).get k ≤ (orZero b').get k)
    (hpos : 0 < largestShareWith f b) :
    (fairnessRatioWith f a' b).lt (fairnessRatioWith f a b) = false ∧
      (fairnessRatioWith f a b).lt (fairnessRatioWith f a b') = false := by
  have hpos' : 0 < largestShareWith f b' := hpos.trans_le (largestShareWith_mono hf0 hnn hmono hb hble)
  have hdiv : ∀ l r : ℚ, 0 < r → (Float64.finite l).div (.finite r) = Float64.ofRat (l / r) := fun l r hr => by
    rw [Float64.div_finite, if_neg hr.ne']
  simp only [fairnessRatioWith, hdiv _ _ hpos, hdiv _ _ hpos', Float64.isNaN_ofRat, Bool.false_eq_true, if_false]
  exact ⟨Float64.lt_ofRat_of_le (div_le_div_of_nonneg_right (largestShareWith_mono hf0 hnn hmono ha hle) hpos.le),
    Float64.lt_ofRat_of_le (div_le_div_of_nonneg_left (largestShareWith_nonneg hf0 hnn ha) hpos
      (largestShareWith_mono hf0 hnn hmono hb hble))⟩

end

/-- The largest share of `res` against `total`. -/
def largestShare (res total : Option Resource) : ℚ := largestShareWith (share total) res

/-- `FairnessRatio` on the `float64` shares of `getShares`. -/
def fairnessRatio (left right total : Option Resource) : Float64 := fairnessRatioWith (share total) left right

theorem abs_largestShare_mem (res total : Option Resource) :
    |largestShare res total| ≤ 2 ^ 63 ∧ (largestShare res total ≠ 0 → 1 / 2 ^ 63 ≤ |largestShare res total|) := by
  rcases (largestShareWith_spec (share total) res).2 with h | ⟨-, h⟩
  · obtain ⟨e, -, he⟩ := List.mem_map.mp ((getSharesWith_perm (share_zero total) res).subset h)
    rw [largestShare, ← he]
    exact abs_share_mem total e.1 e.2
  · rw [largestShare, h]; norm_num

/-- **`FairnessRatio` divides the largest shares without overflow.** A non-zero
right share gives the finite rounded quotient; a zero one gives `1` only for a
zero left share, and otherwise the infinity of the left share's sign. -/
theorem fairnessRatio_spec (left right total : Option Resource) :
    (∀ res ∈ [left, right], (∀ s ∈ getShares res total, s ≤ largestShare res total) ∧
      (largestShare res total ∈ getShares res total ∨
        (getShares res total = [] ∧ largestShare res total = 0))) ∧
    fairnessRatio left right total =
      if largestShare right total = 0 then
        (if largestShare left total = 0 then .finite 1 else .inf (decide (largestShare left total < 0)))
      else .finite (roundQ (largestShare left total / largestShare right total)) := by
  refine ⟨fun res _ => largestShareWith_spec (share total) res, ?_⟩
  have hls : ∀ res, largestShareWith (share total) res = largestShare res total := fun _ => rfl
  simp only [fairnessRatio, fairnessRatioWith, Float64.div_finite, hls]
  by_cases hr : largestShare right total = 0
  · by_cases hl : largestShare left total = 0 <;> simp [hr, hl, Float64.isNaN]
  · have hbound : |largestShare left total / largestShare right total| ≤ 2 ^ (1023 : ℤ) := by
      rw [abs_div, div_le_iff₀ (abs_pos.mpr hr)]
      calc |largestShare left total| ≤ 2 ^ 63 := (abs_largestShare_mem left total).1
        _ ≤ 2 ^ (1023 : ℤ) * (1 / 2 ^ 63) := by norm_num
        _ ≤ 2 ^ (1023 : ℤ) * |largestShare right total| :=
          mul_le_mul_of_nonneg_left ((abs_largestShare_mem right total).2 hr) (by positivity)
    simp [hr, Float64.ofRat_of_abs_le hbound, Float64.isNaN]

/-- **`FairnessRatio` grows with the left usage and falls with the right one**,
with no negative value anywhere and a positive right share. -/
theorem fairnessRatio_mono (t a a' b b' : Option Resource) (ht : ∀ k, 0 ≤ (orZero t).get k)
    (ha : ∀ k, 0 ≤ (orZero a).get k) (hle : ∀ k, (orZero a).get k ≤ (orZero a').get k)
    (hb : ∀ k, 0 ≤ (orZero b).get k) (hble : ∀ k, (orZero b).get k ≤ (orZero b').get k)
    (hpos : 0 < largestShare b t) :
    (fairnessRatio a' b t).lt (fairnessRatio a b t) = false ∧
      (fairnessRatio a b t).lt (fairnessRatio a b' t) = false :=
  fairnessRatioWith_mono (share_zero t) (fun k _ hv => share_nonneg (ht k) hv)
    (fun k _ _ _ h => share_mono (ht k) h) ha hle hb hble hpos

/-- With no total: `{x: 1}` grown to `{x: 2}` on the left, `{x: 1}` grown to
`{x: 3}` on the right. -/
theorem fairnessRatio_mono_small :
    (∀ k, 0 ≤ (orZero none).get k) ∧
    (∀ k, 0 ≤ (orZero (some (newResource.set "x" ⟨1, by decide, by decide⟩))).get k) ∧
    (∀ k, (orZero (some (newResource.set "x" ⟨1, by decide, by decide⟩))).get k ≤
      (orZero (some (newResource.set "x" ⟨2, by decide, by decide⟩))).get k) ∧
    (∀ k, (orZero (some (newResource.set "x" ⟨1, by decide, by decide⟩))).get k ≤
      (orZero (some (newResource.set "x" ⟨3, by decide, by decide⟩))).get k) ∧
    0 < largestShare (some (newResource.set "x" ⟨1, by decide, by decide⟩)) none ∧
    (fairnessRatio (some (newResource.set "x" ⟨2, by decide, by decide⟩))
        (some (newResource.set "x" ⟨1, by decide, by decide⟩)) none).lt
      (fairnessRatio (some (newResource.set "x" ⟨1, by decide, by decide⟩))
        (some (newResource.set "x" ⟨1, by decide, by decide⟩)) none) = false ∧
    (fairnessRatio (some (newResource.set "x" ⟨1, by decide, by decide⟩))
        (some (newResource.set "x" ⟨1, by decide, by decide⟩)) none).lt
      (fairnessRatio (some (newResource.set "x" ⟨1, by decide, by decide⟩))
        (some (newResource.set "x" ⟨3, by decide, by decide⟩)) none) = false := by
  have ht : ∀ k, 0 ≤ (orZero (none : Option Resource)).get k := fun k => le_refl 0
  have ha : ∀ k, 0 ≤ (orZero (some (newResource.set "x" ⟨1, by decide, by decide⟩))).get k :=
    fun k => by rw [orZero_some, get_set]; split_ifs; exacts [by decide, le_refl 0]
  have hle : ∀ n : ℤ, (h1 : -9223372036854775808 ≤ n) → (h2 : n ≤ 9223372036854775807) → 1 ≤ n →
      ∀ k, (orZero (some (newResource.set "x" ⟨1, by decide, by decide⟩))).get k ≤
        (orZero (some (newResource.set "x" ⟨n, h1, h2⟩))).get k := fun n _ _ hn k => by
    simp only [orZero_some, get_set, get_newResource]; split_ifs; exacts [hn, le_refl 0]
  have hpos : 0 < largestShare (some (newResource.set "x" ⟨1, by decide, by decide⟩)) none :=
    lt_of_lt_of_le (by simp [share, get_set]) (le_largestShareWith (share_zero none)
      (fun k _ hv => share_nonneg (ht k) hv) ha "x")
  exact ⟨ht, ha, hle 2 (by decide) (by decide) (by decide), hle 3 (by decide) (by decide) (by decide), hpos,
    fairnessRatio_mono _ _ _ _ _ ht ha (hle 2 (by decide) (by decide) (by decide)) ha
      (hle 3 (by decide) (by decide) (by decide)) hpos⟩

end Resources
