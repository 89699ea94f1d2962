/-
# Usage accounting over a run of in-place updates

A scheduler keeps a usage resource and applies `AddTo` and `SubFrom` to it as
allocations come and go. A run is a list of such steps (`Step`), and the exact
account of a type is the base's value plus what the steps added minus what
they subtracted (`exactTotal`).

The invariant `Tracks r tot` says the base holds the exact account `tot`. A
step keeps it whenever the new account is representable and the step does not
subtract `MinInt64` (`Step.tracks`), so a whole run keeps it
(`run_tracks_of_noMinSub`, `run_exact_of_noMinSub`). The `MinInt64` proviso
cannot go: subtracting `MinInt64` from `-1` leaves `MinInt64` in the base
while the exact account `MaxInt64` is representable (`run_min_subtrahend`).

Key definitions: `Step`, `run`, `exactTotal`, `Tracks`.
Key theorems: `Step.tracks`, `run_tracks_of_noMinSub`, `run_exact_of_noMinSub`, `run_min_subtrahend`.
-/
import Yunikorn.Algebra
import Mathlib.Algebra.Ring.Int.Defs

namespace Resources

open Resource

/-- One in-place update of the base: `base.AddTo(d)` or `base.SubFrom(d)`. -/
inductive Step
  | addTo (d : Option Resource)
  | subFrom (d : Option Resource)

namespace Step

def apply : Step → Option Resource → Option Resource
  | addTo d, r => Resources.addTo r d
  | subFrom d, r => Resources.subFrom r d

/-- What the step adds to the exact account of type `k`. -/
def delta : Step → String → ℤ
  | addTo d, k => ((orZero d).get k).val
  | subFrom d, k => -((orZero d).get k).val

/-- The step subtracts no `MinInt64`. -/
def NoMinSub : Step → Prop
  | addTo _ => True
  | subFrom d => ∀ k, (orZero d).get k ≠ minQuantity

end Step

/-- The base after the steps, in order. -/
def run (base : Option Resource) (steps : List Step) : Option Resource :=
  steps.foldl (fun r s => s.apply r) base

/-- The exact account of type `k`: the base's value plus the steps' deltas. -/
def exactTotal (base : Resource) (steps : List Step) (k : String) : ℤ :=
  (base.get k).val + (steps.map (·.delta k)).sum

/-- The base is set and holds the account `tot` at every type. -/
def Tracks (r : Option Resource) (tot : String → ℤ) : Prop :=
  ∃ b, r = some b ∧ ∀ k, (b.get k).val = tot k

def InRange (tot : String → ℤ) : Prop :=
  ∀ k, minInt64 ≤ tot k ∧ tot k ≤ maxInt64

/-- **The step lemma.** A step that subtracts no `MinInt64` and leads to a
representable account keeps the base on the exact account. -/
theorem Step.tracks {r : Option Resource} {tot : String → ℤ} (s : Step) (hs : s.NoMinSub)
    (h : Tracks r tot) (hin : InRange fun k => tot k + s.delta k) :
    Tracks (s.apply r) fun k => tot k + s.delta k := by
  obtain ⟨b, rfl, hb⟩ := h
  cases s with
  | addTo d =>
    refine ⟨_, applyTo_some addVal b d, fun k => ?_⟩
    rw [get_applyEach_addVal, hb]
    exact clamp_of_mem (hin k).1 (hin k).2
  | subFrom d =>
    refine ⟨_, applyTo_some subVal b d, fun k => ?_⟩
    rw [get_applyEach_subVal _ _ (hs k), hb, Int.sub_eq_add_neg]
    exact clamp_of_mem (hin k).1 (hin k).2

/-- **The run lemma.** If no step subtracts `MinInt64` and the exact account
is representable after every step, the base holds the exact account at the
end. -/
theorem run_tracks_of_noMinSub :
    ∀ (steps : List Step) (r : Option Resource) (tot : String → ℤ), Tracks r tot →
      (∀ s ∈ steps, s.NoMinSub) →
      (∀ i ≤ steps.length, InRange fun k => tot k + ((steps.take i).map (·.delta k)).sum) →
      Tracks (run r steps) fun k => tot k + (steps.map (·.delta k)).sum
  | [], r, tot, h, _, _ => by simpa [run] using h
  | s :: steps, r, tot, h, hs, hin => by
    have h1 := s.tracks (hs s (List.mem_cons_self _ _)) h (by simpa using hin 1 (by simp))
    have := run_tracks_of_noMinSub steps _ _ h1 (fun s' hs' => hs s' (List.mem_cons_of_mem _ hs'))
      (fun i hi => by simpa [Int.add_assoc] using hin (i + 1) (by simpa using hi))
    simpa [run, Int.add_assoc] using this

/-- **In-place accounting is exact.** From a set base, a run of `AddTo` and
`SubFrom` that subtracts no `MinInt64` and keeps the exact account of every
prefix representable ends on the exact account at every type. -/
theorem run_exact_of_noMinSub (base : Resource) (steps : List Step) (hs : ∀ s ∈ steps, s.NoMinSub)
    (hin : ∀ i ≤ steps.length, InRange (exactTotal base (steps.take i))) :
    ∃ r, run (some base) steps = some r ∧ ∀ k, (r.get k).val = exactTotal base steps k :=
  run_tracks_of_noMinSub steps (some base) (fun k => (base.get k).val) ⟨base, rfl, fun _ => rfl⟩ hs hin

theorem run_exact_of_noMinSub_small :
    (∀ s ∈ [Step.addTo (some (newResource.set "x" ⟨2, by decide, by decide⟩)),
        Step.subFrom (some (newResource.set "x" ⟨1, by decide, by decide⟩))], s.NoMinSub) ∧
    (∀ i ≤ 2, InRange (exactTotal (newResource.set "x" ⟨1, by decide, by decide⟩)
      ([Step.addTo (some (newResource.set "x" ⟨2, by decide, by decide⟩)),
        Step.subFrom (some (newResource.set "x" ⟨1, by decide, by decide⟩))].take i))) ∧
    ∃ r, run (some (newResource.set "x" ⟨1, by decide, by decide⟩))
        [Step.addTo (some (newResource.set "x" ⟨2, by decide, by decide⟩)),
          Step.subFrom (some (newResource.set "x" ⟨1, by decide, by decide⟩))] = some r ∧
      ∀ k, (r.get k).val = exactTotal (newResource.set "x" ⟨1, by decide, by decide⟩)
        [Step.addTo (some (newResource.set "x" ⟨2, by decide, by decide⟩)),
          Step.subFrom (some (newResource.set "x" ⟨1, by decide, by decide⟩))] k := by
  have hs : ∀ s ∈ [Step.addTo (some (newResource.set "x" ⟨2, by decide, by decide⟩)),
      Step.subFrom (some (newResource.set "x" ⟨1, by decide, by decide⟩))], s.NoMinSub := by
    intro s hs
    rcases List.mem_pair.mp hs with rfl | rfl
    · trivial
    · intro k
      by_cases hk : k = "x"
      · subst hk; decide
      · simp only [Step.NoMinSub, orZero_some, get_set_ne _ _ hk, get_newResource]; decide
  have hin : ∀ i ≤ 2, InRange (exactTotal (newResource.set "x" ⟨1, by decide, by decide⟩)
      ([Step.addTo (some (newResource.set "x" ⟨2, by decide, by decide⟩)),
        Step.subFrom (some (newResource.set "x" ⟨1, by decide, by decide⟩))].take i)) := by
    intro i hi k
    obtain rfl | rfl | rfl : i = 0 ∨ i = 1 ∨ i = 2 := by omega
    all_goals by_cases hk : k = "x"
    all_goals simp [hk, exactTotal, Step.delta, get_set_ne, minInt64, maxInt64]
  exact ⟨hs, hin, run_exact_of_noMinSub _ _ hs hin⟩

/-- **A representable run the base does not track.** From `{x: -1}`,
`SubFrom({x: MinInt64})`: the exact account stays representable (it is `-1`
and then `MaxInt64` at `x`, `0` elsewhere), but the base ends at `MinInt64`. -/
theorem run_min_subtrahend :
    (∀ i ≤ 1, InRange (exactTotal (newResource.set "x" ⟨-1, by decide, by decide⟩)
      ([Step.subFrom (some (newResource.set "x" minQuantity))].take i))) ∧
    (orZero (run (some (newResource.set "x" ⟨-1, by decide, by decide⟩))
      [Step.subFrom (some (newResource.set "x" minQuantity))])).get "x" = minQuantity ∧
    exactTotal (newResource.set "x" ⟨-1, by decide, by decide⟩)
      [Step.subFrom (some (newResource.set "x" minQuantity))] "x" = maxInt64 := by
  refine ⟨fun i hi k => ?_, ?_, ?_⟩
  · obtain rfl | rfl : i = 0 ∨ i = 1 := by omega
    all_goals by_cases hk : k = "x"
    all_goals simp [hk, exactTotal, Step.delta, get_set_ne, minInt64, maxInt64]
  · simp only [run, List.foldl, Step.apply, subFrom, applyTo_some, orZero_some, get_applyEach,
      if_pos (show "x" ∈ (newResource.set "x" minQuantity).resources by decide), get_set_self]
    exact (subVal_minQuantity _).trans rfl
  · simp [exactTotal, Step.delta, minInt64, maxInt64]

end Resources
