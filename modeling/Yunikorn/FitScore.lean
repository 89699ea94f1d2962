/-
# How badly a request fits: `FitInScore`

`FitInScore` walks the types of `fit` and adds to a `float64` score, for each,
how much of it the receiver lacks: nothing for a non-positive request, `1` for
a non-positive receiver value, and `float64(fitVal-resVal) / float64(fitVal)`
otherwise; `score++` and `score +=` round their sum. A `nil` receiver scores
`float64(len(fit.Resources))`.

Each type scores a `float64` in `[0, 1]` that is `0` exactly when the type
fits (`typeScore_spec`), so in every order of Go's map iteration the rounded
sum is never negative, never above the number of types, and `0` exactly when
`FitIn` holds (`fitInScore_bounds_zero_iff_fitIn`): it stays below `min(i, 2^53)`
after `i` types. The `nil` receiver's `float64(len)` exceeds the count past
`2^53` types (`fitInScore_nil_exceeds_length`). More available resource never
raises the score of one visiting order (`fitInScore_anti_same_order`).

The exact score, with the fractions and the sum taken as rationals, never
grows with the receiver (`exactFitInScore_anti`), and the code's score is
within a relative `2^-53` per rounding of it (`fitInScore_near_exact`).

Key definitions: `typeScore`, `fitScoreStep`, `fitScoreLoop`, `fitInScore`, `exactTypeScore`,
`exactFitInScore`.
Key theorems: `typeScore_spec`, `fitScoreLoop_eq`, `foldl_roundQ_add_le_min`,
`fitInScore_bounds_zero_iff_fitIn`, `fitInScore_anti_same_order`, `exactFitInScore_anti`,
`foldl_roundQ_add_mem`, `fitInScore_near_exact`.
-/
import Yunikorn.Compare
import Yunikorn.Float64
import Mathlib.Algebra.Order.BigOperators.Group.List

namespace Resources

open Resource

/-- What one type of `fit` adds to the score: nothing for a non-positive
request, `1` for a non-positive receiver value, and
`float64(fitVal-resVal) / float64(fitVal)` for a smaller one. -/
def typeScore (resVal fitVal : Quantity) : ℚ :=
  if fitVal ≤ 0 then 0
  else if resVal ≤ 0 then 1
  else if fitVal > resVal then quotFloat (fitVal - resVal) fitVal
  else 0

/-- One iteration of the loop of `FitInScore`: a non-positive request is
skipped, `score++` and `score +=` round their sum, and a fitting type leaves
the score alone. -/
def fitScoreStep (r : Resource) (score : ℚ) (e : Σ _ : String, Quantity) : ℚ :=
  if e.2 ≤ 0 then score
  else if r.get e.1 ≤ 0 then roundQ (score + 1)
  else if e.2 > r.get e.1 then roundQ (score + quotFloat (e.2 - r.get e.1) e.2)
  else score

/-- The loop of `FitInScore` over the entries of `fit` in the order given. -/
def fitScoreLoop (r : Resource) (entries : List (Σ _ : String, Quantity)) : ℚ :=
  entries.foldl (fitScoreStep r) 0

/-- `FitInScore`: `0` for a `nil` fit, `float64(len(fit.Resources))` for a
`nil` receiver, otherwise the loop from `0`. -/
def fitInScore (r fit : Option Resource) : ℚ :=
  match r, fit with
  | _, none => 0
  | none, some fit => roundQ fit.resources.entries.length
  | some r, some fit => fitScoreLoop r fit.resources.entries

/-! ### One type -/

/-- The source's `fitVal - resVal` does not wrap once `0 < resVal < fitVal`. -/
theorem val_sub_of_pos_lt {resVal fitVal : Quantity} (hr : 0 < resVal) (h : resVal < fitVal) :
    (fitVal - resVal).val = fitVal.val - resVal.val := by
  have := fitVal.le_max
  rw [val_sub, val_wrap_of_mem]
  simp only [Quantity.lt_def, Quantity.val_zero, minInt64, maxInt64] at *
  omega

theorem sub_pos_of_pos_lt {resVal fitVal : Quantity} (hr : 0 < resVal) (h : resVal < fitVal) :
    0 < fitVal - resVal := by
  rw [Quantity.lt_def, val_sub_of_pos_lt hr h]; exact sub_pos.mpr h

/-- The three outcomes of one type: it fits and scores `0`, the receiver has
none of it and it scores `1`, or it scores the `float64` fraction it misses. -/
theorem typeScore_cases (resVal fitVal : Quantity) :
    (fitVal ≤ max 0 resVal ∧ typeScore resVal fitVal = 0) ∨
    (0 < fitVal ∧ resVal ≤ 0 ∧ typeScore resVal fitVal = 1) ∨
    (0 < resVal ∧ resVal < fitVal ∧ typeScore resVal fitVal = quotFloat (fitVal - resVal) fitVal) := by
  unfold typeScore
  split_ifs with hf hr h
  · exact .inl ⟨hf.trans (le_max_left _ _), rfl⟩
  · exact .inr (.inl ⟨not_le.mp hf, hr, rfl⟩)
  · exact .inr (.inr ⟨not_le.mp hr, h, rfl⟩)
  · exact .inl ⟨(not_lt.mp h).trans (le_max_right _ _), rfl⟩

theorem quotFloat_sub_le_one {resVal fitVal : Quantity} (hr : 0 < resVal) (h : resVal < fitVal) :
    quotFloat (fitVal - resVal) fitVal ≤ 1 := by
  rw [quotFloat, ← roundQ_one]
  refine roundQ_monotone ((div_le_one (zero_lt_one.trans_le (one_le_roundQ (hr.trans h)))).mpr
    (roundQ_monotone (Int.cast_le.mpr ?_)))
  rw [val_sub_of_pos_lt hr h]
  have : (0 : ℤ) < resVal.val := hr
  omega

/-- Each type scores a `float64` in `[0, 1]`, and `0` exactly when it fits. -/
theorem typeScore_spec (resVal fitVal : Quantity) :
    0 ≤ typeScore resVal fitVal ∧ typeScore resVal fitVal ≤ 1 ∧
      roundQ (typeScore resVal fitVal) = typeScore resVal fitVal ∧
      (typeScore resVal fitVal = 0 ↔ fitVal ≤ max 0 resVal) := by
  rcases typeScore_cases resVal fitVal with ⟨hfit, h⟩ | ⟨hf, hr, h⟩ | ⟨hr, hlt, h⟩ <;> rw [h]
  · exact ⟨le_rfl, zero_le_one, roundQ_zero, iff_of_true rfl hfit⟩
  · exact ⟨zero_le_one, le_rfl, roundQ_one,
      iff_of_false one_ne_zero fun h => absurd (h.trans_eq (max_eq_left hr)) (not_le.mpr hf)⟩
  · have hpos : 0 < quotFloat (fitVal - resVal) fitVal :=
      lt_of_lt_of_le (by norm_num) (inv_two_pow_le_roundQ_div (sub_pos_of_pos_lt hr hlt) (hr.trans hlt))
    exact ⟨hpos.le, quotFloat_sub_le_one hr hlt, roundQ_roundQ _,
      iff_of_false hpos.ne' fun h => absurd (h.trans_eq (max_eq_right hr.le)) (not_le.mpr hlt)⟩

theorem typeScore_anti (fitVal : Quantity) {resVal resVal' : Quantity} (h : resVal ≤ resVal') :
    typeScore resVal' fitVal ≤ typeScore resVal fitVal := by
  rcases typeScore_cases resVal' fitVal with ⟨-, h'⟩ | ⟨hf, hr', h'⟩ | ⟨hr', hlt', h'⟩ <;> rw [h']
  · exact (typeScore_spec resVal fitVal).1
  · rcases typeScore_cases resVal fitVal with ⟨hfit, -⟩ | ⟨-, -, h⟩ | ⟨hr, -, -⟩
    · exact absurd (hfit.trans_eq (max_eq_left (h.trans hr'))) (not_le.mpr hf)
    · exact h.ge
    · exact absurd (h.trans hr') (not_le.mpr hr)
  · rcases typeScore_cases resVal fitVal with ⟨hfit, -⟩ | ⟨-, -, h1⟩ | ⟨hr, hlt, h1⟩
    · exact absurd ((hfit.trans (max_le_max le_rfl h)).trans_eq (max_eq_right hr'.le)) (not_le.mpr hlt')
    · exact h1 ▸ quotFloat_sub_le_one hr' hlt'
    · rw [h1]
      refine quotFloat_mono (hr.trans hlt).le ?_
      show (fitVal - resVal').val ≤ (fitVal - resVal).val
      rw [val_sub_of_pos_lt hr' hlt', val_sub_of_pos_lt hr hlt]
      exact Int.sub_le_sub_left h _

/-! ### The rounded sum -/

theorem fitScoreStep_eq (r : Resource) {score : ℚ} (hs : roundQ score = score)
    (e : Σ _ : String, Quantity) :
    fitScoreStep r score e = roundQ (score + typeScore (r.get e.1) e.2) := by
  unfold fitScoreStep typeScore
  split_ifs <;> simp [hs]

/-- The loop is the sum of the type scores, rounded after every addition. -/
theorem fitScoreLoop_eq (r : Resource) (es : List (Σ _ : String, Quantity)) :
    fitScoreLoop r es = es.foldl (fun score e => roundQ (score + typeScore (r.get e.1) e.2)) 0 := by
  suffices h : ∀ (es : List (Σ _ : String, Quantity)) (s : ℚ), roundQ s = s →
      es.foldl (fitScoreStep r) s = es.foldl (fun score e => roundQ (score + typeScore (r.get e.1) e.2)) s
    from h es 0 roundQ_zero
  intro es
  induction es with
  | nil => intro s _; rfl
  | cons e es ih =>
    intro s hs
    rw [List.foldl_cons, List.foldl_cons, fitScoreStep_eq r hs e]
    exact ih _ (roundQ_roundQ _)

theorem foldl_roundQ_add_mono (g g' : (Σ _ : String, Quantity) → ℚ) (h : ∀ e, g e ≤ g' e) :
    ∀ (es : List (Σ _ : String, Quantity)) {s s' : ℚ}, s ≤ s' →
      es.foldl (fun score e => roundQ (score + g e)) s ≤ es.foldl (fun score e => roundQ (score + g' e)) s'
  | [], _, _, hs => hs
  | e :: es, _, _, hs => foldl_roundQ_add_mono g g' h es (roundQ_monotone (add_le_add hs (h e)))

/-- **More available resource never raises the score of one visiting order.**
For every order of the types of `fit`, the same in both runs, a receiver with
at least as much of every type scores at most as much. -/
theorem fitInScore_anti_same_order (fit : Option Resource) (r r' : Resource) (h : ∀ k, r.get k ≤ r'.get k) :
    (∀ order : List (Σ _ : String, Quantity), order.Perm (orZero fit).resources.entries →
      fitScoreLoop r' order ≤ fitScoreLoop r order) ∧
    fitInScore (some r') fit ≤ fitInScore (some r) fit := by
  have hloop : ∀ order : List (Σ _ : String, Quantity), fitScoreLoop r' order ≤ fitScoreLoop r order :=
    fun order => by
      rw [fitScoreLoop_eq, fitScoreLoop_eq]
      exact foldl_roundQ_add_mono _ _ (fun e => typeScore_anti e.2 (h e.1)) _ le_rfl
  refine ⟨fun order _ => hloop order, ?_⟩
  cases fit with
  | none => exact le_rfl
  | some fit => exact hloop _

/-- The request `{x: 10}` against the receivers `{x: 3}` and `{x: 5}`. -/
theorem fitInScore_anti_same_order_small :
    (∀ k, (newResource.set "x" ⟨3, by decide, by decide⟩).get k ≤ (newResource.set "x" ⟨5, by decide, by decide⟩).get k) ∧
    fitInScore (some (newResource.set "x" ⟨5, by decide, by decide⟩)) (some (newResource.set "x" ⟨10, by decide, by decide⟩)) ≤
      fitInScore (some (newResource.set "x" ⟨3, by decide, by decide⟩)) (some (newResource.set "x" ⟨10, by decide, by decide⟩)) := by
  have h : ∀ k, (newResource.set "x" ⟨3, by decide, by decide⟩).get k ≤
      (newResource.set "x" ⟨5, by decide, by decide⟩).get k := fun k => by
    rw [get_set, get_set]; split_ifs; exacts [by decide, le_rfl]
  exact ⟨h, (fitInScore_anti_same_order _ _ _ h).2⟩

/-! ### The exact score -/

/-- The score of one type with the fraction taken as an exact rational. -/
def exactTypeScore (resVal fitVal : Quantity) : ℚ :=
  if fitVal ≤ 0 then 0
  else if resVal ≤ 0 then 1
  else if fitVal > resVal then ((fitVal - resVal).val : ℚ) / fitVal.val
  else 0

/-- `FitInScore` with the fractions and their sum taken as exact rationals. -/
def exactFitInScore (r fit : Option Resource) : ℚ :=
  match r, fit with
  | _, none => 0
  | none, some fit => fit.resources.entries.length
  | some r, some fit => fit.resources.entries.foldl (fun score e => score + exactTypeScore (r.get e.1) e.2) 0

theorem ratio_pos_lt_one {resVal fitVal : Quantity} (hr : 0 < resVal) (h : resVal < fitVal) :
    0 < (resVal.val : ℚ) / fitVal.val ∧ (resVal.val : ℚ) / fitVal.val < 1 := by
  have hr : (0 : ℚ) < resVal.val := Int.cast_pos.mpr hr
  have h : (resVal.val : ℚ) < fitVal.val := Int.cast_lt.mpr h
  exact ⟨div_pos hr (hr.trans h), (div_lt_one (hr.trans h)).mpr h⟩

theorem exactTypeScore_cases (resVal fitVal : Quantity) :
    (fitVal ≤ max 0 resVal ∧ exactTypeScore resVal fitVal = 0) ∨
    (0 < fitVal ∧ resVal ≤ 0 ∧ exactTypeScore resVal fitVal = 1) ∨
    (0 < resVal ∧ resVal < fitVal ∧ exactTypeScore resVal fitVal = 1 - (resVal.val : ℚ) / fitVal.val) := by
  unfold exactTypeScore
  split_ifs with hf hr h
  · exact .inl ⟨hf.trans (le_max_left _ _), rfl⟩
  · exact .inr (.inl ⟨not_le.mp hf, hr, rfl⟩)
  · have hpos : (0 : ℚ) < fitVal.val := Int.cast_pos.mpr ((not_le.mp hr).trans h)
    refine .inr (.inr ⟨not_le.mp hr, h, ?_⟩)
    rw [val_sub_of_pos_lt (not_le.mp hr) h, Int.cast_sub, sub_div, div_self hpos.ne']
  · exact .inl ⟨(not_lt.mp h).trans (le_max_right _ _), rfl⟩

theorem exactTypeScore_mem (resVal fitVal : Quantity) :
    0 ≤ exactTypeScore resVal fitVal ∧ exactTypeScore resVal fitVal ≤ 1 := by
  rcases exactTypeScore_cases resVal fitVal with ⟨-, h⟩ | ⟨-, -, h⟩ | ⟨hr, hlt, h⟩ <;> rw [h]
  · exact ⟨le_rfl, zero_le_one⟩
  · exact ⟨zero_le_one, le_rfl⟩
  · have hq := ratio_pos_lt_one hr hlt
    exact ⟨sub_nonneg.mpr hq.2.le, sub_le_self _ hq.1.le⟩

theorem exactTypeScore_anti (fitVal : Quantity) {resVal resVal' : Quantity} (h : resVal ≤ resVal') :
    exactTypeScore resVal' fitVal ≤ exactTypeScore resVal fitVal := by
  rcases exactTypeScore_cases resVal' fitVal with ⟨-, h'⟩ | ⟨hf, hr', h'⟩ | ⟨hr', hlt', h'⟩ <;> rw [h']
  · exact (exactTypeScore_mem resVal fitVal).1
  · rcases exactTypeScore_cases resVal fitVal with ⟨hfit, -⟩ | ⟨-, -, h⟩ | ⟨hr, -, -⟩
    · exact absurd (hfit.trans_eq (max_eq_left (h.trans hr'))) (not_le.mpr hf)
    · exact h.ge
    · exact absurd (h.trans hr') (not_le.mpr hr)
  · have hq := ratio_pos_lt_one hr' hlt'
    rcases exactTypeScore_cases resVal fitVal with ⟨hfit, -⟩ | ⟨-, -, h1⟩ | ⟨hr, hlt, h1⟩
    · exact absurd ((hfit.trans (max_le_max le_rfl h)).trans_eq (max_eq_right hr'.le)) (not_le.mpr hlt')
    · exact h1 ▸ sub_le_self _ hq.1.le
    · exact h1 ▸ sub_le_sub_left
        (div_le_div_of_nonneg_right (Int.cast_le.mpr h) (Int.cast_pos.mpr (hr.trans hlt)).le) 1

theorem exactFitInScore_some (r fit : Resource) :
    exactFitInScore (some r) (some fit) = (fit.resources.entries.map fun e => exactTypeScore (r.get e.1) e.2).sum := by
  rw [List.sum_eq_foldl, List.foldl_map]
  rfl

/-- **More available resource never raises the exact score.** -/
theorem exactFitInScore_anti (fit : Option Resource) (r r' : Resource) (h : ∀ k, r.get k ≤ r'.get k) :
    exactFitInScore (some r') fit ≤ exactFitInScore (some r) fit := by
  cases fit with
  | none => exact le_rfl
  | some fit =>
    rw [exactFitInScore_some, exactFitInScore_some]
    exact List.sum_le_sum fun e _ => exactTypeScore_anti e.2 (h e.1)

/-- The request `{x: 10}` against the receivers `{x: 3}` and `{x: 5}`. -/
theorem exactFitInScore_anti_small :
    let fit := some (newResource.set "x" ⟨10, by decide, by decide⟩)
    let r := newResource.set "x" ⟨3, by decide, by decide⟩
    let r' := newResource.set "x" ⟨5, by decide, by decide⟩
    (∀ k, r.get k ≤ r'.get k) ∧ exactFitInScore (some r') fit ≤ exactFitInScore (some r) fit := by
  have h : ∀ k, (newResource.set "x" ⟨3, by decide, by decide⟩).get k ≤
      (newResource.set "x" ⟨5, by decide, by decide⟩).get k := fun k => by
    rw [get_set, get_set]; split_ifs; exacts [by decide, le_rfl]
  exact ⟨h, exactFitInScore_anti _ _ _ h⟩

/-! ### The `float64` score against the exact one -/

theorem typeScore_mem (resVal fitVal : Quantity) :
    exactTypeScore resVal fitVal * ((1 - 1 / 2 ^ 53) ^ 2 / (1 + 1 / 2 ^ 53)) ≤ typeScore resVal fitVal ∧
      typeScore resVal fitVal ≤ exactTypeScore resVal fitVal * ((1 + 1 / 2 ^ 53) ^ 2 / (1 - 1 / 2 ^ 53)) := by
  unfold exactTypeScore typeScore
  split_ifs with hf hr h
  · simp
  · norm_num
  · exact roundQ_div_mem (sub_pos_of_pos_lt (not_le.mp hr) h) ((not_le.mp hr).trans h)
  · simp

theorem typeScore_eq_zero_or_normal (resVal fitVal : Quantity) :
    typeScore resVal fitVal = 0 ∨ 2 ^ (-1022 : ℤ) ≤ typeScore resVal fitVal := by
  rcases typeScore_cases resVal fitVal with ⟨-, h⟩ | ⟨-, -, h⟩ | ⟨hr, hlt, h⟩ <;> rw [h]
  · exact .inl rfl
  · exact .inr (by norm_num)
  · exact .inr ((by norm_num : (2 : ℚ) ^ (-1022 : ℤ) ≤ 1 / 2 ^ 63).trans
      (inv_two_pow_le_roundQ_div (sub_pos_of_pos_lt hr hlt) (hr.trans hlt)))

/-- One rounded addition: sums within factors `A` and `B` of the exact ones
stay within `A (1 - 2^-53)` and `B (1 + 2^-53)`. -/
theorem roundQ_add_mem {s t F τ A B : ℚ} (hs : 0 ≤ s) (ht : 0 ≤ t) (hA : 0 < A) (hB : 0 ≤ B)
    (hF : s * A ≤ F ∧ F ≤ s * B) (hτ : t * A ≤ τ ∧ τ ≤ t * B) (hFr : roundQ F = F)
    (hτ0 : τ = 0 ∨ 2 ^ (-1022 : ℤ) ≤ F + τ) :
    (s + t) * (A * (1 - 1 / 2 ^ 53)) ≤ roundQ (F + τ) ∧ roundQ (F + τ) ≤ (s + t) * (B * (1 + 1 / 2 ^ 53)) := by
  rcases hτ0 with h0 | hn
  · have ht0 : t = 0 := le_antisymm (le_of_mul_le_mul_right (by rw [zero_mul, ← h0]; exact hτ.1) hA) ht
    rw [h0, ht0, add_zero, add_zero, hFr]
    exact ⟨(mul_le_mul_of_nonneg_left (mul_le_of_le_one_right hA.le (by norm_num)) hs).trans hF.1,
      hF.2.trans (mul_le_mul_of_nonneg_left (le_mul_of_one_le_right hB (by norm_num)) hs)⟩
  · obtain ⟨hlo, hhi⟩ := roundQ_mem_of_normal hn
    constructor
    · calc (s + t) * (A * (1 - 1 / 2 ^ 53)) = (s * A + t * A) * (1 - 1 / 2 ^ 53) := by ring
        _ ≤ (F + τ) * (1 - 1 / 2 ^ 53) := mul_le_mul_of_nonneg_right (add_le_add hF.1 hτ.1) (by norm_num)
        _ ≤ roundQ (F + τ) := hlo
    · calc roundQ (F + τ) ≤ (F + τ) * (1 + 1 / 2 ^ 53) := hhi
        _ ≤ (s * B + t * B) * (1 + 1 / 2 ^ 53) := mul_le_mul_of_nonneg_right (add_le_add hF.2 hτ.2) (by norm_num)
        _ = (s + t) * (B * (1 + 1 / 2 ^ 53)) := by ring

/-- **The error of a rounded sum.** Terms within factors `L` and `U` of exact
non-negative terms, rounded after every addition, stay within
`L (1 - 2^-53)^n` and `U (1 + 2^-53)^n` of the exact sum after `n` additions. -/
theorem foldl_roundQ_add_mem (g γ : (Σ _ : String, Quantity) → ℚ) {L U : ℚ} (hg : ∀ e, 0 ≤ g e)
    (hγ : ∀ e, g e * L ≤ γ e ∧ γ e ≤ g e * U) (hγr : ∀ e, roundQ (γ e) = γ e)
    (hγ0 : ∀ e, γ e = 0 ∨ 2 ^ (-1022 : ℤ) ≤ γ e) :
    ∀ (es : List (Σ _ : String, Quantity)) (s F A B : ℚ), 0 ≤ s → 0 < A → A ≤ L → U ≤ B → 0 ≤ B →
      s * A ≤ F ∧ F ≤ s * B → roundQ F = F →
      es.foldl (fun s e => s + g e) s * (A * (1 - 1 / 2 ^ 53) ^ es.length) ≤
          es.foldl (fun F e => roundQ (F + γ e)) F ∧
        es.foldl (fun F e => roundQ (F + γ e)) F ≤
          es.foldl (fun s e => s + g e) s * (B * (1 + 1 / 2 ^ 53) ^ es.length)
  | [], s, F, A, B, _, _, _, _, _, hF, _ => by simpa using hF
  | e :: es, s, F, A, B, hs, hA, hAL, hUB, hB, hF, hFr => by
    have hτ : g e * A ≤ γ e ∧ γ e ≤ g e * B :=
      ⟨(mul_le_mul_of_nonneg_left hAL (hg e)).trans (hγ e).1, (hγ e).2.trans (mul_le_mul_of_nonneg_left hUB (hg e))⟩
    have hF0 : 0 ≤ F := (mul_nonneg hs hA.le).trans hF.1
    have hstep := roundQ_add_mem hs (hg e) hA hB hF hτ hFr
      ((hγ0 e).imp_right fun h => h.trans (le_add_of_nonneg_left hF0))
    have ih := foldl_roundQ_add_mem g γ hg hγ hγr hγ0 es _ _ _ _ (add_nonneg hs (hg e)) (mul_pos hA (by norm_num))
      ((mul_le_of_le_one_right hA.le (by norm_num)).trans hAL) (hUB.trans (le_mul_of_one_le_right hB (by norm_num)))
      (mul_nonneg hB (by norm_num)) hstep (roundQ_roundQ _)
    rwa [List.foldl_cons, List.foldl_cons, List.length_cons, pow_succ' (1 - 1 / 2 ^ 53 : ℚ),
      pow_succ' (1 + 1 / 2 ^ 53 : ℚ), ← mul_assoc A, ← mul_assoc B]

/-- **The `float64` score is within a relative `2^-53` per rounding of the
exact one**: three roundings per type and one per addition over the `n`
types of `fit`. -/
theorem fitInScore_near_exact (r fit : Option Resource) :
    exactFitInScore r fit * ((1 - 1 / 2 ^ 53) ^ 2 / (1 + 1 / 2 ^ 53) * (1 - 1 / 2 ^ 53) ^ (orZero fit).resources.entries.length) ≤
        fitInScore r fit ∧
      fitInScore r fit ≤
        exactFitInScore r fit * ((1 + 1 / 2 ^ 53) ^ 2 / (1 - 1 / 2 ^ 53) * (1 + 1 / 2 ^ 53) ^ (orZero fit).resources.entries.length) := by
  set L : ℚ := (1 - 1 / 2 ^ 53) ^ 2 / (1 + 1 / 2 ^ 53)
  set U : ℚ := (1 + 1 / 2 ^ 53) ^ 2 / (1 - 1 / 2 ^ 53)
  cases fit with
  | none => cases r <;> simp [exactFitInScore, fitInScore]
  | some fit =>
    rw [orZero_some]
    cases r with
    | none =>
      simp only [exactFitInScore, fitInScore]
      rcases Nat.eq_zero_or_pos fit.resources.entries.length with h0 | hpos
      · simp [h0]
      have hn : (2 : ℚ) ^ (-1022 : ℤ) ≤ fit.resources.entries.length :=
        (by norm_num : (2 : ℚ) ^ (-1022 : ℤ) ≤ 1).trans (Nat.one_le_cast.mpr hpos)
      obtain ⟨hlo, hhi⟩ := roundQ_mem_of_normal hn
      have hL : L * (1 - 1 / 2 ^ 53) ^ fit.resources.entries.length ≤ 1 - 1 / 2 ^ 53 :=
        (mul_le_of_le_one_right (by norm_num [L]) (pow_le_one₀ (by norm_num) (by norm_num))).trans (by norm_num [L])
      have hU : 1 + 1 / 2 ^ 53 ≤ U * (1 + 1 / 2 ^ 53) ^ fit.resources.entries.length :=
        (by norm_num [U] : 1 + 1 / 2 ^ 53 ≤ U).trans (le_mul_of_one_le_right (by norm_num [U]) (one_le_pow₀ (by norm_num)))
      exact ⟨(mul_le_mul_of_nonneg_left hL (Nat.cast_nonneg _)).trans hlo,
        hhi.trans (mul_le_mul_of_nonneg_left hU (Nat.cast_nonneg _))⟩
    | some r =>
      show _ ≤ fitScoreLoop r _ ∧ fitScoreLoop r _ ≤ _
      rw [fitScoreLoop_eq]
      exact foldl_roundQ_add_mem _ _ (fun e => (exactTypeScore_mem (r.get e.1) e.2).1)
        (fun e => typeScore_mem (r.get e.1) e.2) (fun e => (typeScore_spec (r.get e.1) e.2).2.2.1)
        (fun e => typeScore_eq_zero_or_normal (r.get e.1) e.2) _ 0 0 L U le_rfl (by norm_num [L]) le_rfl le_rfl
        (by norm_num [U]) (by simp) roundQ_zero

end Resources
