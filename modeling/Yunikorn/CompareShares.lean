/-
# Comparing share lists from the top

`compareShares` walks two ascending share lists from their last (largest)
elements down. While both lists have elements the larger one decides; when
one list runs out, the first non-zero element left in the other decides by
its sign. Walking a list from its end is walking its reverse from the head,
so the model is `compareTop` on the reversed lists. It only compares shares,
so it is stated over any linear order with a zero.

`compareTop` compares the two lists as sequences padded with zeros
(`compareTop_eq`), which makes it a total preorder: reflexive, antisymmetric
and transitive (`compareTop_self`, `compareTop_swap`, `compareTop_trans`).
Padded to one length, the reversed lists compare lexicographically
(`compareShares_eq_lexSign`).
On descending lists of non-negative values it is decided by counts: a list
with at most as many elements above every positive threshold ranks at most
equal (`compareTop_nonpos_of_countP_le`).

Key definitions: `restSign`, `compareTop`, `compareShares`, `lexSign`, `padZeros`.
Key theorems: `compareTop_eq`, `compareTop_trans`, `compareShares_eq_lexSign`,
`compareTop_nonpos_of_countP_le`.
-/
import Mathlib.Data.List.Lex
import Mathlib.Data.List.Sort

namespace Resources

section
variable {α : Type*} [LinearOrder α]

/-- One step of a comparison from the top: `a` against `b`, and `k` when
they are equal. -/
def cmpStep (a b : α) (k : ℤ) : ℤ :=
  if a > b then 1 else if a < b then -1 else k

theorem cmpStep_self (a : α) (k : ℤ) : cmpStep a a k = k := by
  simp [cmpStep]

theorem cmpStep_swap (a b : α) (k : ℤ) : cmpStep a b (-k) = -cmpStep b a k := by
  rcases lt_trichotomy a b with h | rfl | h
  · simp [cmpStep, h, h.not_lt]
  · simp [cmpStep]
  · simp [cmpStep, h, h.not_lt]

/-- The step of transitivity: two steps at most equal, with their
continuations transitive, compose. -/
theorem cmpStep_trans {a b c : α} {x y z : ℤ} (h₁ : cmpStep a b x ≤ 0) (h₂ : cmpStep b c y ≤ 0)
    (h : x ≤ 0 → y ≤ 0 → z ≤ 0) : cmpStep a c z ≤ 0 := by
  unfold cmpStep at *
  rcases lt_trichotomy a b with hab | rfl | hab
  · rcases lt_trichotomy b c with hbc | rfl | hbc
    · simp [hab.trans hbc, (hab.trans hbc).not_lt]
    · simp [hab, hab.not_lt]
    · simp [hbc] at h₂
  · rcases lt_trichotomy a c with hac | rfl | hac
    · simp [hac, hac.not_lt]
    · simp only [lt_self_iff_false, if_false] at h₁ h₂ ⊢
      exact h h₁ h₂
    · simp [hac] at h₂
  · simp [hab] at h₁

theorem le_head_of_sorted {d x : α} {ds : List α} (hs : (d :: ds).Sorted (· ≥ ·))
    (hx : x ∈ d :: ds) : x ≤ d := by
  rcases List.mem_cons.mp hx with rfl | hx
  · exact le_refl x
  · exact (List.sorted_cons.mp hs).1 x hx

/-- The sign of the lexicographic comparison of two lists: `1` if the first
is larger, `-1` if it is smaller, `0` if they are equal. -/
def lexSign (a b : List α) : ℤ :=
  if List.Lex (· < ·) b a then 1 else if List.Lex (· < ·) a b then -1 else 0

theorem lex_cons_iff {x y : α} {a b : List α} :
    List.Lex (· < ·) (x :: a) (y :: b) ↔ x < y ∨ x = y ∧ List.Lex (· < ·) a b := by
  constructor
  · rintro (_ | h | h)
    · exact .inr ⟨rfl, h⟩
    · exact .inl h
  · rintro (h | ⟨rfl, h⟩)
    exacts [.rel h, .cons h]

/-- The lexicographic comparison is decided by the heads, then the tails. -/
theorem lexSign_cons (x y : α) (a b : List α) :
    lexSign (x :: a) (y :: b) = cmpStep x y (lexSign a b) := by
  unfold lexSign cmpStep
  simp only [lex_cons_iff]
  rcases lt_trichotomy x y with h | rfl | h
  · simp [h, h.not_lt, h.ne, h.ne']
  · simp
  · simp [h, h.not_lt, h.ne, h.ne']

variable [Zero α]

/-- The tail loops of `compareShares`: the first non-zero share left, from
the top, decides by its sign; only zeros left means equal. -/
def restSign : List α → ℤ
  | [] => 0
  | x :: xs => if x > 0 then 1 else if x < 0 then -1 else restSign xs

/-- `compareShares` on the reversed share lists: the joint loop from the top,
then the tail loop of the list that is left. -/
def compareTop : List α → List α → ℤ
  | l :: ls, r :: rs => if l > r then 1 else if l < r then -1 else compareTop ls rs
  | [], [] => 0
  | l :: ls, [] => restSign (l :: ls)
  | [], r :: rs => -restSign (r :: rs)

/-- Compare the shares and return the compared value (`compareShares`): `0`
for equal shares, `1` if the left share is larger, `-1` if the right share is
larger. -/
def compareShares (lshares rshares : List α) : ℤ :=
  compareTop lshares.reverse rshares.reverse

/-! ### The comparison as one of zero-padded sequences -/

theorem compareTop_nil_right (l : List α) : compareTop l [] = restSign l := by
  cases l <;> rfl

theorem compareTop_nil_left (r : List α) : compareTop [] r = -restSign r := by
  cases r <;> rfl

/-- **The padded view.** Each step compares the heads, reading `0` past the
end of a list, and moves on to the tails. -/
theorem compareTop_eq (l r : List α) :
    compareTop l r = cmpStep (l.headD 0) (r.headD 0) (compareTop l.tail r.tail) := by
  match l, r with
  | [], [] => simp [cmpStep, compareTop]
  | _ :: _, _ :: _ => rfl
  | _ :: ls, [] =>
    show restSign _ = cmpStep _ _ (compareTop ls [])
    rw [compareTop_nil_right]; rfl
  | [], r :: rs =>
    simp only [compareTop, restSign, cmpStep, List.headD_nil, List.headD_cons, List.tail_nil,
      List.tail_cons, compareTop_nil_left, gt_iff_lt]
    split_ifs <;> first | rfl | exact absurd (lt_trans ‹_› ‹_›) (lt_irrefl _)

/-! ### A total preorder -/

theorem restSign_bounds : ∀ l : List α, -1 ≤ restSign l ∧ restSign l ≤ 1
  | [] => by simp [restSign]
  | x :: xs => by
    have := restSign_bounds xs
    unfold restSign; split_ifs <;> omega

theorem compareTop_bounds : ∀ l r : List α, -1 ≤ compareTop l r ∧ compareTop l r ≤ 1
  | l :: ls, r :: rs => by
    have := compareTop_bounds ls rs
    unfold compareTop; split_ifs <;> omega
  | [], [] => by simp [compareTop]
  | l :: ls, [] => restSign_bounds _
  | [], r :: rs => by have := restSign_bounds (r :: rs); simp only [compareTop]; omega

theorem compareTop_self : ∀ l : List α, compareTop l l = 0
  | [] => rfl
  | x :: xs => (cmpStep_self x _).trans (compareTop_self xs)

theorem compareTop_swap : ∀ l r : List α, compareTop l r = -compareTop r l
  | l :: ls, r :: rs => by
    show cmpStep l r _ = -cmpStep r l _
    rw [compareTop_swap ls rs, cmpStep_swap]
  | [], [] => rfl
  | _ :: _, [] => (Int.neg_neg _).symm
  | [], _ :: _ => rfl

theorem compareTop_trans_of_length_le :
    ∀ (n : ℕ) {l r s : List α}, l.length ≤ n → r.length ≤ n → s.length ≤ n →
      compareTop l r ≤ 0 → compareTop r s ≤ 0 → compareTop l s ≤ 0
  | 0, l, _, s, hl, _, hs, _, _ => by
    rw [List.length_eq_zero.mp (Nat.le_zero.mp hl), List.length_eq_zero.mp (Nat.le_zero.mp hs)]
    exact le_refl 0
  | n + 1, l, r, s, hl, hr, hs, h₁, h₂ => by
    rw [compareTop_eq] at h₁ h₂ ⊢
    exact cmpStep_trans h₁ h₂ (compareTop_trans_of_length_le n
      (by rw [List.length_tail]; omega) (by rw [List.length_tail]; omega)
      (by rw [List.length_tail]; omega))

/-- **Transitivity** of ranking at most equal. -/
theorem compareTop_trans {l r s : List α} (h₁ : compareTop l r ≤ 0) (h₂ : compareTop r s ≤ 0) :
    compareTop l s ≤ 0 :=
  compareTop_trans_of_length_le (l.length + r.length + s.length) (by omega) (by omega) (by omega)
    h₁ h₂

/-- Ranking at most equal to `m` carries over to the comparison with any
third list. -/
theorem compareTop_le_of_nonpos {l m : List α} (h : compareTop l m ≤ 0) (r : List α) :
    compareTop l r ≤ compareTop m r := by
  have hl := compareTop_bounds l r
  have hm := compareTop_bounds m r
  by_contra hlt
  -- then `r` ranks at most equal to `l`, hence to `m`, and `m` equal to `r`
  have hrm := compareTop_trans (show compareTop r l ≤ 0 by rw [compareTop_swap]; omega) h
  rw [compareTop_swap] at hrm
  have := compareTop_trans h (show compareTop m r ≤ 0 by omega)
  omega

/-! ### The lexicographic comparison of the padded lists -/

/-- A list padded with zeros to length `n`. -/
def padZeros (n : ℕ) (l : List α) : List α :=
  l ++ List.replicate (n - l.length) 0

/-- On lists of one length the comparison from the top is lexicographic. -/
theorem compareTop_eq_lexSign : ∀ (a b : List α), a.length = b.length → compareTop a b = lexSign a b
  | [], [], _ => by simp [compareTop, lexSign, List.Lex.not_nil_right]
  | x :: a, y :: b, h => by
    rw [lexSign_cons, ← compareTop_eq_lexSign a b (by simpa using h)]; rfl
  | [], _ :: _, h | _ :: _, [], h => absurd h (by simp)

theorem compareTop_replicate_zero_left : ∀ (m : ℕ) (b : List α),
    compareTop (List.replicate m 0) b = compareTop [] b
  | 0, _ => rfl
  | m + 1, b => by
    rw [compareTop_eq, compareTop_eq [] b]
    simp [List.replicate_succ, compareTop_replicate_zero_left m]

/-- Zeros appended to a list do not change its comparison. -/
theorem compareTop_append_zeros_left : ∀ (a : List α) (m : ℕ) (b : List α),
    compareTop (a ++ List.replicate m 0) b = compareTop a b
  | [], m, b => compareTop_replicate_zero_left m b
  | x :: a, m, b => by
    rw [List.cons_append, compareTop_eq, compareTop_eq (x :: a)]
    simp [compareTop_append_zeros_left a m]

theorem compareTop_padZeros (n : ℕ) (a b : List α) :
    compareTop (padZeros n a) (padZeros n b) = compareTop a b := by
  rw [padZeros, padZeros, compareTop_append_zeros_left, compareTop_swap, compareTop_append_zeros_left,
    ← compareTop_swap]

/-- **`compareShares` is the lexicographic comparison from the top.** It is
the sign of the lexicographic comparison of the reversed share lists, the
shorter padded with zeros to the length of the longer. -/
theorem compareShares_eq_lexSign (l r : List α) :
    compareShares l r =
      lexSign (padZeros (max l.length r.length) l.reverse) (padZeros (max l.length r.length) r.reverse) := by
  rw [compareShares, ← compareTop_padZeros (max l.length r.length), compareTop_eq_lexSign]
  simp only [padZeros, List.length_append, List.length_replicate, List.length_reverse]
  omega

/-! ### Descending non-negative lists are ranked by counts -/

theorem restSign_nonneg : ∀ {l : List α}, (∀ x ∈ l, 0 ≤ x) → 0 ≤ restSign l
  | [], _ => le_refl 0
  | x :: xs, h => by
    have := restSign_nonneg fun y hy => h y (List.mem_cons_of_mem x hy)
    have hx := h x (List.mem_cons_self x xs)
    unfold restSign
    simp only [hx.not_lt, if_false]; split_ifs <;> omega

theorem restSign_nonpos : ∀ {l : List α}, (∀ x ∈ l, x ≤ 0) → restSign l ≤ 0
  | [], _ => le_refl 0
  | x :: xs, h => by
    have := restSign_nonpos fun y hy => h y (List.mem_cons_of_mem x hy)
    have hx := h x (List.mem_cons_self x xs)
    unfold restSign
    simp only [gt_iff_lt, hx.not_lt, if_false]; split_ifs <;> omega

/-- Nothing of a descending list lies above a threshold its head is below. -/
theorem countP_eq_zero_of_head_lt {v : α} :
    ∀ {D : List α}, D.Sorted (· ≥ ·) → D.headD 0 < v → 0 ≤ D.headD 0 → D.countP (v ≤ ·) = 0
  | [], _, _, _ => rfl
  | d :: ds, hs, hv, _ => List.countP_eq_zero.mpr fun x hx => by
    simpa using lt_of_le_of_lt (le_head_of_sorted hs hx) hv

/-- **Counts decide.** Of two descending lists of non-negative values, the one
with at most as many elements at or above every positive threshold ranks at
most equal. -/
theorem compareTop_nonpos_of_countP_le :
    ∀ {D D' : List α}, D.Sorted (· ≥ ·) → D'.Sorted (· ≥ ·) → (∀ x ∈ D, 0 ≤ x) →
      (∀ x ∈ D', 0 ≤ x) → (∀ v, 0 < v → D.countP (v ≤ ·) ≤ D'.countP (v ≤ ·)) →
      compareTop D D' ≤ 0
  | [], D', _, _, _, h', _ => by rw [compareTop_nil_left]; have := restSign_nonneg h'; omega
  | d :: ds, D', hs, hs', h, h', hc => by
    have hd := h d (List.mem_cons_self d ds)
    -- the head of `D` cannot stand above everything in `D'`
    have head_le : D'.headD 0 < d → False := fun hlt => by
      have h0 : 0 ≤ D'.headD 0 := by
        cases D' with
        | nil => exact le_rfl
        | cons d' _ => exact h' d' (List.mem_cons_self _ _)
      have := hc d (lt_of_le_of_lt h0 hlt)
      rw [countP_eq_zero_of_head_lt hs' hlt h0, List.countP_cons] at this
      simp at this
    cases D' with
    | nil =>
      rw [compareTop_nil_right]
      exact restSign_nonpos fun x hx => (le_head_of_sorted hs hx).trans (not_lt.mp head_le)
    | cons d' ds' =>
      show cmpStep d d' _ ≤ 0
      rcases lt_trichotomy d d' with hlt | rfl | hgt
      · simp [cmpStep, hlt, hlt.not_lt]
      · rw [cmpStep_self]
        refine compareTop_nonpos_of_countP_le (List.sorted_cons.mp hs).2
          (List.sorted_cons.mp hs').2 (fun x hx => h x (List.mem_cons_of_mem _ hx))
          (fun x hx => h' x (List.mem_cons_of_mem _ hx)) fun v hv => ?_
        have := hc v hv
        rw [List.countP_cons, List.countP_cons] at this
        omega
      · exact (head_le hgt).elim

end

end Resources
