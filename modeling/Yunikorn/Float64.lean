/-
# Go's `float64`, exactly

`MultiplyBy`, `CalculateAbsUsedCapacity` and the rankings compute in
`float64`. A finite `float64` is here the rational it denotes, and `roundQ`
rounds to 53 significant bits with no place below `2^-1074`, ties to even. A
rounding of magnitude `2^1024` or more is an infinity (`Float64.ofRat`); `*`,
`/` and `<` follow IEEE 754 on infinities and NaN, and the conversion to
`int64` truncates and leaves a value out of range to the platform (`toInt64`).

Rounding is monotone (`roundQ_monotone`), fixes every integer of at most 53
bits (`roundQ_intCast`), moves an odd integer between `2^53` and `2^54` to an
even neighbour (`roundQ_odd`), sends exactly `[2^63 - 512, 2^63 + 1024]` to
`2^63` (`roundQ_eq_two_pow_63_iff`), and in the normal range moves a value by
at most `2^-53` of it (`abs_roundQ_sub_le_of_normal`). The quotient of two
`int64`s, `quotFloat`, never overflows (`Float64.ofInt_div_ofInt`) and is
within three roundings of the exact one (`roundQ_div_mem`).

Key definitions: `roundQ`, `quotFloat`, `Float64`, `Float64.ofRat`, `toInt64`.
Key theorems: `roundQ_monotone`, `roundQ_intCast`, `roundQ_odd`, `roundQ_eq_two_pow_63_iff`,
`abs_roundQ_sub_le_of_normal`, `roundQ_div_mem`, `Float64.ofInt_div_ofInt`.
-/
import Yunikorn.Quantity
import Mathlib.Data.Int.Log
import Mathlib.Data.Rat.Floor
import Mathlib.Algebra.Order.Field.Power

namespace Resources

/-- The integer nearest to `q`, ties to the even one. -/
def roundHalfEven (q : ℚ) : ℤ :=
  if 1 < 2 * Int.fract q ∨ (2 * Int.fract q = 1 ∧ ⌊q⌋ % 2 = 1) then ⌊q⌋ + 1 else ⌊q⌋

theorem roundHalfEven_cases (q : ℚ) : roundHalfEven q = ⌊q⌋ ∨ roundHalfEven q = ⌊q⌋ + 1 := by
  unfold roundHalfEven; split_ifs <;> simp

@[simp] theorem roundHalfEven_intCast (k : ℤ) : roundHalfEven k = k := by
  simp [roundHalfEven]

/-- Rounding never leaves an interval with integer ends. -/
theorem roundHalfEven_le {q : ℚ} {n : ℤ} (h : q ≤ n) : roundHalfEven q ≤ n := by
  have hf : ⌊q⌋ ≤ n := Int.floor_le_floor h |>.trans_eq (Int.floor_intCast n)
  rcases roundHalfEven_cases q with hr | hr <;> rw [hr]
  · exact hf
  · rcases hf.lt_or_eq with hlt | heq
    · exact hlt
    · have hq : q = n := le_antisymm h (heq ▸ Int.floor_le q)
      subst hq
      simp [roundHalfEven] at hr

theorem le_roundHalfEven {q : ℚ} {n : ℤ} (h : (n : ℚ) ≤ q) : n ≤ roundHalfEven q := by
  have hf : n ≤ ⌊q⌋ := Int.le_floor.mpr h
  rcases roundHalfEven_cases q with hr | hr <;> rw [hr] <;> omega

theorem roundHalfEven_mono {q q' : ℚ} (h : q ≤ q') : roundHalfEven q ≤ roundHalfEven q' := by
  rcases (Int.floor_le_floor h).lt_or_eq with hlt | heq
  · have h1 : q ≤ (⌊q'⌋ : ℚ) := by
      have := Int.lt_floor_add_one q
      have : ((⌊q⌋ + 1 : ℤ) : ℚ) ≤ ⌊q'⌋ := Int.cast_le.mpr hlt
      push_cast at this
      linarith
    exact (roundHalfEven_le h1).trans (le_roundHalfEven (Int.floor_le q'))
  · have hfr : Int.fract q ≤ Int.fract q' := by
      unfold Int.fract; rw [heq]; linarith
    unfold roundHalfEven
    rw [heq]
    split_ifs with h1 h2 h2 <;> try omega
    exfalso
    rcases h1 with h1 | ⟨h1, h1'⟩
    · exact h2 (.inl (by linarith))
    · rcases hfr.lt_or_eq with hlt | heq'
      · exact h2 (.inl (by linarith))
      · exact h2 (.inr ⟨heq' ▸ h1, heq ▸ h1'⟩)

/-- Rounding to the nearest integer is symmetric: a tie goes to the even
neighbour on both sides of zero. -/
theorem roundHalfEven_neg (q : ℚ) : roundHalfEven (-q) = -roundHalfEven q := by
  have hq : q = ⌊q⌋ + Int.fract q := (Int.floor_add_fract q).symm
  rcases eq_or_ne (Int.fract q) 0 with h0 | h0
  · rw [hq, h0, add_zero, ← Int.cast_neg, roundHalfEven_intCast, roundHalfEven_intCast]
  have hf0 : 0 < Int.fract q := (Int.fract_nonneg q).lt_of_ne' h0
  have hf1 := Int.fract_lt_one q
  have hfl : ⌊-q⌋ = -⌊q⌋ - 1 :=
    Int.floor_eq_iff.mpr ⟨by push_cast; linarith only [hq, hf1], by push_cast; linarith only [hq, hf0]⟩
  unfold roundHalfEven
  rw [hfl, Int.fract_neg h0]
  rcases lt_trichotomy (2 * Int.fract q) 1 with h | h | h
  · rw [if_pos (.inl (by linarith only [h])), if_neg (by rintro (h' | ⟨h', -⟩) <;> linarith only [h, h'])]
    ring
  · by_cases hn : ⌊q⌋ % 2 = 1
    · rw [if_neg (by rintro (h' | ⟨-, h'⟩) <;> first | linarith only [h, h'] | omega), if_pos (.inr ⟨h, hn⟩)]
      ring
    · rw [if_pos (.inr ⟨by linarith only [h], by omega⟩),
        if_neg (by rintro (h' | ⟨-, h'⟩) <;> first | linarith only [h, h'] | omega)]
      ring
  · rw [if_neg (by rintro (h' | ⟨h', -⟩) <;> linarith only [h, h']), if_pos (.inl h)]; ring

/-- Rounding to the nearest integer moves a value by at most a half. -/
theorem abs_roundHalfEven_sub_le (q : ℚ) : |(roundHalfEven q : ℚ) - q| ≤ 1 / 2 := by
  have h0 := Int.fract_nonneg q
  have h1 := Int.fract_lt_one q
  have hq : q = ⌊q⌋ + Int.fract q := (Int.floor_add_fract q).symm
  unfold roundHalfEven
  rw [abs_le]
  split_ifs with h
  · have : 1 ≤ 2 * Int.fract q := by rcases h with h | ⟨h, -⟩ <;> linarith only [h]
    push_cast
    constructor <;> linarith only [this, h1, hq]
  · have : 2 * Int.fract q ≤ 1 := by push_neg at h; exact h.1
    constructor <;> linarith only [this, h0, hq]

/-! ### Rounding to float64 -/

/-- The exponent of the last place of a float64 of magnitude `|x|`: 53
significant bits, and no place below `2^-1074`. -/
def ulpExp (x : ℚ) : ℤ := max (Int.log 2 |x| - 52) (-1074)

/-- `x` rounded to the nearest float64, ties to even, overflow aside. -/
def roundQ (x : ℚ) : ℚ := roundHalfEven (x / 2 ^ ulpExp x) * 2 ^ ulpExp x

theorem two_zpow_log_le {r : ℚ} (hr : 0 < r) : (2 : ℚ) ^ Int.log 2 r ≤ r := by
  simpa using Int.zpow_log_le_self (b := 2) (by norm_num) hr

theorem lt_two_zpow_log_succ (r : ℚ) : r < (2 : ℚ) ^ (Int.log 2 r + 1) := by
  simpa using Int.lt_zpow_succ_log_self (b := 2) (by norm_num) r

theorem log_eq_of_mem {r : ℚ} {E : ℤ} (h1 : (2 : ℚ) ^ E ≤ r) (h2 : r < 2 ^ (E + 1)) : Int.log 2 r = E := by
  have hr : 0 < r := lt_of_lt_of_le (zpow_pos two_pos E) h1
  have hle : E ≤ Int.log 2 r := (Int.zpow_le_iff_le_log (b := 2) (by norm_num) hr).mp (by rwa [Nat.cast_ofNat])
  have hlt : Int.log 2 r < E + 1 := (Int.lt_zpow_iff_log_lt (b := 2) (by norm_num) hr).mp (by rwa [Nat.cast_ofNat])
  omega

/-- A power of two at or above a place is a whole number of that place. -/
theorem two_zpow_eq_mul {u e : ℤ} (h : u ≤ e) : ∃ n : ℤ, (2 : ℚ) ^ e = n * 2 ^ u :=
  ⟨2 ^ (e - u).toNat, by
    push_cast
    rw [← zpow_natCast, Int.toNat_of_nonneg (by omega), ← zpow_add₀ two_ne_zero, sub_add_cancel]⟩

/-- A whole number of its own last place rounds to itself. -/
theorem roundQ_of_eq_mul {x : ℚ} {n : ℤ} (hx : x = n * 2 ^ ulpExp x) : roundQ x = x := by
  have hq : x / 2 ^ ulpExp x = n := (div_eq_iff (zpow_ne_zero _ two_ne_zero)).mpr hx
  rw [roundQ, hq, roundHalfEven_intCast, hx.symm]

@[simp] theorem roundQ_zero : roundQ 0 = 0 := roundQ_of_eq_mul (n := 0) (by simp)

/-- Rounding never leaves an interval whose ends are whole numbers of the
last place. -/
theorem roundQ_le_of_le {x z : ℚ} (hxz : x ≤ z) {n : ℤ} (hz : z = n * 2 ^ ulpExp x) : roundQ x ≤ z := by
  have hpos : (0 : ℚ) < 2 ^ ulpExp x := zpow_pos two_pos _
  have hq : x / 2 ^ ulpExp x ≤ n := by rw [div_le_iff₀ hpos, ← hz]; exact hxz
  rw [roundQ, hz]
  exact mul_le_mul_of_nonneg_right (Int.cast_le.mpr (roundHalfEven_le hq)) hpos.le

theorem le_roundQ_of_le {x z : ℚ} (hzx : z ≤ x) {n : ℤ} (hz : z = n * 2 ^ ulpExp x) : z ≤ roundQ x := by
  have hpos : (0 : ℚ) < 2 ^ ulpExp x := zpow_pos two_pos _
  have hq : (n : ℚ) ≤ x / 2 ^ ulpExp x := by rw [le_div_iff₀ hpos, ← hz]; exact hzx
  rw [roundQ, hz]
  exact mul_le_mul_of_nonneg_right (Int.cast_le.mpr (le_roundHalfEven hq)) hpos.le

theorem roundQ_nonneg {x : ℚ} (hx : 0 ≤ x) : 0 ≤ roundQ x :=
  le_roundQ_of_le hx (n := 0) (by simp)

/-- **Rounding is monotone** on the non-negative values: within a binade it
rounds the same multiple of one place, and across binades the power of two
between the two values separates their roundings. -/
theorem roundQ_mono {x y : ℚ} (hx : 0 ≤ x) (h : x ≤ y) : roundQ x ≤ roundQ y := by
  rcases hx.eq_or_lt with rfl | hx
  · rw [roundQ_zero]; exact roundQ_nonneg h
  have hy : 0 < y := hx.trans_le h
  rw [← abs_of_pos hx, ← abs_of_pos hy] at h
  have hlog : Int.log 2 |x| ≤ Int.log 2 |y| := Int.log_mono_right (abs_pos.mpr hx.ne') h
  rw [abs_of_pos hx, abs_of_pos hy] at h
  have hue : ulpExp x ≤ ulpExp y := max_le_max (by omega) le_rfl
  rcases hue.lt_or_eq with hlt | heq
  · have hly : ulpExp y = Int.log 2 |y| - 52 := by unfold ulpExp at hlt ⊢; omega
    have hxy : Int.log 2 |x| < Int.log 2 |y| := by unfold ulpExp at hlt; omega
    obtain ⟨n, hn⟩ := two_zpow_eq_mul (show ulpExp x ≤ Int.log 2 |y| by unfold ulpExp at hlt ⊢; omega)
    obtain ⟨m, hm⟩ := two_zpow_eq_mul (show ulpExp y ≤ Int.log 2 |y| by omega)
    have hxz : x ≤ 2 ^ Int.log 2 |y| := by
      calc x = |x| := (abs_of_pos hx).symm
        _ ≤ 2 ^ (Int.log 2 |x| + 1) := (lt_two_zpow_log_succ _).le
        _ ≤ 2 ^ Int.log 2 |y| := zpow_le_zpow_right₀ one_le_two (by omega)
    have hzy : 2 ^ Int.log 2 |y| ≤ y := by simpa [abs_of_pos hy] using two_zpow_log_le (abs_pos.mpr hy.ne')
    exact (roundQ_le_of_le hxz hn).trans (le_roundQ_of_le hzy hm)
  · have hpos : (0 : ℚ) < 2 ^ ulpExp x := zpow_pos two_pos _
    rw [roundQ, roundQ, ← heq]
    exact mul_le_mul_of_nonneg_right
      (Int.cast_le.mpr (roundHalfEven_mono (div_le_div_of_nonneg_right h hpos.le))) hpos.le

/-- A value below `2^(E+53)` has its last place at or below `2^E`. -/
theorem ulpExp_le {x : ℚ} {E : ℤ} (hx : x ≠ 0) (h : |x| < 2 ^ (E + 53)) (hE : -1074 ≤ E) : ulpExp x ≤ E := by
  have := (Int.lt_zpow_iff_log_lt (b := 2) (by norm_num) (abs_pos.mpr hx)).mp (by simpa using h)
  unfold ulpExp; omega

theorem ulpExp_of_mem {x : ℚ} {E : ℤ} (h1 : (2 : ℚ) ^ E ≤ |x|) (h2 : |x| < 2 ^ (E + 1)) :
    ulpExp x = max (E - 52) (-1074) := by
  rw [ulpExp, log_eq_of_mem h1 h2]

/-- A whole multiple of a place at or above the last place rounds to itself. -/
theorem roundQ_of_eq_mul_zpow {x : ℚ} {n e : ℤ} (hx : x = n * 2 ^ e) (he : ulpExp x ≤ e) : roundQ x = x := by
  obtain ⟨m, hm⟩ := two_zpow_eq_mul he
  exact roundQ_of_eq_mul (n := n * m) (by rw [Int.cast_mul, mul_assoc, ← hm]; exact hx)

/-- An integer of at most 53 bits is a float64. -/
theorem roundQ_intCast {v : ℤ} (hv : |v| ≤ 2 ^ 53) : roundQ v = v := by
  rcases eq_or_ne v 0 with rfl | hv0
  · simp
  have hq : |(v : ℚ)| ≤ 2 ^ 53 := by rw [← Int.cast_abs]; exact_mod_cast hv
  rcases hq.lt_or_eq with hlt | heq
  · exact roundQ_of_eq_mul_zpow (n := v) (e := 0) (by simp)
      (ulpExp_le (by exact_mod_cast hv0) (by norm_num at hlt ⊢; exact hlt) (by norm_num))
  · have hu : ulpExp (v : ℚ) = 1 := by
      rw [ulpExp_of_mem (E := 53) (by rw [heq]; norm_num) (by rw [heq]; norm_num)]; norm_num
    have h2 : (2 : ℤ) ∣ v := by
      rcases abs_eq_abs.mp (show |v| = |(2 ^ 53 : ℤ)| by exact_mod_cast heq) with h | h
      · exact ⟨2 ^ 52, by rw [h]; norm_num⟩
      · exact ⟨-2 ^ 52, by rw [h]; norm_num⟩
    obtain ⟨w, rfl⟩ := h2
    exact roundQ_of_eq_mul_zpow (n := w) (e := 1) (by push_cast; ring) hu.le

@[simp] theorem roundQ_one : roundQ 1 = 1 := by
  simpa using roundQ_intCast (v := 1) (by norm_num)

/-- A value halfway between two integers rounds to the even one. -/
theorem roundHalfEven_add_half (m : ℤ) :
    roundHalfEven (m + 1 / 2) = if m % 2 = 1 then m + 1 else m := by
  have hfl : ⌊(m : ℚ) + 1 / 2⌋ = m := by rw [Int.floor_eq_iff]; constructor <;> norm_num
  have hfr : Int.fract ((m : ℚ) + 1 / 2) = 1 / 2 := by rw [Int.fract, hfl]; ring
  simp only [roundHalfEven, hfl, hfr]
  norm_num

/-- Every value from `2^63 - 512` to `2^63` rounds to `2^63`: the last place
there is `2^10`, and `2^63 - 512` is the tie between `2^63 - 1024` and `2^63`,
broken to the even `2^53 · 2^10`. -/
theorem roundQ_near_two_pow_63 {x : ℚ} (h1 : 2 ^ 63 - 512 ≤ x) (h2 : x ≤ 2 ^ 63) : roundQ x = 2 ^ 63 := by
  have hlo : roundQ (2 ^ 63 - 512) = 2 ^ 63 := by
    have hu : ulpExp (2 ^ 63 - 512 : ℚ) = 10 := by
      rw [ulpExp_of_mem (E := 62) (by norm_num) (by norm_num)]; norm_num
    rw [roundQ, hu, show (2 ^ 63 - 512 : ℚ) / 2 ^ (10 : ℤ) = ((2 ^ 53 - 1 : ℤ) : ℚ) + 1 / 2 by norm_num,
      roundHalfEven_add_half]
    norm_num
  have hhi : roundQ (2 ^ 63) = 2 ^ 63 := by
    have hu : ulpExp (2 ^ 63 : ℚ) = 11 := by
      rw [ulpExp_of_mem (E := 63) (by norm_num) (by norm_num)]; norm_num
    exact roundQ_of_eq_mul_zpow (n := 1) (e := 63) (by norm_num) (by rw [hu]; norm_num)
  exact le_antisymm (hhi ▸ roundQ_mono (by positivity) h2) (hlo ▸ roundQ_mono (by norm_num) h1)

/-- An odd integer between `2^53` and `2^54` is not a float64: its last place
is `2`, and it rounds to its even neighbour. -/
theorem roundQ_odd {m : ℤ} (h1 : 2 ^ 52 ≤ m) (h2 : m < 2 ^ 53) :
    roundQ ((2 * m + 1 : ℤ) : ℚ) = 2 * ((if m % 2 = 1 then m + 1 else m : ℤ) : ℚ) := by
  have hm1 : (2 : ℚ) ^ 52 ≤ m := by exact_mod_cast h1
  have hm2 : (m : ℚ) ≤ 2 ^ 53 - 1 := by exact_mod_cast Int.le_sub_one_of_lt h2
  have hu : ulpExp ((2 * m + 1 : ℤ) : ℚ) = 1 := by
    rw [ulpExp_of_mem (E := 53)]
    · norm_num
    · rw [abs_of_pos (by push_cast; linarith)]; push_cast; norm_num; linarith
    · rw [abs_of_pos (by push_cast; linarith)]; push_cast; norm_num; linarith
  rw [roundQ, hu, show ((2 * m + 1 : ℤ) : ℚ) / 2 ^ (1 : ℤ) = m + 1 / 2 by push_cast; ring,
    roundHalfEven_add_half, zpow_one, mul_comm]

theorem roundQ_two_pow_53 : roundQ (2 ^ 53 : ℚ) = 2 ^ 53 := by
  have := roundQ_intCast (v := 2 ^ 53) (by norm_num)
  push_cast at this; exact this

/-- `2^53 + 1` is the tie between `2^53` and `2^53 + 2`, broken to the even `2^53`. -/
theorem roundQ_two_pow_53_add_one : roundQ (2 ^ 53 + 1 : ℚ) = 2 ^ 53 := by
  have := roundQ_odd (m := 2 ^ 52) (by norm_num) (by norm_num)
  norm_num at this ⊢; exact this

theorem roundQ_nonpos {x : ℚ} (hx : x ≤ 0) : roundQ x ≤ 0 :=
  roundQ_le_of_le hx (n := 0) (by simp)

/-- Rounding is symmetric about zero. -/
theorem roundQ_neg (x : ℚ) : roundQ (-x) = -roundQ x := by
  have he : ulpExp (-x) = ulpExp x := by rw [ulpExp, ulpExp, abs_neg]
  rw [roundQ, roundQ, he, neg_div, roundHalfEven_neg]; push_cast; ring

/-- **Rounding is monotone**, on both sides of zero. -/
theorem roundQ_monotone : Monotone roundQ := by
  intro x y h
  rcases le_total 0 x with hx | hx
  · exact roundQ_mono hx h
  rcases le_total y 0 with hy | hy
  · have := roundQ_mono (neg_nonneg.mpr hy) (neg_le_neg h)
    rwa [roundQ_neg, roundQ_neg, neg_le_neg_iff] at this
  · exact (roundQ_nonpos hx).trans (roundQ_nonneg hy)

/-- An `int64` is at most `2^63` in magnitude. -/
theorem abs_val_le (v : Quantity) : |(v.val : ℚ)| ≤ 2 ^ 63 := by
  have h1 : ((-9223372036854775808 : ℤ) : ℚ) ≤ v.val := Int.cast_le.mpr v.min_le
  have h2 : (v.val : ℚ) ≤ ((9223372036854775807 : ℤ) : ℚ) := Int.cast_le.mpr v.le_max
  rw [abs_le]; norm_num at h1 h2 ⊢; constructor <;> linarith

/-- Rounding stays within a power of two that bounds the value. -/
theorem abs_roundQ_le {x : ℚ} {E : ℤ} (h : |x| ≤ 2 ^ E) (hE : -1074 ≤ E) : |roundQ x| ≤ 2 ^ E := by
  rcases eq_or_ne x 0 with rfl | hx
  · simpa using h
  have hu : ulpExp x ≤ E := ulpExp_le hx (h.trans_lt (zpow_lt_zpow_right₀ one_lt_two (by omega))) hE
  obtain ⟨n, hn⟩ := two_zpow_eq_mul hu
  rw [abs_le] at h ⊢
  exact ⟨le_roundQ_of_le h.1 (n := -n) (by rw [Int.cast_neg, neg_mul, ← hn]), roundQ_le_of_le h.2 hn⟩

theorem abs_roundQ_le_pow {x : ℚ} {n : ℕ} (h : |x| ≤ 2 ^ n) : |roundQ x| ≤ 2 ^ n := by
  have := abs_roundQ_le (E := n) (by rwa [zpow_natCast]) (by omega)
  rwa [zpow_natCast] at this

/-- Rounding keeps a lower bound on the magnitude that is itself a float64. -/
theorem le_abs_roundQ {x z : ℚ} (hz : roundQ z = z) (h : z ≤ |x|) : z ≤ |roundQ x| := by
  rcases le_total 0 x with hx | hx
  · rw [abs_of_nonneg hx] at h
    rw [abs_of_nonneg (roundQ_nonneg hx)]
    exact hz ▸ roundQ_monotone h
  · rw [abs_of_nonpos hx, le_neg] at h
    rw [abs_of_nonpos (roundQ_nonpos hx), le_neg]
    exact (roundQ_monotone h).trans_eq (by rw [roundQ_neg, hz])

/-- A value lies below `2^53` of its last places. -/
theorem abs_lt_two_zpow_ulpExp (x : ℚ) : |x| < 2 ^ (ulpExp x + 53) := by
  rcases eq_or_ne x 0 with rfl | hx
  · simpa using zpow_pos two_pos _
  calc |x| < 2 ^ (Int.log 2 |x| + 1) := lt_two_zpow_log_succ _
    _ ≤ 2 ^ (ulpExp x + 53) := zpow_le_zpow_right₀ one_le_two (by unfold ulpExp; omega)

/-- **Rounding yields float64 values**: rounding again changes nothing. The
rounded value is at most `2^53` of the last place; below that it is a whole
number of its own last place, and at `2^53` it is a power of two. -/
theorem roundQ_roundQ (x : ℚ) : roundQ (roundQ x) = roundQ x := by
  have hpos : (0 : ℚ) < 2 ^ ulpExp x := zpow_pos two_pos _
  have hq : |x / 2 ^ ulpExp x| < 2 ^ 53 := by
    rw [abs_div, abs_of_pos hpos, div_lt_iff₀ hpos, ← zpow_natCast, ← zpow_add₀ two_ne_zero, add_comm]
    exact abs_lt_two_zpow_ulpExp x
  obtain ⟨hq1, hq2⟩ := abs_lt.mp hq
  have hn : |roundHalfEven (x / 2 ^ ulpExp x)| ≤ 2 ^ 53 :=
    abs_le.mpr ⟨le_roundHalfEven (by push_cast; exact hq1.le), roundHalfEven_le (by push_cast; exact hq2.le)⟩
  have hr : roundQ x = roundHalfEven (x / 2 ^ ulpExp x) * 2 ^ ulpExp x := rfl
  have hu : -1074 ≤ ulpExp x := le_max_right _ _
  rcases eq_or_ne (roundHalfEven (x / 2 ^ ulpExp x)) 0 with h0 | h0
  · rw [hr, h0]; simp
  have hne : roundQ x ≠ 0 := by rw [hr]; exact mul_ne_zero (Int.cast_ne_zero.mpr h0) hpos.ne'
  rcases hn.lt_or_eq with hlt | heq
  · refine roundQ_of_eq_mul_zpow hr (ulpExp_le hne ?_ hu)
    rw [hr, abs_mul, abs_of_pos hpos, zpow_add₀ two_ne_zero, mul_comm, zpow_ofNat]
    exact mul_lt_mul_of_pos_left (by exact_mod_cast hlt) hpos
  · have hpow : |roundQ x| = 2 ^ (ulpExp x + 53) := by
      rw [hr, abs_mul, abs_of_pos hpos, zpow_add₀ two_ne_zero, mul_comm, zpow_ofNat]
      rw [← Int.cast_abs, heq]; push_cast; rfl
    have hle : ulpExp (roundQ x) ≤ ulpExp x + 53 :=
      ulpExp_le hne (by rw [hpow]; exact zpow_lt_zpow_right₀ one_lt_two (by omega)) (by omega)
    rcases abs_eq (zpow_pos two_pos _).le |>.mp hpow with h | h
    · exact roundQ_of_eq_mul_zpow (n := 1) (by rw [h]; simp) hle
    · exact roundQ_of_eq_mul_zpow (n := -1) (by rw [h]; simp) hle

/-! ### The rounding error -/

/-- Rounding moves a value by at most half its last place. -/
theorem abs_roundQ_sub_le (x : ℚ) : |roundQ x - x| ≤ 2 ^ ulpExp x / 2 := by
  have hpos : (0 : ℚ) < 2 ^ ulpExp x := zpow_pos two_pos _
  calc |roundQ x - x| = |((roundHalfEven (x / 2 ^ ulpExp x) : ℚ) - x / 2 ^ ulpExp x) * 2 ^ ulpExp x| := by
        rw [sub_mul, div_mul_cancel₀ _ hpos.ne']; rfl
    _ = |(roundHalfEven (x / 2 ^ ulpExp x) : ℚ) - x / 2 ^ ulpExp x| * 2 ^ ulpExp x := by
        rw [abs_mul, abs_of_pos hpos]
    _ ≤ 1 / 2 * 2 ^ ulpExp x := mul_le_mul_of_nonneg_right (abs_roundHalfEven_sub_le _) hpos.le
    _ = 2 ^ ulpExp x / 2 := by ring

/-- **The standard model of rounding**: in the normal range, from `2^-1022`
up, rounding moves a value by at most `2^-53` of it. -/
theorem abs_roundQ_sub_le_of_normal {x : ℚ} (hx : 2 ^ (-1022 : ℤ) ≤ |x|) : |roundQ x - x| ≤ |x| / 2 ^ 53 := by
  have hx0 : 0 < |x| := (zpow_pos two_pos _).trans_le hx
  have hlog : -1022 ≤ Int.log 2 |x| :=
    (Int.zpow_le_iff_le_log (b := 2) (by norm_num) hx0).mp (by rw [Nat.cast_ofNat]; exact hx)
  have hu : ulpExp x = Int.log 2 |x| - 52 := max_eq_left (by omega)
  calc |roundQ x - x| ≤ 2 ^ ulpExp x / 2 := abs_roundQ_sub_le x
    _ = 2 ^ Int.log 2 |x| / 2 ^ 53 := by
        rw [hu, zpow_sub₀ two_ne_zero]; norm_num; ring
    _ ≤ |x| / 2 ^ 53 := div_le_div_of_nonneg_right (two_zpow_log_le hx0) (by positivity)

theorem roundQ_mem_of_normal {y : ℚ} (hy : 2 ^ (-1022 : ℤ) ≤ y) :
    y * (1 - 1 / 2 ^ 53) ≤ roundQ y ∧ roundQ y ≤ y * (1 + 1 / 2 ^ 53) := by
  have hy0 : 0 ≤ y := (zpow_pos two_pos _).le.trans hy
  have h := abs_roundQ_sub_le_of_normal (show 2 ^ (-1022 : ℤ) ≤ |y| by rwa [abs_of_nonneg hy0])
  rw [abs_of_nonneg hy0, abs_le] at h
  constructor <;> linarith only [h]

/-- Rounding where the value sits below the middle of its two neighbours. -/
theorem roundQ_of_fract_lt_half {x : ℚ} {e n : ℤ} (he : ulpExp x = e) (hn : ⌊x / 2 ^ e⌋ = n)
    (hf : 2 * Int.fract (x / 2 ^ e) < 1) : roundQ x = n * 2 ^ e := by
  rw [roundQ, roundHalfEven, he, if_neg (by rintro (h | ⟨h, -⟩) <;> linarith), hn]

/-- The values that round to `2^63` are those from `2^63 - 512` to
`2^63 + 1024`: the last place is `2^10` below `2^63` and `2^11` above, and
both ends are ties broken to the even `2^52 · 2^11`. -/
theorem roundQ_eq_two_pow_63_iff (x : ℚ) : roundQ x = 2 ^ 63 ↔ 2 ^ 63 - 512 ≤ x ∧ x ≤ 2 ^ 63 + 1024 := by
  have hhi : roundQ (2 ^ 63 + 1024) = 2 ^ 63 := by
    have hu : ulpExp (2 ^ 63 + 1024 : ℚ) = 11 := by
      rw [ulpExp_of_mem (E := 63) (by norm_num) (by norm_num)]; norm_num
    rw [roundQ, hu, show (2 ^ 63 + 1024 : ℚ) / 2 ^ (11 : ℤ) = ((2 ^ 52 : ℤ) : ℚ) + 1 / 2 by norm_num,
      roundHalfEven_add_half]
    norm_num
  have hpow : ∀ e : ℕ, e ≤ 64 → roundQ (2 ^ e) = 2 ^ e := fun e he =>
    roundQ_of_eq_mul_zpow (n := 1) (e := e) (by simp)
      (ulpExp_le (by positivity) (by rw [abs_of_pos (by positivity)]; exact_mod_cast
        (pow_lt_pow_right₀ (by norm_num : (1 : ℚ) < 2) (by omega : e < e + 53))) (by omega))
  constructor
  · intro h
    -- the rounding moves `x` by at most half its last place, `2^10` or `2^11` here
    have hd := abs_roundQ_sub_le x
    rw [h] at hd
    rcases lt_or_le x (2 ^ 62) with h1 | h1
    · have := roundQ_monotone h1.le
      rw [h, hpow 62 (by norm_num)] at this; norm_num at this
    rcases lt_or_le x (2 ^ 64) with h3 | h3
    · rcases lt_or_le x (2 ^ 63) with h2 | h2
      · rw [ulpExp_of_mem (E := 62) (by rw [abs_of_pos (by positivity)]; exact_mod_cast h1)
          (by rw [abs_of_pos (by positivity)]; norm_num; exact h2), abs_le] at hd
        norm_num at hd
        constructor <;> linarith
      · rw [ulpExp_of_mem (E := 63) (by rw [abs_of_pos (by positivity)]; exact_mod_cast h2)
          (by rw [abs_of_pos (by positivity)]; norm_num; exact h3), abs_le] at hd
        norm_num at hd
        constructor <;> linarith
    · have := roundQ_monotone h3
      rw [h, hpow 64 le_rfl] at this; norm_num at this
  · rintro ⟨h1, h2⟩
    rcases le_total x (2 ^ 63) with h | h
    · exact roundQ_near_two_pow_63 h1 h
    · exact le_antisymm (hhi ▸ roundQ_monotone h2) (hpow 63 (by norm_num) ▸ roundQ_monotone h)

/-! ### The quotient of two `int64`s -/

theorem one_le_val {v : Quantity} (hv : 0 < v) : (1 : ℚ) ≤ v.val := by
  exact_mod_cast (show (1 : ℤ) ≤ v.val from hv)

theorem one_le_roundQ {v : Quantity} (hv : 0 < v) : 1 ≤ roundQ v.val :=
  roundQ_one ▸ roundQ_mono zero_le_one (one_le_val hv)

/-- A non-zero `int64` rounds to a value of magnitude at least `1`. -/
theorem one_le_abs_roundQ {v : Quantity} (hv : v ≠ 0) : 1 ≤ |roundQ v.val| := by
  rcases lt_or_gt_of_ne hv with hneg | hpos
  · have h := roundQ_monotone (Int.cast_le.mpr (show v.val ≤ -1 by have : v.val < 0 := hneg; omega))
    rw [roundQ_intCast (v := -1) (by norm_num)] at h
    push_cast at h
    rw [abs_of_neg (by linarith)]
    linarith
  · exact (one_le_roundQ hpos).trans (le_abs_self _)

/-- Three roundings of relative error `δ` each, of `u`, of `c` and of their
quotient, stay within `(1 ± δ)^2 / (1 ∓ δ)` of `u / c`. -/
theorem three_roundings {u c a b q δ : ℚ} (hu : 0 < u) (hc : 0 < c) (hδ : 0 ≤ δ) (hδ1 : δ < 1)
    (ha : u * (1 - δ) ≤ a ∧ a ≤ u * (1 + δ)) (hb : c * (1 - δ) ≤ b ∧ b ≤ c * (1 + δ))
    (hq : a / b * (1 - δ) ≤ q ∧ q ≤ a / b * (1 + δ)) :
    u / c * ((1 - δ) ^ 2 / (1 + δ)) ≤ q ∧ q ≤ u / c * ((1 + δ) ^ 2 / (1 - δ)) := by
  have hd : 0 < 1 - δ := sub_pos.mpr hδ1
  have hc' : 0 < c * (1 - δ) := mul_pos hc hd
  have ha0 : 0 < a := (mul_pos hu hd).trans_le ha.1
  have hb0 : 0 < b := hc'.trans_le hb.1
  constructor
  · calc u / c * ((1 - δ) ^ 2 / (1 + δ)) = u * (1 - δ) / (c * (1 + δ)) * (1 - δ) := by
          rw [mul_div_mul_comm]; ring
      _ ≤ a / b * (1 - δ) := mul_le_mul_of_nonneg_right (div_le_div₀ ha0.le ha.1 hb0 hb.2) hd.le
      _ ≤ q := hq.1
  · calc q ≤ a / b * (1 + δ) := hq.2
      _ ≤ u * (1 + δ) / (c * (1 - δ)) * (1 + δ) :=
          mul_le_mul_of_nonneg_right (div_le_div₀ (by positivity) ha.2 hc' hb.1) (by positivity)
      _ = u / c * ((1 + δ) ^ 2 / (1 - δ)) := by rw [mul_div_mul_comm]; ring

/-- **The `float64` quotient of two positive `int64`s**, `float64(u) /
float64(c)`, is within `(1 ± 2^-53)^2 / (1 ∓ 2^-53)` of `u / c`. -/
theorem roundQ_div_mem {u c : Quantity} (hu : 0 < u) (hc : 0 < c) :
    (u.val / c.val : ℚ) * ((1 - 1 / 2 ^ 53) ^ 2 / (1 + 1 / 2 ^ 53)) ≤ roundQ (roundQ u.val / roundQ c.val) ∧
      roundQ (roundQ u.val / roundQ c.val) ≤ (u.val / c.val : ℚ) * ((1 + 1 / 2 ^ 53) ^ 2 / (1 - 1 / 2 ^ 53)) := by
  have hn : (2 : ℚ) ^ (-1022 : ℤ) ≤ 1 / 2 ^ 63 := by norm_num
  have hn1 : (2 : ℚ) ^ (-1022 : ℤ) ≤ 1 := by norm_num
  have ha1 := one_le_roundQ hu
  have hb1 := one_le_roundQ hc
  have hb63 : roundQ c.val ≤ 2 ^ 63 := (le_abs_self _).trans (abs_roundQ_le_pow (abs_val_le c))
  have hab : 1 / 2 ^ 63 ≤ roundQ u.val / roundQ c.val :=
    div_le_div₀ (zero_le_one.trans ha1) ha1 (zero_lt_one.trans_le hb1) hb63
  exact three_roundings (zero_lt_one.trans_le (one_le_val hu)) (zero_lt_one.trans_le (one_le_val hc))
    (by norm_num) (by norm_num) (roundQ_mem_of_normal (hn1.trans (one_le_val hu)))
    (roundQ_mem_of_normal (hn1.trans (one_le_val hc))) (roundQ_mem_of_normal (hn.trans hab))

/-- The `float64` quotient of two positive `int64`s is at least `2^-63`. -/
theorem inv_two_pow_le_roundQ_div {u c : Quantity} (hu : 0 < u) (hc : 0 < c) :
    (1 : ℚ) / 2 ^ 63 ≤ roundQ (roundQ u.val / roundQ c.val) := by
  have ha1 := one_le_roundQ hu
  have hb1 := one_le_roundQ hc
  have hb63 : roundQ c.val ≤ 2 ^ 63 := (le_abs_self _).trans (abs_roundQ_le_pow (abs_val_le c))
  have hexact : roundQ (1 / 2 ^ 63) = 1 / 2 ^ 63 :=
    roundQ_of_eq_mul_zpow (n := 1) (e := -63) (by norm_num)
      (ulpExp_le (by norm_num) (by norm_num [abs_of_pos]) (by norm_num))
  calc (1 : ℚ) / 2 ^ 63 = roundQ (1 / 2 ^ 63) := hexact.symm
    _ ≤ roundQ (roundQ u.val / roundQ c.val) :=
        roundQ_mono (by norm_num) (div_le_div₀ (zero_le_one.trans ha1) ha1 (zero_lt_one.trans_le hb1) hb63)

/-- `float64(u) / float64(c)` for two `int64`s and a non-zero `c`
(`Float64.ofInt_div_ofInt`), the quotient of every ranking of the code. -/
def quotFloat (u c : Quantity) : ℚ := roundQ (roundQ u.val / roundQ c.val)

@[simp] theorem quotFloat_zero_left (c : Quantity) : quotFloat 0 c = 0 := by
  simp [quotFloat]

theorem quotFloat_nonneg {u c : Quantity} (hu : 0 ≤ u) (hc : 0 ≤ c) : 0 ≤ quotFloat u c :=
  roundQ_nonneg (div_nonneg (roundQ_nonneg (Int.cast_nonneg.mpr hu)) (roundQ_nonneg (Int.cast_nonneg.mpr hc)))

/-- The quotient grows with the dividend, at a non-negative divisor. -/
theorem quotFloat_mono {u w c : Quantity} (hc : 0 ≤ c) (h : u ≤ w) : quotFloat u c ≤ quotFloat w c :=
  roundQ_monotone (div_le_div_of_nonneg_right (roundQ_monotone (Int.cast_le.mpr h))
    (roundQ_nonneg (Int.cast_nonneg.mpr hc)))

/-- A quotient by a non-zero `int64` is at most `2^63` in magnitude, and at
least `2^-63` unless the dividend is zero. -/
theorem abs_quotFloat_mem (u : Quantity) {c : Quantity} (hc : c ≠ 0) :
    |quotFloat u c| ≤ 2 ^ 63 ∧ (u ≠ 0 → 1 / 2 ^ 63 ≤ |quotFloat u c|) := by
  have hc1 := one_le_abs_roundQ hc
  refine ⟨abs_roundQ_le_pow ?_, fun hu => le_abs_roundQ ?_ ?_⟩
  · rw [abs_div]
    exact (div_le_self (abs_nonneg _) hc1).trans (abs_roundQ_le_pow (abs_val_le u))
  · exact roundQ_of_eq_mul_zpow (n := 1) (e := -63) (by norm_num)
      (ulpExp_le (by norm_num) (by norm_num [abs_of_pos]) (by norm_num))
  · rw [abs_div]
    exact div_le_div₀ (abs_nonneg _) (one_le_abs_roundQ hu) (zero_lt_one.trans_le hc1)
      (abs_roundQ_le_pow (abs_val_le c))

/-! ### Float64 values -/

/-- A Go `float64`: a finite value, the rational it denotes; an infinity and
its sign; or NaN. The two zeros are one value: no modelled computation
divides by a negative zero. -/
inductive Float64 where
  | finite (x : ℚ)
  | inf (neg : Bool)
  | nan
deriving DecidableEq, Repr

namespace Float64

/-- The float64 nearest to `x`: its rounding, or the infinity of its sign once
the rounding reaches `2^1024`. -/
def ofRat (x : ℚ) : Float64 :=
  if 2 ^ 1024 ≤ |roundQ x| then inf (decide (x < 0)) else finite (roundQ x)

/-- `float64(v)` of an integer, also the value of an integer constant compared
with a float64. -/
def ofInt (v : ℤ) : Float64 := ofRat v

/-- `*`: NaN spreads, an infinity times zero is NaN, an infinity otherwise
takes the sign of the product, and two finite values round their product. -/
def mul : Float64 → Float64 → Float64
  | nan, _ | _, nan => nan
  | inf a, inf b => inf (a != b)
  | inf a, finite y | finite y, inf a => if y = 0 then nan else inf (a != decide (y < 0))
  | finite x, finite y => ofRat (x * y)

/-- `/`: NaN spreads, an infinity over an infinity is NaN, a finite value over
an infinity is zero, a non-zero value over zero is the infinity of its sign,
zero over zero is NaN, and two finite values round their quotient. -/
def div : Float64 → Float64 → Float64
  | nan, _ | _, nan | inf _, inf _ => nan
  | inf a, finite y => inf (a != decide (y < 0))
  | finite _, inf _ => finite 0
  | finite x, finite y => if y = 0 then (if x = 0 then nan else inf (decide (x < 0))) else ofRat (x / y)

/-- `<`: false whenever NaN is compared. -/
def lt : Float64 → Float64 → Bool
  | finite x, finite y => decide (x < y)
  | finite _, inf b => !b
  | inf a, finite _ => a
  | inf a, inf b => a && !b
  | _, _ => false

/-- `math.IsNaN`. -/
def isNaN : Float64 → Bool
  | nan => true
  | _ => false

/-- `== 0`: true of the zero, false of NaN. -/
def isZero : Float64 → Bool
  | finite x => decide (x = 0)
  | _ => false

@[simp] theorem mul_finite (x y : ℚ) : (finite x).mul (finite y) = ofRat (x * y) := rfl

@[simp] theorem div_finite (x y : ℚ) :
    (finite x).div (finite y) = if y = 0 then (if x = 0 then nan else inf (decide (x < 0))) else ofRat (x / y) :=
  rfl

@[simp] theorem lt_finite (x y : ℚ) : (finite x).lt (finite y) = decide (x < y) := rfl

/-- The three outcomes of rounding to float64: the rounding, or the infinity of
the sign of a rounding of magnitude `2^1024` or more. -/
theorem ofRat_cases (x : ℚ) :
    (ofRat x = finite (roundQ x) ∧ |roundQ x| < 2 ^ 1024) ∨
    (ofRat x = inf false ∧ 2 ^ 1024 ≤ roundQ x) ∨ (ofRat x = inf true ∧ roundQ x ≤ -2 ^ 1024) := by
  unfold ofRat
  split_ifs with h
  · rcases le_or_lt 0 x with hx | hx
    · rw [abs_of_nonneg (roundQ_nonneg hx)] at h
      refine .inr (.inl ⟨?_, h⟩)
      rw [decide_eq_false (not_lt.mpr hx)]
    · rw [abs_of_nonpos (roundQ_nonpos hx.le)] at h
      refine .inr (.inr ⟨?_, le_neg.mp h⟩)
      rw [decide_eq_true hx]
  · exact .inl ⟨rfl, not_le.mp h⟩

/-- A value of magnitude at most `2^1023` does not overflow. -/
theorem ofRat_of_abs_le {x : ℚ} (h : |x| ≤ 2 ^ (1023 : ℤ)) : ofRat x = finite (roundQ x) := by
  have := abs_roundQ_le h (by norm_num)
  rw [ofRat, if_neg (by intro h'; norm_num at this h'; linarith)]

@[simp] theorem isNaN_ofRat (x : ℚ) : (ofRat x).isNaN = false := by
  unfold ofRat; split_ifs <;> rfl

/-- **Rounding to float64 keeps the order**: of two values, the rounding of
the larger one is never below that of the smaller, infinities included. -/
theorem lt_ofRat_of_le {x y : ℚ} (h : x ≤ y) : (ofRat y).lt (ofRat x) = false := by
  have hr := roundQ_monotone h
  rcases ofRat_cases x with ⟨hx, hxb⟩ | ⟨hx, hxb⟩ | ⟨hx, hxb⟩ <;>
    rcases ofRat_cases y with ⟨hy, hyb⟩ | ⟨hy, hyb⟩ | ⟨hy, hyb⟩ <;> rw [hx, hy]
  · exact decide_eq_false (not_lt.mpr hr)
  · rfl
  · exact absurd (hr.trans hyb) (not_le.mpr (neg_lt_of_abs_lt hxb))
  · exact absurd (hxb.trans hr) (not_le.mpr (lt_of_abs_lt hyb))
  · rfl
  · exact absurd ((hxb.trans hr).trans hyb) (by norm_num)
  all_goals rfl

/-- Every `int64` converts to a finite float64. -/
theorem ofInt_quantity (v : Quantity) : ofInt v.val = finite (roundQ v.val) :=
  ofRat_of_abs_le ((abs_val_le v).trans (by norm_num))

/-- **The quotient of two `int64`s**, `float64(u) / float64(c)` with `c ≠ 0`,
is the rounding of the quotient of their roundings; it never overflows. -/
theorem ofInt_div_ofInt (u : Quantity) {c : Quantity} (hc : c ≠ 0) :
    (ofInt u.val).div (ofInt c.val) = finite (roundQ (roundQ u.val / roundQ c.val)) := by
  have h1 := one_le_abs_roundQ hc
  rw [ofInt_quantity, ofInt_quantity, div_finite, if_neg (abs_pos.mp (zero_lt_one.trans_le h1)),
    ofRat_of_abs_le]
  calc |roundQ u.val / roundQ c.val| = |roundQ u.val| / |roundQ c.val| := abs_div _ _
    _ ≤ |roundQ u.val| := div_le_self (abs_nonneg _) h1
    _ ≤ 2 ^ 63 := abs_roundQ_le_pow (abs_val_le u)
    _ ≤ 2 ^ (1023 : ℤ) := by norm_num

/-- The constant `math.MaxInt64` compared with a float64 is `2^63`. -/
theorem ofInt_maxInt64 : ofInt maxInt64 = finite (2 ^ 63) := by
  rw [show maxInt64 = maxQuantity.val from rfl, ofInt_quantity,
    roundQ_near_two_pow_63 (by norm_num [maxQuantity, maxInt64]) (by norm_num [maxQuantity, maxInt64])]

/-- The constant `math.MinInt64` is `-2^63`, a float64. -/
theorem ofInt_minInt64 : ofInt minInt64 = finite (-2 ^ 63) := by
  have hu : ulpExp (-2 ^ 63 : ℚ) = 11 := by
    rw [ulpExp_of_mem (E := 63) (by norm_num) (by norm_num)]; norm_num
  have h : roundQ (-2 ^ 63 : ℚ) = -2 ^ 63 :=
    roundQ_of_eq_mul_zpow (n := -1) (e := 63) (by norm_num) (by rw [hu]; norm_num)
  rw [show minInt64 = minQuantity.val from rfl, ofInt_quantity,
    show ((minQuantity.val : ℤ) : ℚ) = -2 ^ 63 by norm_num [minQuantity], h]

end Float64

/-- Go's float-to-integer conversion discards the fraction: truncation toward
zero. -/
def truncQ (x : ℚ) : ℤ := if 0 ≤ x then ⌊x⌋ else ⌈x⌉

/-- `int64(f)`: the truncation of a finite value when it fits in `int64`; Go
leaves any other conversion to the implementation, here `outOfRange f`. -/
def toInt64 (outOfRange : Float64 → Quantity) (f : Float64) : Quantity :=
  match f with
  | .finite x => if h : minInt64 ≤ truncQ x ∧ truncQ x ≤ maxInt64 then ⟨truncQ x, h.1, h.2⟩ else outOfRange f
  | _ => outOfRange f

/-- What amd64 gives for a conversion out of range or of NaN: the integer
indefinite `0x8000000000000000`, which is `MinInt64`. -/
def amd64OutOfRange (_ : Float64) : Quantity := minQuantity

theorem truncQ_intCast (k : ℤ) : truncQ k = k := by
  unfold truncQ; split_ifs <;> simp

theorem truncQ_mono {x y : ℚ} (h : x ≤ y) : truncQ x ≤ truncQ y := by
  unfold truncQ
  split_ifs with hx hy hy
  · exact Int.floor_le_floor h
  · exact absurd (hx.trans h) hy
  · exact (Int.ceil_le.mpr (by push_cast; linarith)).trans (Int.floor_nonneg.mpr hy)
  · exact Int.ceil_le_ceil h

/-- A conversion of a value in `[-2^63, 2^63)` fits in `int64`. -/
theorem toInt64_of_mem (o : Float64 → Quantity) {x : ℚ} (h1 : -2 ^ 63 ≤ x) (h2 : x < 2 ^ 63) :
    toInt64 o (.finite x) = clamp (truncQ x) := by
  have hlo : minInt64 ≤ truncQ x := by
    have := truncQ_mono h1
    rw [show (-2 ^ 63 : ℚ) = ((-2 ^ 63 : ℤ) : ℚ) by push_cast; ring, truncQ_intCast] at this
    simp only [minInt64]; omega
  have hhi : truncQ x ≤ maxInt64 := by
    have : truncQ x < 2 ^ 63 := by
      unfold truncQ; split_ifs with hx
      · exact Int.floor_lt.mpr (by push_cast; exact h2)
      · exact (Int.ceil_le.mpr (show x ≤ ((0 : ℤ) : ℚ) by push_cast; linarith)).trans_lt (by norm_num)
    simp only [maxInt64]; omega
  rw [toInt64, dif_pos ⟨hlo, hhi⟩]
  exact (Quantity.ext (clamp_of_mem hlo hhi)).symm

/-- `2^63` passes both overflow checks, but does not fit in `int64`. -/
theorem toInt64_two_pow_63 (o : Float64 → Quantity) : toInt64 o (.finite (2 ^ 63)) = o (.finite (2 ^ 63)) := by
  rw [toInt64, dif_neg]
  rw [show (2 ^ 63 : ℚ) = ((2 ^ 63 : ℤ) : ℚ) by push_cast; ring, truncQ_intCast]
  simp [maxInt64]

theorem clamp_truncQ_of_ge {x : ℚ} (h : 2 ^ 63 ≤ x) : clamp (truncQ x) = maxQuantity := by
  have := truncQ_mono h
  rw [show (2 ^ 63 : ℚ) = ((2 ^ 63 : ℤ) : ℚ) by push_cast; ring, truncQ_intCast] at this
  ext; simp only [val_clamp, val_maxQuantity, maxInt64]; omega

theorem clamp_truncQ_of_le {x : ℚ} (h : x ≤ -2 ^ 63) : clamp (truncQ x) = minQuantity := by
  have := truncQ_mono h
  rw [show (-2 ^ 63 : ℚ) = ((-2 ^ 63 : ℤ) : ℚ) by push_cast; ring, truncQ_intCast] at this
  ext; simp only [val_clamp, val_minQuantity, minInt64]; omega

end Resources
