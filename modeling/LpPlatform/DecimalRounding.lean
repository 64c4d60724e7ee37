import Mathlib.Algebra.Order.Field.Power
import Mathlib.Algebra.Order.Floor.Ring
import Mathlib.Data.Int.Log
import Mathlib.Tactic.FieldSimp
import Mathlib.Tactic.Linarith
import Mathlib.Tactic.NormNum
import Mathlib.Tactic.Positivity
import Mathlib.Tactic.Ring

/-!
# Rounding half to even

A number of an ordered field is rounded to the nearest integer, ties to the
even one, to a number of decimals, or to a number of significant digits. All
three are monotone and odd. Rounding to decimals moves a number by half a unit
of the last one at most, and a number that has the digits already stays.
-/

namespace LpPlatform.DecimalRounding

variable {K : Type*} [Field K] [LinearOrder K] [IsStrictOrderedRing K] [FloorRing K]

/-- The nearest integer, ties to the even one. -/
def halfEven (x : K) : ℤ :=
  if Int.fract x < 1 / 2 then ⌊x⌋
  else if 1 / 2 < Int.fract x then ⌊x⌋ + 1
  else if Even ⌊x⌋ then ⌊x⌋ else ⌊x⌋ + 1

/-- Rounded to a number of decimals. -/
def roundTo (decimals : ℕ) (x : K) : K := halfEven (x * 10 ^ decimals) / 10 ^ decimals

/-- The number is past half a unit beyond an integer number of units of the last
decimal, or on it where the tie goes up. -/
def Passes (decimals : ℕ) (n : ℤ) (x : K) : Prop :=
  (n + 1 / 2) / 10 ^ decimals < x ∨ (x = (n + 1 / 2) / 10 ^ decimals ∧ Odd n)

/-- The place of the last significant digit. -/
def lastPlace (digits : ℕ) (x : K) : K := 10 ^ (Int.log 10 |x| + 1 - digits)

/-- Rounded to a number of significant digits. -/
def significant (digits : ℕ) (x : K) : K := halfEven (x / lastPlace digits x) * lastPlace digits x

section Integers

/-- An integer stays. -/
@[simp] theorem halfEven_intCast (n : ℤ) : halfEven (n : K) = n := by
  simp [halfEven]

@[simp] theorem halfEven_zero : halfEven (0 : K) = 0 := by
  simpa using halfEven_intCast (K := K) 0

/-- A number moves by a half at most. -/
theorem abs_halfEven_sub_le (x : K) : |(halfEven x : K) - x| ≤ 1 / 2 := by
  have hx : (⌊x⌋ : K) + Int.fract x = x := Int.floor_add_fract x
  have hnonneg := Int.fract_nonneg x
  have hlt := Int.fract_lt_one x
  rw [abs_le]
  unfold halfEven
  split_ifs <;> push_cast <;> constructor <;> linarith

/-- Two numbers that rounding puts in the other order are equal. -/
theorem halfEven_mono {x y : K} (hxy : x ≤ y) : halfEven x ≤ halfEven y := by
  by_contra hnot
  have hstep : halfEven y + 1 ≤ halfEven x := by omega
  have hcast : (halfEven y : K) + 1 ≤ halfEven x := by exact_mod_cast hstep
  have hxerr := abs_le.mp (abs_halfEven_sub_le x)
  have hyerr := abs_le.mp (abs_halfEven_sub_le y)
  have heq : x = y := by linarith [hxerr.2, hyerr.1]
  subst heq
  omega

/-- The sign goes through. -/
theorem halfEven_neg (x : K) : halfEven (-x) = -halfEven x := by
  by_cases hint : Int.fract x = 0
  · have hx : x = (⌊x⌋ : ℤ) := by linarith [Int.floor_add_fract x]
    rw [hx, ← Int.cast_neg, halfEven_intCast, halfEven_intCast]
  · have hfract : Int.fract (-x) = 1 - Int.fract x := Int.fract_neg hint
    have hfloor : ⌊-x⌋ = -⌊x⌋ - 1 := by
      have hsum : ((⌊-x⌋ : ℤ) : K) = ((-⌊x⌋ - 1 : ℤ) : K) := by
        push_cast
        linarith [Int.floor_add_fract x, Int.floor_add_fract (-x)]
      exact_mod_cast hsum
    -- the integer below and the one above change their roles, and their parity
    have hparity : Even (-⌊x⌋ - 1) ↔ ¬ Even ⌊x⌋ := by
      rw [Int.even_sub_one, even_neg]
    unfold halfEven
    rw [hfract, hfloor]
    rcases lt_trichotomy (Int.fract x) (1 / 2) with hlt | heq | hgt
    · rw [if_neg (by linarith), if_pos (by linarith), if_pos hlt]
      ring
    · have hhalf : (1 : K) - 1 / 2 = 1 / 2 := by norm_num
      rw [heq, hhalf, if_neg (lt_irrefl _), if_neg (lt_irrefl _), if_neg (lt_irrefl _), if_neg (lt_irrefl _)]
      by_cases heven : Even ⌊x⌋
      · rw [if_neg (fun h => hparity.mp h heven), if_pos heven]
        ring
      · rw [if_pos (hparity.mpr heven), if_neg heven]
        ring
    · rw [if_pos (by linarith), if_neg (by linarith), if_pos hgt]
      ring

theorem halfEven_nonneg {x : K} (h : 0 ≤ x) : 0 ≤ halfEven x := by
  simpa using halfEven_mono h

/-- What is more than a half is rounded to something positive. -/
theorem halfEven_pos_iff (x : K) : 0 < halfEven x ↔ 1 / 2 < x := by
  constructor
  · intro hpos
    by_contra hle
    have hhalf : halfEven (1 / 2 : K) = 0 := by
      have hfloor : ⌊(1 / 2 : K)⌋ = 0 := Int.floor_eq_iff.mpr (by norm_num)
      have hfract : Int.fract (1 / 2 : K) = 1 / 2 := by
        rw [Int.fract, hfloor]
        simp
      rw [halfEven, hfract, hfloor, if_neg (lt_irrefl _), if_neg (lt_irrefl _), if_pos Even.zero]
    have hmono := halfEven_mono (not_lt.mp hle)
    omega
  · intro hx
    have herr := abs_le.mp (abs_halfEven_sub_le x)
    have hpos : (0 : K) < halfEven x := by linarith [herr.1]
    exact_mod_cast hpos

/-- A tie goes to the even integer. -/
theorem halfEven_tie (n : ℤ) : halfEven ((n : K) + 1 / 2) = if Even n then n else n + 1 := by
  have hfloor : ⌊(n : K) + 1 / 2⌋ = n := by
    rw [Int.floor_eq_iff]
    constructor <;> linarith
  have hfract : Int.fract ((n : K) + 1 / 2) = 1 / 2 := by
    rw [Int.fract, hfloor]
    ring
  rw [halfEven, hfract, hfloor, if_neg (lt_irrefl _), if_neg (lt_irrefl _)]

/-- Rounding goes beyond an integer past the half that follows it. -/
theorem lt_halfEven_iff (n : ℤ) (x : K) :
    n < halfEven x ↔ (n : K) + 1 / 2 < x ∨ (x = n + 1 / 2 ∧ Odd n) := by
  have herr := abs_le.mp (abs_halfEven_sub_le x)
  rcases lt_trichotomy x ((n : K) + 1 / 2) with hlt | rfl | hgt
  · have hle : (halfEven x : K) < n + 1 := by linarith [herr.2]
    have hle' : halfEven x < n + 1 := by exact_mod_cast hle
    refine iff_of_false (by omega) ?_
    rintro (h | ⟨h, -⟩)
    · linarith
    · linarith
  · rw [halfEven_tie, ← Int.not_even_iff_odd]
    by_cases heven : Even n
    · simp [heven]
    · simp [heven]
  · have hge : (n : K) < halfEven x := by linarith [herr.1]
    exact iff_of_true (by exact_mod_cast hge) (Or.inl hgt)

/-- A quotient of naturals, by its division with remainder. -/
theorem halfEven_natCast_div (n : ℕ) {d : ℕ} (hd : 0 < d) : halfEven ((n : K) / d) =
    if 2 * (n % d) < d then ((n / d : ℕ) : ℤ)
    else if d < 2 * (n % d) then ((n / d : ℕ) : ℤ) + 1
    else if n / d % 2 = 0 then ((n / d : ℕ) : ℤ) else ((n / d : ℕ) : ℤ) + 1 := by
  have hdpos : (0 : K) < d := by exact_mod_cast hd
  have hsplit : (n : K) = d * (n / d : ℕ) + (n % d : ℕ) := by exact_mod_cast (Nat.div_add_mod n d).symm
  have hrest : ((n % d : ℕ) : K) < d := by exact_mod_cast Nat.mod_lt n hd
  have hquot : (n : K) / d = (n / d : ℕ) + ((n % d : ℕ) : K) / d := by
    rw [div_eq_iff hdpos.ne', add_mul, div_mul_cancel₀ _ hdpos.ne']
    linarith
  have hfract' : ((n % d : ℕ) : K) / d < 1 := (div_lt_one hdpos).mpr hrest
  have hnonneg : (0 : K) ≤ ((n % d : ℕ) : K) / d := by positivity
  have hfloor : ⌊(n : K) / d⌋ = ((n / d : ℕ) : ℤ) := by
    rw [Int.floor_eq_iff, hquot, Int.cast_natCast]
    constructor <;> linarith
  have hfract : Int.fract ((n : K) / d) = ((n % d : ℕ) : K) / d := by
    rw [Int.fract, hfloor, hquot, Int.cast_natCast, add_sub_cancel_left]
  have hlt : Int.fract ((n : K) / d) < 1 / 2 ↔ 2 * (n % d) < d := by
    rw [hfract, div_lt_div_iff₀ hdpos two_pos, one_mul, mul_comm]
    exact_mod_cast Iff.rfl
  have hgt : 1 / 2 < Int.fract ((n : K) / d) ↔ d < 2 * (n % d) := by
    rw [hfract, div_lt_div_iff₀ two_pos hdpos, one_mul, mul_comm]
    exact_mod_cast Iff.rfl
  have heven : Even ((n / d : ℕ) : ℤ) ↔ n / d % 2 = 0 := by
    rw [Int.even_iff]
    omega
  simp only [halfEven, hlt, hgt, heven, hfloor]

end Integers

section Decimals

variable (decimals : ℕ)

theorem roundTo_mono : Monotone (roundTo decimals : K → K) := by
  intro x y hxy
  have hpow : (0 : K) < 10 ^ decimals := by positivity
  have hscaled : x * 10 ^ decimals ≤ y * 10 ^ decimals := mul_le_mul_of_nonneg_right hxy hpow.le
  exact div_le_div_of_nonneg_right (Int.cast_le.mpr (halfEven_mono hscaled)) hpow.le

@[simp] theorem roundTo_zero : roundTo decimals (0 : K) = 0 := by simp [roundTo]

theorem roundTo_neg (x : K) : roundTo decimals (-x) = -roundTo decimals x := by
  rw [roundTo, neg_mul, halfEven_neg, Int.cast_neg, neg_div, roundTo]

theorem roundTo_nonneg {x : K} (h : 0 ≤ x) : 0 ≤ roundTo decimals x := by
  simpa using roundTo_mono decimals h

/-- A number of units of the last decimal stays. -/
theorem roundTo_units (n : ℤ) : roundTo decimals ((n : K) / 10 ^ decimals) = n / 10 ^ decimals := by
  have hpow : (10 : K) ^ decimals ≠ 0 := by positivity
  rw [roundTo, div_mul_cancel₀ _ hpow, halfEven_intCast]

/-- What is more than half a unit of the last decimal is rounded to something
positive. -/
theorem roundTo_pos_iff (x : K) : 0 < roundTo decimals x ↔ 1 / (2 * 10 ^ decimals) < x := by
  have hpow : (0 : K) < 10 ^ decimals := by positivity
  rw [roundTo, div_pos_iff_of_pos_right hpow, Int.cast_pos, halfEven_pos_iff,
    div_lt_iff₀ two_pos, div_lt_iff₀ (by positivity)]
  constructor <;> intro h <;> linarith

/-- Two numbers are rounded alike when no half lies between them. -/
theorem roundTo_eq_iff (x y : K) :
    roundTo decimals x = roundTo decimals y ↔ ∀ n : ℤ, Passes decimals n x ↔ Passes decimals n y := by
  have hpow : (0 : K) < 10 ^ decimals := by positivity
  have hpasses : ∀ (n : ℤ) (z : K), Passes decimals n z ↔ n < halfEven (z * 10 ^ decimals) := by
    intro n z
    rw [lt_halfEven_iff, Passes, div_lt_iff₀ hpow, eq_div_iff hpow.ne']
  simp only [hpasses]
  rw [roundTo, roundTo, div_left_inj' hpow.ne', Int.cast_inj]
  refine ⟨fun h n => by rw [h], fun h => ?_⟩
  by_contra hne
  rcases lt_or_gt_of_ne hne with hlt | hgt
  · exact lt_irrefl _ ((h _).mpr hlt)
  · exact lt_irrefl _ ((h _).mp hgt)

end Decimals

section Digits

variable {digits : ℕ}

theorem lastPlace_pos (digits : ℕ) (x : K) : 0 < lastPlace digits x := by
  unfold lastPlace
  positivity

@[simp] theorem significant_zero (digits : ℕ) : significant digits (0 : K) = 0 := by simp [significant]

theorem significant_neg (digits : ℕ) (x : K) : significant digits (-x) = -significant digits x := by
  have hplace : lastPlace digits (-x) = lastPlace digits x := by simp [lastPlace]
  rw [significant, hplace, neg_div, halfEven_neg, Int.cast_neg, neg_mul, significant]

/-- A number of units of a place stays when it is short. -/
theorem significant_units {n : ℤ} (e : ℤ) (h : |n| < 10 ^ digits) :
    significant digits ((n : K) * 10 ^ e) = n * 10 ^ e := by
  rcases eq_or_ne n 0 with rfl | hn
  · simp
  have hten : (0 : K) < 10 ^ e := by positivity
  have habs : |(n : K) * 10 ^ e| = (|n| : ℤ) * 10 ^ e := by
    rw [abs_mul, abs_of_pos hten, Int.cast_abs]
  have hpos : (0 : K) < |(n : K) * 10 ^ e| := abs_pos.mpr (mul_ne_zero (by exact_mod_cast hn) hten.ne')
  have hlog : Int.log 10 |(n : K) * 10 ^ e| < digits + e := by
    refine (Int.lt_zpow_iff_log_lt (b := 10) (by decide) hpos).mp ?_
    have hcast : ((|n| : ℤ) : K) < 10 ^ digits := by exact_mod_cast h
    rw [habs, Nat.cast_ofNat, zpow_add₀ (by norm_num), zpow_natCast]
    exact mul_lt_mul_of_pos_right hcast hten
  have hplace : (10 : K) ^ e =
      10 ^ (e - (Int.log 10 |(n : K) * 10 ^ e| + 1 - digits)).toNat *
        lastPlace digits ((n : K) * 10 ^ e) := by
    rw [lastPlace, ← zpow_natCast, ← zpow_add₀ (by norm_num), Int.toNat_of_nonneg (by omega)]
    congr 1
    ring
  generalize (e - (Int.log 10 |(n : K) * 10 ^ e| + 1 - digits)).toNat = k at hplace
  have hunit := lastPlace_pos digits ((n : K) * 10 ^ e)
  have hquot : (n : K) * 10 ^ e / lastPlace digits ((n : K) * 10 ^ e) = ((n * 10 ^ k : ℤ) : K) := by
    rw [div_eq_iff hunit.ne']
    push_cast
    rw [mul_assoc, ← hplace]
  rw [significant, hquot, halfEven_intCast, ← hquot, div_mul_cancel₀ _ hunit.ne']

/-- The rounded number is in the same decade, or at its upper end. -/
theorem significant_decade (hdigits : 0 < digits) {x : K} (hx : 0 < x) :
    10 ^ Int.log 10 x ≤ significant digits x ∧ significant digits x ≤ 10 ^ (Int.log 10 x + 1) := by
  have hunit := lastPlace_pos digits x
  have hlow : (10 : K) ^ Int.log 10 x ≤ x := by
    have h := Int.zpow_log_le_self (b := 10) (by decide) hx
    simpa using h
  have hhigh : x < 10 ^ (Int.log 10 x + 1) := by
    have h := Int.lt_zpow_succ_log_self (b := 10) (by decide) x
    simpa using h
  have hbottom : (10 : K) ^ Int.log 10 x = ((10 ^ (digits - 1) : ℕ) : ℤ) * lastPlace digits x := by
    rw [lastPlace, abs_of_pos hx, Int.cast_natCast, Nat.cast_pow, Nat.cast_ofNat, ← zpow_natCast,
      ← zpow_add₀ (by norm_num)]
    congr 1
    omega
  have htop : (10 : K) ^ (Int.log 10 x + 1) = ((10 ^ digits : ℕ) : ℤ) * lastPlace digits x := by
    rw [lastPlace, abs_of_pos hx, Int.cast_natCast, Nat.cast_pow, Nat.cast_ofNat, ← zpow_natCast,
      ← zpow_add₀ (by norm_num)]
    congr 1
    omega
  constructor
  · have hquot : (((10 ^ (digits - 1) : ℕ) : ℤ) : K) ≤ x / lastPlace digits x := by
      rw [le_div_iff₀ hunit, ← hbottom]
      exact hlow
    have hround := halfEven_mono hquot
    rw [halfEven_intCast] at hround
    rw [hbottom, significant]
    exact mul_le_mul_of_nonneg_right (Int.cast_le.mpr hround) hunit.le
  · have hquot : x / lastPlace digits x ≤ (((10 ^ digits : ℕ) : ℤ) : K) := by
      rw [div_le_iff₀ hunit, ← htop]
      exact hhigh.le
    have hround := halfEven_mono hquot
    rw [halfEven_intCast] at hround
    rw [htop, significant]
    exact mul_le_mul_of_nonneg_right (Int.cast_le.mpr hround) hunit.le

theorem significant_nonneg (digits : ℕ) {x : K} (h : 0 ≤ x) : 0 ≤ significant digits x := by
  have hunit := lastPlace_pos digits x
  have hround : (0 : K) ≤ halfEven (x / lastPlace digits x) := by
    exact_mod_cast halfEven_nonneg (div_nonneg h hunit.le)
  exact mul_nonneg hround hunit.le

theorem significant_pos (hdigits : 0 < digits) {x : K} (h : 0 < x) : 0 < significant digits x :=
  lt_of_lt_of_le (by positivity) (significant_decade hdigits h).1

/-- Positive numbers of one decade share the last place. Over two decades the
upper end of the one is below the lower end of the other. -/
theorem significant_le_of_pos (hdigits : 0 < digits) {x y : K} (hx : 0 < x) (hxy : x ≤ y) :
    significant digits x ≤ significant digits y := by
  have hy : 0 < y := lt_of_lt_of_le hx hxy
  rcases (Int.log_mono_right (b := 10) hx hxy).eq_or_lt with hlog | hlog
  · have hplace : lastPlace digits x = lastPlace digits y := by
      rw [lastPlace, lastPlace, abs_of_pos hx, abs_of_pos hy, hlog]
    have hunit := lastPlace_pos digits y
    rw [significant, significant, hplace]
    exact mul_le_mul_of_nonneg_right
      (Int.cast_le.mpr (halfEven_mono (div_le_div_of_nonneg_right hxy hunit.le))) hunit.le
  · calc significant digits x ≤ 10 ^ (Int.log 10 x + 1) := (significant_decade hdigits hx).2
      _ ≤ 10 ^ Int.log 10 y := zpow_le_zpow_right₀ (by norm_num) (by omega)
      _ ≤ significant digits y := (significant_decade hdigits hy).1

theorem significant_mono (hdigits : 0 < digits) : Monotone (significant digits : K → K) := by
  intro x y hxy
  rcases lt_trichotomy x 0 with hx | rfl | hx
  · rcases le_or_gt 0 y with hy | hy
    · have hneg := significant_nonneg digits (neg_nonneg.mpr hx.le)
      rw [significant_neg] at hneg
      linarith [significant_nonneg digits hy]
    · have hflip := significant_le_of_pos hdigits (neg_pos.mpr hy) (neg_le_neg hxy)
      rw [significant_neg, significant_neg] at hflip
      exact neg_le_neg_iff.mp hflip
  · rw [significant_zero]
    exact significant_nonneg digits hxy
  · exact significant_le_of_pos hdigits hx hxy

/-- The absolute value is rounded alike. -/
theorem abs_significant (hdigits : 0 < digits) (x : K) : |significant digits x| = significant digits |x| := by
  rcases le_or_gt 0 x with hx | hx
  · rw [abs_of_nonneg hx, abs_of_nonneg (significant_nonneg digits hx)]
  · have hmono := significant_mono hdigits hx.le
    rw [significant_zero] at hmono
    rw [abs_of_neg hx, abs_of_nonpos hmono, significant_neg]

/-- A rounded number is not rounded further. -/
theorem significant_idem (hdigits : 0 < digits) (x : K) :
    significant digits (significant digits x) = significant digits x := by
  wlog hx : 0 < x with hpos
  · rcases (not_lt.mp hx).eq_or_lt with rfl | hneg
    · simp
    · have hflip := hpos hdigits (-x) (neg_pos.mpr hneg)
      rwa [significant_neg, significant_neg, neg_inj] at hflip
  have hshape : ∃ n : ℤ, 0 ≤ n ∧ n ≤ 10 ^ digits ∧
      significant digits x = n * 10 ^ (Int.log 10 |x| + 1 - digits : ℤ) := by
    refine ⟨halfEven (x / lastPlace digits x), ?_, ?_, rfl⟩
    · exact halfEven_nonneg (div_nonneg hx.le (lastPlace_pos digits x).le)
    · have hupper := (significant_decade hdigits hx).2
      have hunit := lastPlace_pos digits x
      have htop : (10 : K) ^ (Int.log 10 x + 1) = 10 ^ digits * lastPlace digits x := by
        rw [lastPlace, abs_of_pos hx, ← zpow_natCast, ← zpow_add₀ (by norm_num)]
        congr 1
        ring
      rw [htop, significant, mul_le_mul_iff_left₀ hunit] at hupper
      exact_mod_cast hupper
  obtain ⟨n, hn, hle, heq⟩ := hshape
  rw [heq]
  rcases hle.eq_or_lt with rfl | hlt
  · -- the number was rounded up to the next decade
    have hone : (((10 ^ digits : ℤ)) : K) * 10 ^ (Int.log 10 |x| + 1 - digits : ℤ) =
        ((1 : ℤ) : K) * 10 ^ (Int.log 10 |x| + 1) := by
      push_cast
      rw [← zpow_natCast, ← zpow_add₀ (by norm_num), one_mul]
      congr 1
      ring
    rw [hone]
    refine significant_units _ ?_
    rw [abs_one]
    exact one_lt_pow₀ (by norm_num) hdigits.ne'
  · exact significant_units _ (by rwa [abs_of_nonneg hn])

end Digits

end LpPlatform.DecimalRounding
