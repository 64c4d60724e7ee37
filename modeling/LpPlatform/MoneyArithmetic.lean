import LpPlatform.DecimalRounding
import LpPlatform.MoneyText

/-!
# Money arithmetic as rounding

A sum, a difference or a product of money is the exact one rounded to forty
significant digits, half to even. Amounts that a database column holds are
short enough that nothing is rounded: one operation is exact, and so is a sum
of up to ten quintillion of them, in any order.
-/

namespace LpPlatform.MoneyArithmetic

open Amounts DecimalRounding DecimalText JsValues MoneyText

/-- Money of a value that a column can hold. -/
def InColumn (m : Money) : Prop := ∃ x : Numeric, m.value = x.value

section Operations

theorem roundHalfEven_cast (n : ℕ) {d : ℕ} (hd : 0 < d) :
    halfEven ((n : ℚ) / d) = (roundHalfEven n d : ℤ) := by
  rw [halfEven_natCast_div n hd]
  unfold roundHalfEven
  dsimp only
  split_ifs <;> push_cast <;> rfl

theorem litValue_negative (n scale : ℕ) : litValue ⟨true, n, scale⟩ = -litValue ⟨false, n, scale⟩ := by
  simp only [litValue]
  ring_nf
  simp

/-- Rounding does not look at the sign. -/
theorem roundDigits_negative (n d scale : ℕ) :
    (roundDigits true n d scale).value = -(roundDigits false n d scale).value := by
  simp only [roundDigits]
  split_ifs <;> rw [litValue_ofLiteral, litValue_ofLiteral, litValue_negative]

/-- The first forty of more digits are those up to the last place. -/
theorem lastPlace_long {n drop : ℕ} (hlen : (Nat.toDigits 10 n).length = drop + 40) (scale : ℕ) :
    lastPlace 40 ((n : ℚ) / 10 ^ scale) = 10 ^ (drop : ℤ) / 10 ^ scale := by
  have hupper : n < 10 ^ (drop + 40) :=
    (Nat.length_toDigits_le_iff (by decide) (by omega)).mp hlen.le
  have hlower : 10 ^ (drop + 39) ≤ n := by
    by_contra hlt
    have hshort : (Nat.toDigits 10 n).length ≤ drop + 39 :=
      (Nat.length_toDigits_le_iff (by decide) (by omega)).mpr (by omega)
    omega
  have hn : (0 : ℚ) < n := by exact_mod_cast lt_of_lt_of_le (Nat.pow_pos (by decide)) hlower
  have hpow : (0 : ℚ) < 10 ^ scale := by positivity
  have hx : (0 : ℚ) < n / 10 ^ scale := div_pos hn hpow
  have hlog : Int.log 10 ((n : ℚ) / 10 ^ scale) = drop + 39 - scale := by
    refine le_antisymm (Int.lt_add_one_iff.mp ?_) ?_
    · refine (Int.lt_zpow_iff_log_lt (b := 10) (by decide) hx).mp ?_
      have hcast : (n : ℚ) < 10 ^ (drop + 40) := by exact_mod_cast hupper
      have hexp : (drop : ℤ) + 39 - scale + 1 = ((drop + 40 : ℕ) : ℤ) - (scale : ℕ) := by
        push_cast
        ring
      rw [Nat.cast_ofNat, hexp, zpow_sub₀ (by norm_num), zpow_natCast, zpow_natCast]
      exact div_lt_div_of_pos_right hcast hpow
    · refine (Int.zpow_le_iff_le_log (b := 10) (by decide) hx).mp ?_
      have hcast : (10 : ℚ) ^ (drop + 39) ≤ n := by exact_mod_cast hlower
      have hexp : (drop : ℤ) + 39 - scale = ((drop + 39 : ℕ) : ℤ) - (scale : ℕ) := by
        push_cast
        ring
      rw [Nat.cast_ofNat, hexp, zpow_sub₀ (by norm_num), zpow_natCast, zpow_natCast]
      exact div_le_div_of_nonneg_right hcast hpow.le
  have hexp : (drop : ℤ) + 39 - scale + 1 - (40 : ℕ) = (drop : ℤ) - (scale : ℕ) := by
    push_cast
    ring
  rw [lastPlace, abs_of_pos hx, hlog, hexp, zpow_sub₀ (by norm_num), zpow_natCast 10 scale]

/-- Keeping forty digits is rounding to forty significant digits. -/
theorem roundDigits_value (negative : Bool) (n scale : ℕ) :
    (roundDigits negative n 1 scale).value = significant 40 (litValue ⟨negative, n, scale⟩) := by
  have hpositive : (roundDigits false n 1 scale).value = significant 40 (litValue ⟨false, n, scale⟩) := by
    have hvalue : litValue ⟨false, n, scale⟩ = (n : ℚ) / 10 ^ scale := by simp [litValue]
    by_cases hshort : n < 10 ^ 40
    · have hunits : significant 40 (((n : ℤ) : ℚ) * 10 ^ (-(scale : ℤ))) = (n : ℤ) * 10 ^ (-(scale : ℤ)) :=
        significant_units _ (by rw [Nat.abs_cast]; exact_mod_cast hshort)
      rw [Int.cast_natCast, zpow_neg, zpow_natCast, ← div_eq_mul_inv] at hunits
      rw [roundDigits_exact false hshort, litValue_ofLiteral, hvalue, hunits]
    · have hlong : 40 < (Nat.toDigits 10 n).length := by
        by_contra hle
        exact hshort ((Nat.length_toDigits_le_iff (by decide) (by decide)).mp (not_lt.mp hle))
      obtain ⟨drop, hdrop⟩ : ∃ drop, (Nat.toDigits 10 n).length = drop + 40 :=
        ⟨(Nat.toDigits 10 n).length - 40, by omega⟩
      have hplace := lastPlace_long hdrop scale
      have hpow : (0 : ℚ) < 10 ^ scale := by positivity
      have hquot : (n : ℚ) / 10 ^ scale / lastPlace 40 ((n : ℚ) / 10 ^ scale) = n / (10 ^ drop : ℕ) := by
        rw [hplace, zpow_natCast]
        push_cast
        field_simp
      rw [hvalue, significant, hquot, roundHalfEven_cast n (Nat.pow_pos (by decide)), hplace]
      simp only [roundDigits, Nat.div_one, hdrop, Nat.add_sub_cancel, one_mul]
      generalize roundHalfEven n (10 ^ drop) = c
      split_ifs with hle
      · have hsplit : (10 : ℚ) ^ scale = 10 ^ (scale - drop) * 10 ^ drop := by
          rw [← pow_add, Nat.sub_add_cancel hle]
        rw [litValue_ofLiteral, litValue, zpow_natCast, hsplit]
        simp
        field_simp
      · have hsplit : (10 : ℚ) ^ drop = 10 ^ (drop - scale) * 10 ^ scale := by
          rw [← pow_add, Nat.sub_add_cancel (by omega)]
        rw [litValue_ofLiteral, litValue, zpow_natCast, hsplit]
        simp
  cases negative with
  | false => exact hpositive
  | true =>
    rw [roundDigits_negative, hpositive, litValue_negative, significant_neg]

/-- The product to forty digits. -/
theorem mul_significant (a b : Money) : (a.mul b).value = significant 40 (a.value * b.value) := by
  rw [Money.mul, roundDigits_value, value_mul]

/-- What is added up over the larger scale is the exact sum. -/
theorem value_add (a b : Money) :
    a.value + b.value = ((signed a.negative (a.coefficient * 10 ^ (max a.scale b.scale - a.scale)) +
      signed b.negative (b.coefficient * 10 ^ (max a.scale b.scale - b.scale)) : ℤ) : ℚ) /
        10 ^ max a.scale b.scale := by
  have hscaled : ∀ (m : Money) (k : ℕ), m.scale ≤ k →
      m.value = (signed m.negative (m.coefficient * 10 ^ (k - m.scale)) : ℚ) / 10 ^ k := by
    intro m k hk
    have hsplit : (10 : ℚ) ^ k = 10 ^ (k - m.scale) * 10 ^ m.scale := by
      rw [← pow_add, Nat.sub_add_cancel hk]
    rw [Money.value, litValue, hsplit]
    cases m.negative <;> simp [signed] <;> field_simp
  rw [Int.cast_add, add_div, ← hscaled a _ (le_max_left _ _), ← hscaled b _ (le_max_right _ _)]

/-- The value of an integer under its sign. -/
theorem litValue_natAbs {negative : Bool} {sum : ℤ} (hneg : sum < 0 → negative = true)
    (hpos : 0 < sum → negative = false) (scale : ℕ) :
    litValue ⟨negative, sum.natAbs, scale⟩ = (sum : ℚ) / 10 ^ scale := by
  rcases lt_trichotomy sum 0 with h | rfl | h
  · have hcast : ((sum.natAbs : ℕ) : ℚ) = -sum := by
      rw [Nat.cast_natAbs, abs_of_neg h]
      simp
    rw [hneg h, litValue, hcast]
    simp
  · simp [litValue]
  · have hcast : ((sum.natAbs : ℕ) : ℚ) = sum := by rw [Nat.cast_natAbs, abs_of_pos h]
    rw [hpos h, litValue, hcast]
    simp

/-- The sum to forty digits. -/
theorem add_significant (a b : Money) : (a.add b).value = significant 40 (a.value + b.value) := by
  rw [value_add]
  simp only [Money.add]
  generalize signed a.negative _ + signed b.negative _ = sum
  rw [roundDigits_value, litValue_natAbs]
  · intro h
    simp [h]
  · intro h
    simp [not_lt.mpr h.le, h.ne']

theorem value_neg (m : Money) : m.neg.value = -m.value := by
  rw [Money.value, Money.value, Money.neg]
  cases m.negative with
  | false => exact litValue_negative m.coefficient m.scale
  | true => rw [litValue_negative, neg_neg, Bool.not_true]

theorem value_abs (m : Money) : m.abs.value = |m.value| := by
  have hnonneg : 0 ≤ litValue ⟨false, m.coefficient, m.scale⟩ := by
    simp only [litValue, Bool.false_eq_true, if_false, one_mul]
    positivity
  rw [Money.value, Money.value, Money.abs]
  cases m.negative with
  | false => exact (abs_of_nonneg hnonneg).symm
  | true => rw [litValue_negative, abs_neg, abs_of_nonneg hnonneg]

/-- The difference to forty digits. -/
theorem sub_significant (a b : Money) : (a.sub b).value = significant 40 (a.value - b.value) := by
  rw [Money.sub, add_significant, value_neg, sub_eq_add_neg]

/-- Rounding money rounds its value. -/
theorem round_value (m : Money) (decimals : ℕ) : (m.round decimals).value = roundTo decimals m.value := by
  have hpositive : ∀ (n s : ℕ), decimals < s →
      roundTo decimals (litValue ⟨false, n, s⟩) =
        litValue ⟨false, roundHalfEven n (10 ^ (s - decimals)), decimals⟩ := by
    intro n s hs
    have hsplit : (10 : ℚ) ^ s = 10 ^ (s - decimals) * 10 ^ decimals := by
      rw [← pow_add, Nat.sub_add_cancel hs.le]
    have hscaled : litValue ⟨false, n, s⟩ * 10 ^ decimals = (n : ℚ) / (10 ^ (s - decimals) : ℕ) := by
      simp only [litValue, Bool.false_eq_true, if_false, one_mul, hsplit]
      push_cast
      field_simp
    rw [roundTo, hscaled, roundHalfEven_cast n (Nat.pow_pos (by decide))]
    simp [litValue]
  by_cases hs : m.scale ≤ decimals
  · -- no more decimals than are kept
    have hunits : m.value = ((signed m.negative (m.coefficient * 10 ^ (decimals - m.scale)) : ℤ) : ℚ) /
        10 ^ decimals := by
      have hsplit : (10 : ℚ) ^ decimals = 10 ^ (decimals - m.scale) * 10 ^ m.scale := by
        rw [← pow_add, Nat.sub_add_cancel hs]
      rw [Money.value, litValue, hsplit]
      cases m.negative <;> simp [signed] <;> field_simp
    rw [Money.round, if_pos hs, hunits, roundTo_units]
  · rw [Money.round, if_neg hs, litValue_ofLiteral, Money.value]
    cases m.negative with
    | false => exact (hpositive m.coefficient m.scale (by omega)).symm
    | true => rw [litValue_negative, litValue_negative, roundTo_neg, hpositive _ _ (by omega)]

end Operations

section Columns

variable {a b : Money}

/-- A short number of ten-thousandths keeps all its digits. -/
theorem significant_tenThousandths {k : ℤ} (h : |k| < 10 ^ 40) :
    significant 40 ((k : ℚ) / 10000) = k / 10000 := by
  have hunits : significant 40 ((k : ℚ) * 10 ^ (-4 : ℤ)) = k * 10 ^ (-4 : ℤ) := significant_units (-4) h
  have hplace : (k : ℚ) / 10000 = k * 10 ^ (-4 : ℤ) := by norm_num [div_eq_mul_inv, zpow_neg]
  rwa [← hplace] at hunits

theorem abs_units_lt (x : Numeric) : |x.units| < 10 ^ 20 := by
  rw [Int.abs_eq_natAbs]
  exact_mod_cast x.bound

/-- Two amounts of the database are added exactly. -/
theorem add_exact (ha : InColumn a) (hb : InColumn b) : (a.add b).value = a.value + b.value := by
  obtain ⟨x, hx⟩ := ha
  obtain ⟨y, hy⟩ := hb
  have hsum : a.value + b.value = ((x.units + y.units : ℤ) : ℚ) / 10000 := by
    rw [hx, hy, Numeric.value, Numeric.value]
    push_cast
    ring
  have hbound : |x.units + y.units| < 10 ^ 40 := by
    have hle := abs_add_le x.units y.units
    have hx := abs_units_lt x
    have hy := abs_units_lt y
    omega
  rw [add_significant, hsum, significant_tenThousandths hbound]

theorem inColumn_neg (ha : InColumn a) : InColumn a.neg := by
  obtain ⟨x, hx⟩ := ha
  refine ⟨⟨-x.units, by rw [Int.natAbs_neg]; exact x.bound⟩, ?_⟩
  rw [value_neg, hx, Numeric.value, Numeric.value]
  push_cast
  ring

theorem sub_exact (ha : InColumn a) (hb : InColumn b) : (a.sub b).value = a.value - b.value := by
  rw [Money.sub, add_exact ha (inColumn_neg hb), value_neg, sub_eq_add_neg]

/-- Two amounts of the database are multiplied exactly: their product has at
most forty digits. -/
theorem mul_exact (ha : InColumn a) (hb : InColumn b) : (a.mul b).value = a.value * b.value := by
  obtain ⟨x, hx⟩ := ha
  obtain ⟨y, hy⟩ := hb
  have hproduct : a.value * b.value = ((x.units * y.units : ℤ) : ℚ) * 10 ^ (-8 : ℤ) := by
    rw [hx, hy, Numeric.value, Numeric.value]
    push_cast
    norm_num [zpow_neg]
    ring
  have hbound : |x.units * y.units| < 10 ^ 40 := by
    rw [abs_mul]
    calc |x.units| * |y.units| < 10 ^ 20 * 10 ^ 20 :=
          mul_lt_mul'' (abs_units_lt x) (abs_units_lt y) (abs_nonneg _) (abs_nonneg _)
      _ = 10 ^ 40 := by norm_num
  rw [mul_significant, hproduct, significant_units (-8) hbound]

/-- A sum that starts short stays exact over a list of amounts. -/
theorem foldl_exact {amounts : List Money} (hamounts : ∀ a ∈ amounts, InColumn a) {total : Money} {k : ℤ}
    (htotal : total.value = (k : ℚ) / 10000) (hbound : |k| + amounts.length * 10 ^ 20 ≤ 10 ^ 39) :
    (amounts.foldl Money.add total).value = total.value + (amounts.map Money.value).sum := by
  induction amounts generalizing total k with
  | nil => simp
  | cons a amounts ih =>
    obtain ⟨x, hx⟩ := hamounts a (by simp)
    have hsmall := abs_units_lt x
    have hle := abs_add_le k x.units
    simp only [List.length_cons] at hbound
    push_cast at hbound
    have hstep : (total.add a).value = ((k + x.units : ℤ) : ℚ) / 10000 := by
      have hsum : total.value + a.value = ((k + x.units : ℤ) : ℚ) / 10000 := by
        rw [htotal, hx, Numeric.value]
        push_cast
        ring
      rw [add_significant, hsum, significant_tenThousandths (by omega)]
    have hrest := ih (fun a ha => hamounts a (by simp [ha])) hstep (by omega)
    have hadd : (total.add a).value = total.value + a.value := by
      rw [hstep, htotal, hx, Numeric.value]
      push_cast
      ring
    rw [List.foldl_cons, hrest, hadd, List.map_cons, List.sum_cons, add_assoc]

theorem foldl_zero_exact {amounts : List Money} (hlength : amounts.length ≤ 10 ^ 19)
    (hamounts : ∀ a ∈ amounts, InColumn a) :
    (amounts.foldl Money.add Money.zero).value = (amounts.map Money.value).sum := by
  have hzero : Money.zero.value = ((0 : ℤ) : ℚ) / 10000 := by norm_num [Money.value, Money.zero, litValue]
  have hsum := foldl_exact hamounts hzero (by rw [abs_zero]; omega)
  simpa [hzero] using hsum

end Columns

section Signs

/-- Money whose sign is that of its value: zero has none. -/
def Signed (m : Money) : Prop := m.isNegative = m.negative

/-- Money of one value is the same when the signs are those of the values. -/
theorem Signed.eq {m n : Money} (hm : Signed m) (hn : Signed n) (h : m.value = n.value) : m = n := by
  obtain ⟨hsign, hcoefficient, hscale⟩ := value_parts h
  obtain ⟨mn, mc, ms, _⟩ := m
  obtain ⟨nn, nc, ns, _⟩ := n
  obtain rfl : mc = nc := hcoefficient
  obtain rfl : ms = ns := hscale
  obtain rfl : mn = nn := by rw [← show _ = mn from hm, hsign, show _ = nn from hn]
  rfl

theorem signed_zero : Signed Money.zero := rfl

theorem signed_iff (m : Money) : Signed m ↔ (m.negative = true → m.value < 0) := by
  rw [Signed, ← isNegative_iff]
  cases hneg : m.negative <;> simp [Money.isNegative, hneg]

/-- A sum has the sign of its value when one summand has. -/
theorem signed_add {a : Money} (ha : Signed a) (b : Money) : Signed (a.add b) := by
  rw [signed_iff] at ha ⊢
  have hflag : ∀ negative n scale, (roundDigits negative n 1 scale).negative = negative := by
    intro negative n scale
    unfold roundDigits
    dsimp only
    split <;> rfl
  have hexact := value_add a b
  have hpow : (0 : ℚ) < 10 ^ max a.scale b.scale := by positivity
  intro hneg
  simp only [Money.add, hflag, Bool.or_eq_true, Bool.and_eq_true, decide_eq_true_eq] at hneg
  have hsum : a.value + b.value < 0 := by
    rcases hneg with hlt | ⟨-, hna, hnb⟩
    · rw [hexact]
      exact div_neg_of_neg_of_pos (by exact_mod_cast hlt) hpow
    · -- two negative summands, the first of them below zero
      have hb : b.value ≤ 0 := by
        have hmagnitude : (0 : ℚ) ≤ litValue ⟨false, b.coefficient, b.scale⟩ := by
          simp only [litValue, Bool.false_eq_true, if_false, one_mul]
          positivity
        rw [Money.value, hnb, litValue_negative]
        linarith
      linarith [ha hna]
  have hpos : 0 < significant 40 (-(a.value + b.value)) := significant_pos (by decide) (neg_pos.mpr hsum)
  rw [significant_neg] at hpos
  rw [add_significant]
  linarith

theorem signed_foldl (amounts : List Money) {total : Money} (h : Signed total) :
    Signed (amounts.foldl Money.add total) := by
  induction amounts generalizing total with
  | nil => exact h
  | cons a amounts ih => exact ih (signed_add h a)

end Signs

/-- On amounts of the database, money is added, subtracted and multiplied
exactly. A sum of up to ten quintillion amounts is exact and is the same money
in any order. -/
theorem column_arithmetic_exact :
    (∀ a b : Money, InColumn a → InColumn b → (a.add b).value = a.value + b.value ∧
      (a.sub b).value = a.value - b.value ∧ (a.mul b).value = a.value * b.value) ∧
    ∀ amounts : List Money, amounts.length ≤ 10 ^ 19 → (∀ a ∈ amounts, InColumn a) →
      (amounts.foldl Money.add Money.zero).value = (amounts.map Money.value).sum ∧
      ∀ other : List Money, other.Perm amounts →
        other.foldl Money.add Money.zero = amounts.foldl Money.add Money.zero := by
  refine ⟨fun a b ha hb => ⟨add_exact ha hb, sub_exact ha hb, mul_exact ha hb⟩, fun amounts hlength hamounts =>
    ⟨foldl_zero_exact hlength hamounts, fun other hperm => ?_⟩⟩
  have hother := foldl_zero_exact (hperm.length_eq ▸ hlength) fun a ha => hamounts a (hperm.mem_iff.mp ha)
  refine (signed_foldl other signed_zero).eq (signed_foldl amounts signed_zero) ?_
  rw [hother, foldl_zero_exact hlength hamounts]
  exact (hperm.map Money.value).sum_eq

/-- The largest column value squared has all forty digits, and three amounts
add up alike backwards. -/
theorem column_arithmetic_exact_largest :
    (Money.mul ⟨false, 99999999999999999999, 4, by decide⟩ ⟨false, 99999999999999999999, 4, by decide⟩).value =
      9999999999999999.9999 * 9999999999999999.9999 ∧
    [Money.ofNat 3, Money.ofNat 2, Money.ofNat 1].foldl Money.add Money.zero =
      [Money.ofNat 1, Money.ofNat 2, Money.ofNat 3].foldl Money.add Money.zero := by
  have hlargest : InColumn ⟨false, 99999999999999999999, 4, by decide⟩ :=
    ⟨⟨99999999999999999999, by decide⟩, by norm_num [Money.value, litValue, Numeric.value]⟩
  have hsmall : ∀ n ∈ [1, 2, 3], InColumn (Money.ofNat n) := by
    intro n hn
    have hbound : n ≤ 3 := by
      simp only [List.mem_cons, List.not_mem_nil, or_false] at hn
      omega
    refine ⟨⟨(n : ℤ) * 10000, by omega⟩, ?_⟩
    simp [Money.value, Money.ofNat, litValue, Numeric.value]
  have hproduct := (column_arithmetic_exact.1 _ _ hlargest hlargest).2.2
  have hsum := (column_arithmetic_exact.2 [Money.ofNat 1, Money.ofNat 2, Money.ofNat 3] (by decide) (by
    simpa using hsmall)).2 [Money.ofNat 3, Money.ofNat 2, Money.ofNat 1] (by decide)
  refine ⟨hproduct.trans ?_, hsum⟩
  norm_num [Money.value, litValue]

end LpPlatform.MoneyArithmetic
