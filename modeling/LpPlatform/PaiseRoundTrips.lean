import LpPlatform.DecimalExpressions
import LpPlatform.MoneyArithmetic

/-!
# Paise

Money is made of an integer number of paise by a division by one hundred and
turned back by a multiplication, both to forty significant digits, and a
rounding half to even. An integer of at most forty digits comes back as its
canonical text, whatever form it was given in, and an amount of a database
column comes back rounded to two decimals.
-/

namespace LpPlatform.PaiseRoundTrips

open Amounts DecimalExpressions DecimalRounding DecimalText JsValues MoneyArithmetic MoneyText
open RegularTexts
open RegularExpression (char)

/-- What `Money.fromPaise` is given. -/
inductive Paise where
  /-- An integer of any size. -/
  | bigint (p : ℤ)
  /-- A number, which may have a fraction. -/
  | number (n : JsNumber)
  /-- A text. -/
  | text (s : String)

/-- `/^-?\d+$/`. -/
def integerRe : RegularExpression Char := atMostOne (char '-') * many digit

/-- Money of the text `100`. -/
def hundred : Money := Money.ofNat 100

example : Money.new "100" = .ok hundred := by decide +kernel

/-- `Money.fromPaise`. -/
def fromPaise : Paise → Except Failure Money
  | .bigint p => (Money.new (toString p)).bind fun m => m.div hundred
  | .number n =>
    if n.value.den = 1 then (Money.ofJson (some (.num n))).bind fun m => m.div hundred
    else .error (.typeError s!"Money.fromPaise: expected integer, got {n.text}")
  | .text s =>
    if integerRe.rmatch s.toList then (Money.new s).bind fun m => m.div hundred
    else .error (.typeError s!"Money.fromPaise: expected integer string, got {quote s}")

/-- `Money.toPaise`. -/
def toPaise (m : Money) : String := ((m.mul hundred).round 0).toString

/-- The integer that is given as a bigint or as a decimal text. -/
inductive Denotes : Paise → ℤ → Prop where
  | bigint (p : ℤ) : Denotes (.bigint p) p
  | text (s : String) (p : ℤ) (hs : s.toList ∈ integerRe.matches') (hp : denoted s = p) : Denotes (.text s) p

section Texts

theorem mem_integerRe {cs : List Char} : cs ∈ integerRe.matches' ↔
    ∃ negative digits, digits ≠ [] ∧ (∀ c ∈ digits, c.isDigit = true) ∧ cs = signedText negative digits := by
  rw [integerRe, mem_mul]
  constructor
  · rintro ⟨sign, hsign, digits, hdigits, rfl⟩
    obtain ⟨hne, hall⟩ := mem_many_digit.mp hdigits
    rcases mem_atMostOne.mp hsign with rfl | rfl
    · exact ⟨false, digits, hne, hall, rfl⟩
    · exact ⟨true, digits, hne, hall, rfl⟩
  · rintro ⟨negative, digits, hne, hall, rfl⟩
    have hmem := mem_many_digit.mpr ⟨hne, hall⟩
    cases negative with
    | true => exact ⟨['-'], mem_atMostOne.mpr (Or.inr rfl), digits, hmem, rfl⟩
    | false => exact ⟨[], mem_atMostOne.mpr (Or.inl rfl), digits, hmem, rfl⟩

/-- A literal without a point has no scale. -/
theorem literal?_integer {cs : List Char} (h : cs ∈ integerRe.matches') : ∃ l, literal? cs = some l ∧ l.scale = 0 := by
  obtain ⟨negative, digits, hne, hall, rfl⟩ := mem_integerRe.mp h
  have hpoint : digits.dropWhile (· ≠ '.') = [] :=
    List.dropWhile_eq_nil_iff.mpr fun c hc => ne_point_of_isDigit (hall c hc)
  obtain ⟨n, hn⟩ := Option.isSome_iff_exists.mp ((isSome_digits? digits).mpr ⟨hne, hall⟩)
  have hread : ∀ sign, unsigned? sign digits = some ⟨sign, n, 0⟩ := by
    intro sign
    simp only [unsigned?, hpoint, hn, Option.map_some]
  cases negative with
  | true => exact ⟨_, hread true, rfl⟩
  | false =>
    obtain ⟨c, rest, rfl⟩ := List.exists_cons_of_ne_nil hne
    have hdash : c ≠ '-' := fun hc => by
      have hdigit := hall c List.mem_cons_self
      simp [hc] at hdigit
    refine ⟨⟨false, n, 0⟩, ?_, rfl⟩
    rw [signedText, if_neg Bool.false_ne_true, literal?.eq_2 _ fun _ heq => hdash (List.cons.inj heq).1]
    exact hread false

/-- Money of an integer text is an integer. -/
theorem new_integer {s : String} (h : s.toList ∈ integerRe.matches') : ∃ m, Money.new s = .ok m ∧ m.scale = 0 := by
  obtain ⟨l, hl, hscale⟩ := literal?_integer h
  exact ⟨_, new_of_literal hl, Nat.eq_zero_of_le_zero (hscale ▸ scale_ofLiteral l)⟩

/-- The text of an integer. -/
theorem toList_toString (p : ℤ) : (toString p).toList = Literal.fixed ⟨decide (p < 0), p.natAbs, 0⟩ := by
  have hunsigned : ∀ n, unsignedText n 0 = Nat.toDigits 10 n := fun n => by simp [unsignedText]
  rw [Int.toString_eq_repr, Int.repr_eq_if, Literal.fixed, hunsigned]
  by_cases hneg : p < 0
  · have hnat : (-p).toNat = p.natAbs := by omega
    simp [hneg, hnat, not_le.mpr hneg]
  · have hnat : p.toNat = p.natAbs := by omega
    simp [hneg, hnat, not_lt.mp hneg]

theorem toString_mem (p : ℤ) : (toString p).toList ∈ integerRe.matches' := by
  refine mem_integerRe.mpr ⟨decide (p < 0), Nat.toDigits 10 p.natAbs, by simp, ?_, ?_⟩
  · exact fun c hc => Nat.isDigit_of_mem_toDigits (by decide) (by decide) hc
  · rw [toList_toString, Literal.fixed, signedText]
    by_cases hneg : p < 0 <;> simp [hneg, unsignedText]

/-- An integer as a literal. -/
theorem litValue_integer (p : ℤ) : litValue ⟨decide (p < 0), p.natAbs, 0⟩ = p := by
  have hsigned : (signed (decide (p < 0)) p.natAbs : ℚ) = p := by rw [signed_natAbs]
  rw [← hsigned, litValue, signed]
  by_cases hneg : p < 0 <;> simp [hneg]

theorem denoted_toString (p : ℤ) : denoted (toString p) = p := by
  have hliteral : literal? (toString p).toList = some ⟨decide (p < 0), p.natAbs, 0⟩ := by
    rw [toList_toString, literal?_fixed]
  rw [← new_denoted (new_of_literal hliteral), litValue_ofLiteral, litValue_integer]

/-- A bigint is given as its text. -/
theorem fromPaise_bigint (p : ℤ) : fromPaise (.bigint p) = fromPaise (.text (toString p)) := by
  have hmatch : integerRe.rmatch (toString p).toList = true :=
    (RegularExpression.rmatch_iff_matches' _ _).mpr (toString_mem p)
  rw [fromPaise, fromPaise, if_pos hmatch]

/-- Money of an integer value prints as the integer. -/
theorem toString_integer {m : Money} {p : ℤ} (h : m.value = p) : m.toString = toString p := by
  have hsame := (toString_eq_iff m ⟨decide (p < 0), p.natAbs, 0, Or.inl rfl⟩).mpr (h.trans (litValue_integer p).symm)
  have hsign : Money.isNegative ⟨decide (p < 0), p.natAbs, 0, Or.inl rfl⟩ = decide (p < 0) := by
    rw [Bool.eq_iff_iff, Money.isNegative, Money.isZero]
    by_cases hneg : p < 0
    · have hzero : p ≠ 0 := by omega
      simp [hneg, hzero]
    · simp [hneg]
  rw [hsame, Money.toString, hsign, ← toList_toString, String.ofList_toList]

end Texts

section Hundredths

theorem hundred_value : hundred.value = 100 := by norm_num [hundred, Money.ofNat, Money.value, litValue]

/-- A number of paise is divided as the threshold of an approval is. -/
theorem fromPaise_number {n : JsNumber} {paise : ℕ} (h : n.value = paise) :
    fromPaise (.number n) = Money.fromPaise paise := by
  have hmoney : Money.ofJson (some (.num n)) = .ok (Money.ofNat paise) := by
    have hsign : ¬ (paise : ℚ) < 0 := not_lt.mpr (Nat.cast_nonneg paise)
    simp [Money.ofJson, h, ofLiteral, stripZeros, Money.ofNat, hsign]
  rw [fromPaise, if_pos (by rw [h, Rat.den_natCast]), hmoney]
  rfl

/-- An integer of at most forty digits is divided by one hundred exactly. -/
theorem div_hundred {m : Money} (hscale : m.scale = 0) (hshort : m.coefficient < 10 ^ 40) :
    ∃ r, m.div hundred = .ok r ∧ r.value = m.value / 100 := by
  obtain ⟨negative, n, scale, hnormal⟩ := m
  obtain rfl : scale = 0 := hscale
  obtain ⟨t, ht, hvalue⟩ := fromPaise_value hshort
  have hpositive : Money.value ⟨false, n, 0, hnormal⟩ = n := by simp [Money.value, litValue]
  cases negative with
  | false => exact ⟨t, ht, by rw [hvalue, hpositive]⟩
  | true =>
    have hnegative : Money.value ⟨true, n, 0, hnormal⟩ = -n := by simp [Money.value, litValue]
    have hne : (Money.ofNat 100).coefficient ≠ 0 := by decide
    rw [Money.fromPaise, Money.div, if_neg hne] at ht
    rw [Money.div, hundred, if_neg hne]
    refine ⟨_, rfl, (roundDigits_negative _ _ _).trans ?_⟩
    rw [hnegative, neg_div, ← hvalue, ← Except.ok.inj ht]
    rfl

/-- An integer number of paise comes back as its canonical text. -/
theorem toPaise_hundredth {m : Money} {p : ℤ} (hvalue : m.value = (p : ℚ) / 100) (hp : |p| < 10 ^ 40) :
    toPaise m = toString p := by
  refine toString_integer ?_
  have hunits : significant 40 ((p : ℚ) * 10 ^ (0 : ℤ)) = p * 10 ^ (0 : ℤ) := significant_units 0 hp
  rw [zpow_zero, mul_one] at hunits
  have hproduct : (m.mul hundred).value = p := by
    rw [mul_significant, hvalue, hundred_value, div_mul_cancel₀ _ (by norm_num), hunits]
  rw [round_value, hproduct, roundTo, pow_zero, mul_one, div_one, halfEven_intCast]

/-- What is given denotes an integer of at most forty digits: money of it is
the hundredth part, exactly. -/
theorem fromPaise_denotes {paise : Paise} {p : ℤ} (h : Denotes paise p) (hp : |p| < 10 ^ 40) :
    ∃ m, fromPaise paise = .ok m ∧ m.value = (p : ℚ) / 100 := by
  have htext : ∀ s : String, s.toList ∈ integerRe.matches' → denoted s = p →
      ∃ m, fromPaise (.text s) = .ok m ∧ m.value = (p : ℚ) / 100 := by
    intro s hs hdenoted
    obtain ⟨n, hnew, hscale⟩ := new_integer hs
    have hn : n.value = p := (new_denoted hnew).trans hdenoted
    have hshort : n.coefficient < 10 ^ 40 := by
      have habs := value_natAbs n
      rw [hn, hscale, pow_zero, div_one, ← Int.cast_abs] at habs
      have hcast : |p| = n.coefficient := by exact_mod_cast habs
      omega
    obtain ⟨m, hm, hvalue⟩ := div_hundred hscale hshort
    have hmatch : integerRe.rmatch s.toList = true := (RegularExpression.rmatch_iff_matches' _ _).mpr hs
    refine ⟨m, ?_, by rw [hvalue, hn]⟩
    rw [fromPaise, if_pos hmatch, hnew]
    exact hm
  cases h with
  | bigint => exact fromPaise_bigint p ▸ htext (toString p) (toString_mem p) (denoted_toString p)
  | text s _ hs hdenoted => exact htext s hs hdenoted

/-- An amount of a column in whole paise. -/
theorem toPaise_inColumn {m : Money} (h : InColumn m) : toPaise m = toString (halfEven (m.value * 100)) := by
  have hhundred : InColumn hundred := ⟨⟨1000000, by decide⟩, by norm_num [hundred_value, Numeric.value]⟩
  refine toString_integer ?_
  rw [round_value, mul_exact h hhundred, hundred_value, roundTo, pow_zero, mul_one, div_one]

/-- Half a paisa is the most that the rounding adds. -/
theorem abs_paise_lt {m : Money} (h : InColumn m) : |halfEven (m.value * 100)| < 10 ^ 40 := by
  obtain ⟨x, hx⟩ := h
  have hunits : (|x.units| : ℚ) < 10 ^ 20 := by exact_mod_cast abs_units_lt x
  have hclose := abs_halfEven_sub_le (m.value * 100)
  have hvalue : |m.value * 100| < 10 ^ 20 := by
    rw [hx, Numeric.value, abs_mul, abs_div]
    norm_num
    linarith
  have hcast : |((halfEven (m.value * 100) : ℤ) : ℚ)| < 10 ^ 40 := by
    have htriangle := abs_sub_abs_le_abs_sub ((halfEven (m.value * 100) : ℤ) : ℚ) (m.value * 100)
    norm_num at hclose ⊢
    linarith
  exact_mod_cast hcast

end Hundredths

/-- An integer of at most forty digits that is turned into money comes back as
its canonical text. An amount of a column that is turned into paise comes back
rounded half to even to two decimals. -/
theorem paise_round_trip :
    (∀ (p : ℤ) (paise : Paise), |p| < 10 ^ 40 → Denotes paise p →
      ∃ m, fromPaise paise = .ok m ∧ toPaise m = toString p) ∧
    ∀ m, InColumn m → ∃ r, fromPaise (.text (toPaise m)) = .ok r ∧ r.value = roundTo 2 m.value := by
  constructor
  · intro p paise hp hdenotes
    obtain ⟨m, hm, hvalue⟩ := fromPaise_denotes hdenotes hp
    exact ⟨m, hm, toPaise_hundredth hvalue hp⟩
  · intro m h
    have hdenotes := Denotes.text (toPaise m) (halfEven (m.value * 100))
      (by rw [toPaise_inColumn h]; exact toString_mem _) (by rw [toPaise_inColumn h]; exact denoted_toString _)
    obtain ⟨r, hr, hvalue⟩ := fromPaise_denotes hdenotes (abs_paise_lt h)
    refine ⟨r, hr, hvalue.trans ?_⟩
    norm_num [roundTo]

/-- Fifty-one hundredths of a paisa below zero, and an integer with leading
zeros. -/
theorem paise_round_trip_negative :
    (∃ m, fromPaise (.text "-007") = .ok m ∧ toPaise m = toString (-7 : ℤ)) ∧
    ∃ r, fromPaise (.text (toPaise ⟨true, 51, 4, by decide⟩)) = .ok r ∧ r.value = -1 / 100 := by
  have htext : Denotes (.text "-007") (-7) := by
    have hdigits : "007".toList.all Char.isDigit = true := by decide
    refine Denotes.text _ _ (mem_integerRe.mpr ⟨true, _, by decide, List.all_eq_true.mp hdigits, by decide⟩) ?_
    decide +kernel
  have hcolumn : InColumn ⟨true, 51, 4, by decide⟩ :=
    ⟨⟨-51, by decide⟩, by norm_num [Money.value, litValue, Numeric.value]⟩
  obtain ⟨r, hr, hvalue⟩ := paise_round_trip.2 _ hcolumn
  refine ⟨paise_round_trip.1 (-7) _ (by norm_num) htext, r, hr, hvalue.trans ?_⟩
  decide +kernel

end LpPlatform.PaiseRoundTrips
