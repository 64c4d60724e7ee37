import LpPlatform.MoneyText
import LpPlatform.RegularTexts

/-!
# Decimal expressions

The regular expression of a decimal text, as the constructor of money checks
it, and the reader of literals accept the same texts: a sign, digits and
perhaps a point with more digits. What such a text denotes is the value of its
digits, and it is positive exactly when it has no sign and some digit is not
zero.
-/

namespace LpPlatform.DecimalExpressions

open DecimalText MoneyText RegularTexts
open RegularExpression (char)

/-- The letters of `\d`. -/
def digits : List Char := ['0', '1', '2', '3', '4', '5', '6', '7', '8', '9']

/-- `\d`. -/
def digit : RegularExpression Char := oneOf digits

/-- `(\.\d+)?`. -/
def fractionRe : RegularExpression Char := atMostOne (char '.' * many digit)

/-- `DECIMAL_RE`, which is also the expression in the constructor of `Money`. -/
def decimalRe : RegularExpression Char := atMostOne (char '-') * (many digit * fractionRe)

/-- A fraction behind its point; an empty one has no point. -/
def pointed (fraction : List Char) : List Char := if fraction = [] then [] else '.' :: fraction

/-- A sign in front. -/
def signedText (negative : Bool) (cs : List Char) : List Char := if negative then '-' :: cs else cs

/-- Digits before and after the point. -/
structure Parts (whole fraction : List Char) : Prop where
  whole_ne : whole ≠ []
  whole_digits : ∀ c ∈ whole, c.isDigit = true
  fraction_digits : ∀ c ∈ fraction, c.isDigit = true

section Digits

theorem mem_digits {c : Char} : c ∈ digits ↔ c.isDigit = true := by
  constructor
  · intro h
    have hall : digits.all Char.isDigit = true := by decide
    exact List.all_eq_true.mp hall c h
  · intro h
    have hrange : 48 ≤ c.toNat ∧ c.toNat ≤ 57 := by
      simp only [Char.isDigit, Bool.and_eq_true, decide_eq_true_eq] at h
      exact ⟨h.1, h.2⟩
    have hchar : ∀ n, 48 ≤ n → n ≤ 57 → Char.ofNat n ∈ digits := by
      intro n hlow hhigh
      have hsplit : n ∈ List.range' 48 10 := List.mem_range'_1.mpr ⟨hlow, by omega⟩
      have hall : ∀ n ∈ List.range' 48 10, Char.ofNat n ∈ digits := by decide
      exact hall n hsplit
    rw [← Char.ofNat_toNat c]
    exact hchar _ hrange.1 hrange.2

theorem isSome_digits? (cs : List Char) : (digits? cs).isSome = true ↔ cs ≠ [] ∧ ∀ c ∈ cs, c.isDigit = true := by
  unfold digits?
  split
  · rename_i h
    simpa using h
  · rename_i h
    simpa using h

theorem takeWhile_pointed {whole : List Char} (h : ∀ c ∈ whole, c.isDigit = true) (fraction : List Char) :
    (whole ++ pointed fraction).takeWhile (· ≠ '.') = whole := by
  rw [List.takeWhile_append_of_pos fun c hc => ne_point_of_isDigit (h c hc), pointed]
  split <;> simp

theorem dropWhile_pointed {whole : List Char} (h : ∀ c ∈ whole, c.isDigit = true) (fraction : List Char) :
    (whole ++ pointed fraction).dropWhile (· ≠ '.') = pointed fraction := by
  rw [List.dropWhile_append_of_pos fun c hc => ne_point_of_isDigit (h c hc), pointed]
  split <;> simp

theorem drop_pointed (fraction : List Char) : (pointed fraction).drop 1 = fraction := by
  rw [pointed]
  split
  · rename_i hnil
    rw [hnil, List.drop_nil]
  · rfl

/-- A literal without a sign is digits around a point. -/
theorem isSome_unsigned? (negative : Bool) (cs : List Char) : (unsigned? negative cs).isSome = true ↔
    ∃ whole fraction, Parts whole fraction ∧ cs = whole ++ pointed fraction := by
  have hsplit : cs.takeWhile (· ≠ '.') ++ cs.dropWhile (· ≠ '.') = cs := List.takeWhile_append_dropWhile
  constructor
  · intro h
    unfold unsigned? at h
    split at h
    · rw [Option.isSome_map, isSome_digits?] at h
      exact ⟨cs, [], ⟨h.1, h.2, List.forall_mem_nil _⟩, (List.append_nil cs).symm⟩
    · rename_i point fraction hpoint
      obtain ⟨l, hl⟩ := Option.isSome_iff_exists.mp h
      obtain ⟨whole, hwhole, hrest⟩ := Option.bind_eq_some_iff.mp hl
      obtain ⟨part, hpart, -⟩ := Option.map_eq_some_iff.mp hrest
      have hfront := (isSome_digits? _).mp (Option.isSome_of_eq_some hwhole)
      have hback := (isSome_digits? _).mp (Option.isSome_of_eq_some hpart)
      have hhead := List.head?_dropWhile_not (p := fun c : Char => decide (c ≠ '.')) (l := cs)
      rw [hpoint] at hhead
      obtain rfl : point = '.' := by simpa using hhead
      refine ⟨_, fraction, ⟨hfront.1, hfront.2, hback.2⟩, ?_⟩
      rw [pointed, if_neg hback.1, ← hpoint, hsplit]
  · rintro ⟨whole, fraction, hparts, rfl⟩
    have hwhole := (isSome_digits? whole).mpr ⟨hparts.whole_ne, hparts.whole_digits⟩
    obtain ⟨n, hn⟩ := Option.isSome_iff_exists.mp hwhole
    simp only [unsigned?, takeWhile_pointed hparts.whole_digits, dropWhile_pointed hparts.whole_digits]
    by_cases hnil : fraction = []
    · rw [hnil, pointed, if_pos rfl, List.append_nil]
      simp [hn]
    · obtain ⟨k, hk⟩ := Option.isSome_iff_exists.mp ((isSome_digits? fraction).mpr ⟨hnil, hparts.fraction_digits⟩)
      rw [pointed, if_neg hnil]
      simp [hn, hk]

end Digits

section Expressions

theorem mem_star_digit {cs : List Char} : cs ∈ digit.star.matches' ↔ ∀ c ∈ cs, c.isDigit = true := by
  simp only [digit, mem_star_oneOf, mem_digits]

theorem mem_many_digit {cs : List Char} :
    cs ∈ (many digit).matches' ↔ cs ≠ [] ∧ ∀ c ∈ cs, c.isDigit = true := by
  simp only [digit, mem_many_oneOf, mem_digits]

/-- A fraction with its point, or neither. -/
theorem mem_fractionRe {cs : List Char} : cs ∈ fractionRe.matches' ↔
    ∃ fraction, (∀ c ∈ fraction, c.isDigit = true) ∧ cs = pointed fraction := by
  rw [fractionRe, mem_atMostOne, mem_char_mul]
  constructor
  · rintro (rfl | ⟨fraction, hfraction, rfl⟩)
    · exact ⟨[], List.forall_mem_nil _, rfl⟩
    · obtain ⟨hne, hdigits⟩ := mem_many_digit.mp hfraction
      exact ⟨fraction, hdigits, (if_neg hne).symm⟩
  · rintro ⟨fraction, hdigits, rfl⟩
    by_cases hnil : fraction = []
    · exact Or.inl (if_pos hnil)
    · exact Or.inr ⟨fraction, mem_many_digit.mpr ⟨hnil, hdigits⟩, if_neg hnil⟩

/-- The literals of the constructor are the texts of its expression. -/
theorem isSome_literal? (cs : List Char) : (literal? cs).isSome = true ↔
    ∃ negative whole fraction, Parts whole fraction ∧ cs = signedText negative (whole ++ pointed fraction) := by
  unfold literal?
  split
  · rename_i cs
    rw [isSome_unsigned?]
    constructor
    · rintro ⟨whole, fraction, hparts, rfl⟩
      exact ⟨true, whole, fraction, hparts, rfl⟩
    · rintro ⟨negative, whole, fraction, hparts, heq⟩
      cases negative with
      | true => exact ⟨whole, fraction, hparts, (List.cons.inj heq).2⟩
      | false =>
        obtain ⟨c, rest, rfl⟩ := List.exists_cons_of_ne_nil hparts.whole_ne
        have hdigit := hparts.whole_digits c List.mem_cons_self
        rw [← (List.cons.inj heq).1] at hdigit
        exact absurd hdigit (by decide)
  · rename_i hdash
    rw [isSome_unsigned?]
    constructor
    · rintro ⟨whole, fraction, hparts, rfl⟩
      exact ⟨false, whole, fraction, hparts, rfl⟩
    · rintro ⟨negative, whole, fraction, hparts, heq⟩
      cases negative with
      | true => exact (hdash _ heq).elim
      | false => exact ⟨whole, fraction, hparts, heq⟩

theorem mem_decimalRe (cs : List Char) : cs ∈ decimalRe.matches' ↔ (literal? cs).isSome = true := by
  have hbody : ∀ body, body ∈ (many digit * fractionRe).matches' ↔
      ∃ whole fraction, Parts whole fraction ∧ body = whole ++ pointed fraction := by
    intro body
    rw [mem_mul]
    constructor
    · rintro ⟨whole, hwhole, back, hback, rfl⟩
      obtain ⟨fraction, hfraction, rfl⟩ := mem_fractionRe.mp hback
      obtain ⟨hne, hdigits⟩ := mem_many_digit.mp hwhole
      exact ⟨whole, fraction, ⟨hne, hdigits, hfraction⟩, rfl⟩
    · rintro ⟨whole, fraction, hparts, rfl⟩
      exact ⟨whole, mem_many_digit.mpr ⟨hparts.whole_ne, hparts.whole_digits⟩, _,
        mem_fractionRe.mpr ⟨fraction, hparts.fraction_digits, rfl⟩, rfl⟩
  rw [isSome_literal?, decimalRe, mem_mul]
  constructor
  · rintro ⟨sign, hsign, body, hmem, rfl⟩
    obtain ⟨whole, fraction, hparts, rfl⟩ := (hbody body).mp hmem
    rcases mem_atMostOne.mp hsign with rfl | rfl
    · exact ⟨false, whole, fraction, hparts, rfl⟩
    · exact ⟨true, whole, fraction, hparts, rfl⟩
  · rintro ⟨negative, whole, fraction, hparts, rfl⟩
    have hmem := (hbody _).mpr ⟨whole, fraction, hparts, rfl⟩
    cases negative with
    | true => exact ⟨['-'], mem_atMostOne.mpr (Or.inr rfl), _, hmem, rfl⟩
    | false => exact ⟨[], mem_atMostOne.mpr (Or.inl rfl), _, hmem, rfl⟩

end Expressions

section Positive

/-- Digits denote zero exactly when each is zero. -/
theorem ofDigitChars_eq_zero {cs : List Char} (h : ∀ c ∈ cs, c.isDigit = true) :
    Nat.ofDigitChars 10 cs 0 = 0 ↔ ∀ c ∈ cs, c = '0' := by
  induction cs with
  | nil => simp
  | cons c cs ih =>
    have hshift : Nat.ofDigitChars 10 cs (c.toNat - 48) =
        10 ^ cs.length * (c.toNat - 48) + Nat.ofDigitChars 10 cs 0 := Nat.ofDigitChars_eq_ofDigitChars_zero
    have hzero : '0'.toNat = 48 := rfl
    have hlow : 48 ≤ c.toNat := by
      have hdigit := h c List.mem_cons_self
      simp only [Char.isDigit, Bool.and_eq_true, decide_eq_true_eq] at hdigit
      exact hdigit.1
    have hchar : c.toNat - 48 = 0 ↔ c = '0' := by
      constructor
      · intro hsub
        have hnat : c.toNat = '0'.toNat := by omega
        exact Char.toNat_inj.mp hnat
      · rintro rfl
        rfl
    rw [Nat.ofDigitChars_cons, hzero, Nat.mul_zero, Nat.zero_add, hshift, Nat.add_eq_zero_iff,
      ih fun d hd => h d (List.mem_cons_of_mem c hd), List.forall_mem_cons, Nat.mul_eq_zero, hchar]
    simp

/-- What digits around a point denote. -/
theorem unsignedValue_parts {whole fraction : List Char} (h : Parts whole fraction) :
    unsignedValue (whole ++ pointed fraction) = wholeValue whole + fractionValue fraction := by
  rw [unsignedValue, takeWhile_pointed h.whole_digits, dropWhile_pointed h.whole_digits, drop_pointed]

theorem unsignedValue_nonneg {whole fraction : List Char} (h : Parts whole fraction) :
    0 ≤ unsignedValue (whole ++ pointed fraction) := by
  rw [unsignedValue_parts h, wholeValue_ofDigitChars, fractionValue_ofDigitChars]
  positivity

/-- They denote more than zero exactly when one of them is not zero. -/
theorem unsignedValue_pos {whole fraction : List Char} (h : Parts whole fraction) :
    0 < unsignedValue (whole ++ pointed fraction) ↔ ∃ c ∈ whole ++ fraction, c ≠ '0' := by
  have hzero : unsignedValue (whole ++ pointed fraction) = 0 ↔ ∀ c ∈ whole ++ fraction, c = '0' := by
    rw [unsignedValue_parts h, wholeValue_ofDigitChars, fractionValue_ofDigitChars, List.forall_mem_append,
      ← ofDigitChars_eq_zero h.whole_digits, ← ofDigitChars_eq_zero h.fraction_digits,
      add_eq_zero_iff_of_nonneg (by positivity) (by positivity), div_eq_zero_iff]
    simp
  have hnonneg := unsignedValue_nonneg h
  rw [lt_iff_le_and_ne, and_iff_right hnonneg, ne_comm, Ne, hzero]
  push Not
  rfl

/-- A sign makes the value of what it stands before negative. -/
theorem numeralValue_signed {whole fraction : List Char} (h : Parts whole fraction) (negative : Bool) :
    numeralValue (signedText negative (whole ++ pointed fraction)) =
      if negative then -unsignedValue (whole ++ pointed fraction)
      else unsignedValue (whole ++ pointed fraction) := by
  cases negative with
  | true => rfl
  | false =>
    obtain ⟨c, rest, rfl⟩ := List.exists_cons_of_ne_nil h.whole_ne
    have hdigit := h.whole_digits c List.mem_cons_self
    have hdash : c ≠ '-' := fun hc => by simp [hc] at hdigit
    simp [signedText, numeralValue, hdash]

theorem numeralValue_pos {whole fraction : List Char} (h : Parts whole fraction) (negative : Bool) :
    0 < numeralValue (signedText negative (whole ++ pointed fraction)) ↔
      negative = false ∧ ∃ c ∈ whole ++ fraction, c ≠ '0' := by
  rw [numeralValue_signed h, ← unsignedValue_pos h]
  have hnonneg := unsignedValue_nonneg h
  cases negative with
  | true => simpa using hnonneg
  | false => simp

end Positive

end LpPlatform.DecimalExpressions
