import LpPlatform.Amounts

/-!
# The text of money

Money prints in lowest terms and without the sign of zero, so two decimal
texts print alike exactly when they denote the same rational, in positional
notation. The printed text is a numeral without an exponent or superfluous
zeros, and reading it and printing again changes nothing.
-/

namespace LpPlatform.MoneyText

open Amounts DecimalText JsValues

/-- What digits before the point denote. -/
def wholeValue (cs : List Char) : ℚ := cs.foldl (fun n c => 10 * n + (c.toNat - 48 : ℕ)) 0

/-- What digits after the point denote. -/
def fractionValue : List Char → ℚ
  | [] => 0
  | c :: cs => ((c.toNat - 48 : ℕ) + fractionValue cs) / 10

/-- What digits around a point denote. -/
def unsignedValue (cs : List Char) : ℚ :=
  wholeValue (cs.takeWhile (· ≠ '.')) + fractionValue ((cs.dropWhile (· ≠ '.')).drop 1)

/-- What a numeral denotes. -/
def numeralValue : List Char → ℚ
  | '-' :: cs => -unsignedValue cs
  | cs => unsignedValue cs

/-- The rational that a decimal text denotes, with white space around it. -/
def denoted (text : String) : ℚ := numeralValue (trim text.toList)

/-- A numeral in digits only, with no superfluous zero and no sign on zero. -/
structure Canonical (text : List Char) (negative : Bool) (whole fraction : List Char) : Prop where
  parts : text = (if negative then ['-'] else []) ++ whole ++ (if fraction = [] then [] else '.' :: fraction)
  whole_digits : whole ≠ [] ∧ ∀ c ∈ whole, c.isDigit = true
  fraction_digits : ∀ c ∈ fraction, c.isDigit = true
  leading : whole.head? = some '0' → whole = ['0']
  trailing : fraction.getLast? ≠ some '0'
  sign : negative = true → ∃ c ∈ whole ++ fraction, c ≠ '0'

section Denotation

/-- Digits read as a natural number are what they denote. -/
theorem wholeValue_ofDigitChars (cs : List Char) : wholeValue cs = (Nat.ofDigitChars 10 cs 0 : ℚ) := by
  have hfold : ∀ n : ℕ, cs.foldl (fun n c => 10 * n + ((c.toNat - 48 : ℕ) : ℚ)) n =
      (Nat.ofDigitChars 10 cs n : ℚ) := by
    induction cs with
    | nil => simp
    | cons c cs ih =>
      intro n
      have hstep := ih (10 * n + (c.toNat - 48))
      have hzero : '0'.toNat = 48 := rfl
      rw [List.foldl_cons, Nat.ofDigitChars_cons, hzero, ← hstep]
      push_cast
      rfl
  simpa [wholeValue] using hfold 0

/-- Digits after the point are a natural number of units of the last place. -/
theorem fractionValue_ofDigitChars (cs : List Char) :
    fractionValue cs = (Nat.ofDigitChars 10 cs 0 : ℚ) / 10 ^ cs.length := by
  induction cs with
  | nil => simp [fractionValue]
  | cons c cs ih =>
    have hzero : '0'.toNat = 48 := rfl
    have hshift : Nat.ofDigitChars 10 cs (c.toNat - 48) =
        10 ^ cs.length * (c.toNat - 48) + Nat.ofDigitChars 10 cs 0 := Nat.ofDigitChars_eq_ofDigitChars_zero
    rw [fractionValue, ih, Nat.ofDigitChars_cons, hzero, Nat.mul_zero, Nat.zero_add, hshift,
      List.length_cons, pow_succ]
    push_cast
    field_simp

theorem digits?_value {cs : List Char} {n : ℕ} (h : digits? cs = some n) : n = Nat.ofDigitChars 10 cs 0 := by
  simp only [digits?, Option.ite_none_right_eq_some] at h
  exact (Option.some.inj h.2).symm

/-- A literal stands for what its digits denote. -/
theorem unsigned?_denoted {negative : Bool} {cs : List Char} {l : Literal}
    (h : unsigned? negative cs = some l) :
    litValue l = if negative then -unsignedValue cs else unsignedValue cs := by
  have hmagnitude : litValue { l with negative := false } = unsignedValue cs ∧ l.negative = negative := by
    unfold unsigned? at h
    split at h
    · rename_i hpoint
      obtain ⟨n, hn, rfl⟩ := Option.map_eq_some_iff.mp h
      have hall : cs.takeWhile (· ≠ '.') = cs := by
        have hsplit : cs.takeWhile (· ≠ '.') ++ cs.dropWhile (· ≠ '.') = cs := List.takeWhile_append_dropWhile
        rwa [hpoint, List.append_nil] at hsplit
      refine ⟨?_, rfl⟩
      rw [unsignedValue, hpoint, hall, wholeValue_ofDigitChars, ← digits?_value hn]
      simp [litValue, fractionValue]
    · rename_i point fraction hpoint
      obtain ⟨whole, hwhole, hrest⟩ := Option.bind_eq_some_iff.mp h
      obtain ⟨part, hpart, rfl⟩ := Option.map_eq_some_iff.mp hrest
      refine ⟨?_, rfl⟩
      rw [unsignedValue, hpoint, List.drop_one, List.tail_cons, wholeValue_ofDigitChars,
        fractionValue_ofDigitChars, ← digits?_value hwhole, ← digits?_value hpart]
      simp only [litValue, Bool.false_eq_true, if_false, one_mul]
      push_cast
      field_simp
  have hsign : litValue l = if l.negative then -litValue { l with negative := false }
      else litValue { l with negative := false } := by
    simp only [litValue, Bool.false_eq_true, if_false]
    split <;> ring
  rw [hsign, hmagnitude.1, hmagnitude.2]

/-- Money of a text has the value that the text denotes. -/
theorem new_denoted {text : String} {m : Money} (h : Money.new text = .ok m) : m.value = denoted text := by
  unfold Money.new at h
  split at h
  · rename_i l hl
    obtain rfl := Except.ok.inj h
    rw [litValue_ofLiteral, denoted]
    unfold literal? at hl
    split at hl
    · rename_i cs hcs
      rw [hcs, numeralValue, unsigned?_denoted hl, if_pos rfl]
    · rename_i cs hdash
      rw [unsigned?_denoted hl, if_neg Bool.false_ne_true, numeralValue]
      exact hdash
  · simp at h

end Denotation

section LowestTerms

/-- Lowest terms are unique. -/
theorem normal_unique {c s c' s' : ℕ} (hnormal : s = 0 ∨ c % 10 ≠ 0) (hnormal' : s' = 0 ∨ c' % 10 ≠ 0)
    (h : c * 10 ^ s' = c' * 10 ^ s) : c = c' ∧ s = s' := by
  wlog hle : s ≤ s' with hswap
  · have hother := hswap hnormal' hnormal h.symm (by omega)
    exact ⟨hother.1.symm, hother.2.symm⟩
  have hsplit : 10 ^ s' = 10 ^ (s' - s) * 10 ^ s := by rw [← pow_add, Nat.sub_add_cancel hle]
  rw [hsplit, ← Nat.mul_assoc] at h
  have hscaled : c * 10 ^ (s' - s) = c' := Nat.eq_of_mul_eq_mul_right (Nat.pow_pos (by decide)) h
  rcases Nat.eq_zero_or_pos (s' - s) with hzero | hpos
  · rw [hzero, pow_zero, Nat.mul_one] at hscaled
    exact ⟨hscaled, by omega⟩
  · -- a larger scale would leave a zero at the end
    obtain ⟨k, hk⟩ : ∃ k, s' - s = k + 1 := ⟨s' - s - 1, by omega⟩
    rw [hk, pow_succ, ← Nat.mul_assoc] at hscaled
    rcases hnormal' with h0 | hlast
    · omega
    · exact absurd (by rw [← hscaled, Nat.mul_mod_left]) hlast

theorem value_natAbs (m : Money) : |m.value| = (m.coefficient : ℚ) / 10 ^ m.scale := by
  have hnonneg : (0 : ℚ) ≤ (m.coefficient : ℚ) / 10 ^ m.scale := by positivity
  rw [Money.value, litValue]
  cases m.negative with
  | false => simpa using abs_of_nonneg hnonneg
  | true =>
    simp only [if_true]
    rw [neg_one_mul, neg_div, abs_neg, abs_of_nonneg hnonneg]

theorem isNegative_iff (m : Money) : m.isNegative = true ↔ m.value < 0 := by
  have hpow : (0 : ℚ) < 10 ^ m.scale := by positivity
  rw [← litValue_isNegative, litValue]
  cases hneg : m.isNegative with
  | true =>
    have hc : (0 : ℚ) < m.coefficient := by
      have hzero : m.coefficient ≠ 0 := by
        simp only [Money.isNegative, Money.isZero, Bool.and_eq_true, Bool.not_eq_true',
          decide_eq_false_iff_not] at hneg
        exact hneg.2
      exact_mod_cast Nat.pos_of_ne_zero hzero
    refine iff_of_true rfl (div_neg_of_neg_of_pos ?_ hpow)
    simpa using hc
  | false =>
    refine iff_of_false Bool.false_ne_true (not_lt.mpr ?_)
    simp only [Bool.false_eq_true, if_false, one_mul]
    positivity

/-- Money of one value is in the same lowest terms. -/
theorem value_parts {m n : Money} (h : m.value = n.value) :
    m.isNegative = n.isNegative ∧ m.coefficient = n.coefficient ∧ m.scale = n.scale := by
  have hsign : m.isNegative = n.isNegative := by
    rw [Bool.eq_iff_iff, isNegative_iff, isNegative_iff, h]
  have hmagnitude : (m.coefficient : ℚ) / 10 ^ m.scale = n.coefficient / 10 ^ n.scale := by
    rw [← value_natAbs, ← value_natAbs, h]
  have hcross : m.coefficient * 10 ^ n.scale = n.coefficient * 10 ^ m.scale := by
    rw [div_eq_div_iff (by positivity) (by positivity)] at hmagnitude
    exact_mod_cast hmagnitude
  exact ⟨hsign, normal_unique m.normal n.normal hcross⟩

/-- Money prints alike exactly when it has one value. -/
theorem toString_eq_iff (m n : Money) : m.toString = n.toString ↔ m.value = n.value := by
  constructor
  · intro h
    have hfixed := fixed_injective (String.ofList_injective h)
    rw [← litValue_isNegative m, ← litValue_isNegative n, hfixed]
  · intro h
    obtain ⟨hsign, hcoefficient, hscale⟩ := value_parts h
    rw [Money.toString, Money.toString, hsign, hcoefficient, hscale]

/-- What is printed is read back in the same lowest terms. -/
theorem new_toString_parts (m : Money) :
    Money.new m.toString = .ok ⟨m.isNegative, m.coefficient, m.scale, m.normal⟩ := by
  have hstrip : stripZeros m.coefficient m.scale = (m.coefficient, m.scale) := by
    cases hs : m.scale with
    | zero => rfl
    | succ s =>
      have hlast : m.coefficient % 10 ≠ 0 := m.normal.resolve_left (by omega)
      rw [stripZeros, if_neg hlast]
  rw [new_of_literal (literal?_toString m)]
  simp only [ofLiteral, hstrip]

end LowestTerms

section Shape

/-- The last digit of a number. -/
theorem getLast_padded (width n : ℕ) : (padded width n).getLast? = some (n % 10).digitChar := by
  have hlast : (Nat.toDigits 10 n).getLast? = some (n % 10).digitChar := by
    by_cases hsmall : n < 10
    · rw [Nat.toDigits_of_lt_base hsmall, Nat.mod_eq_of_lt hsmall]
      rfl
    · rw [Nat.toDigits_of_base_le (by decide) (by omega), List.getLast?_append]
      rfl
  rw [padded, List.getLast?_append, hlast]
  rfl

theorem digitChar_ne_zero {d : ℕ} (h : d ≠ 0) (hd : d < 10) : d.digitChar ≠ '0' := by
  revert h
  revert d
  decide

/-- A positive number has a digit that is not zero. -/
theorem exists_digit {n : ℕ} (h : n ≠ 0) : ∃ c ∈ Nat.toDigits 10 n, c ≠ '0' := by
  obtain ⟨c, cs, hcs, hne⟩ := head_toDigits (Nat.pos_of_ne_zero h)
  exact ⟨c, by rw [hcs]; exact List.mem_cons_self, hne⟩

/-- The printed digits are a canonical numeral. -/
theorem canonical_toString (m : Money) : ∃ whole fraction,
    Canonical m.toString.toList m.isNegative whole fraction := by
  have hpow : 0 < 10 ^ m.scale := Nat.pow_pos (by decide)
  have hwhole : Nat.toDigits 10 (m.coefficient / 10 ^ m.scale) ≠ [] := by simp
  have hlead : ∀ n, (Nat.toDigits 10 n).head? = some '0' → Nat.toDigits 10 n = ['0'] := by
    intro n hn
    rcases Nat.eq_zero_or_pos n with rfl | hpos
    · rfl
    · obtain ⟨c, cs, hcs, hne⟩ := head_toDigits hpos
      rw [hcs] at hn
      exact absurd (Option.some.inj hn) hne
  have hdigits : ∀ n, ∀ c ∈ Nat.toDigits 10 n, c.isDigit = true :=
    fun n c hc => Nat.isDigit_of_mem_toDigits (by decide) (by decide) hc
  have hnonzero : m.isNegative = true → m.coefficient ≠ 0 := by
    intro h
    simp only [Money.isNegative, Money.isZero, Bool.and_eq_true, Bool.not_eq_true',
      decide_eq_false_iff_not] at h
    exact h.2
  refine ⟨Nat.toDigits 10 (m.coefficient / 10 ^ m.scale),
    if m.scale = 0 then [] else padded m.scale (m.coefficient % 10 ^ m.scale), ?_⟩
  by_cases hs : m.scale = 0
  · refine ⟨?_, ⟨hwhole, hdigits _⟩, by simp [hs], hlead _, by simp [hs], fun hneg => ?_⟩
    · simp [Money.toString, Literal.fixed, unsignedText, hs]
    · have hdigit := exists_digit (hnonzero hneg)
      simpa [hs] using hdigit
  · have hpadded := padded_ne_nil m.scale (m.coefficient % 10 ^ m.scale)
    rw [if_neg hs]
    refine ⟨?_, ⟨hwhole, hdigits _⟩, List.all_eq_true.mp (isDigit_padded _ _), hlead _, ?_, fun hneg => ?_⟩
    · simp [Money.toString, Literal.fixed, unsignedText, hs, hpadded]
    · rw [getLast_padded]
      intro hlast
      have hmod : m.coefficient % 10 ^ m.scale % 10 = m.coefficient % 10 :=
        Nat.mod_mod_of_dvd _ (dvd_pow_self 10 hs)
      rw [hmod] at hlast
      exact digitChar_ne_zero (m.normal.resolve_left hs) (Nat.mod_lt _ (by decide)) (Option.some.inj hlast)
    · have hsplit := Nat.div_add_mod m.coefficient (10 ^ m.scale)
      rcases Nat.eq_zero_or_pos (m.coefficient / 10 ^ m.scale) with hzero | hpos
      · have hrest : m.coefficient % 10 ^ m.scale ≠ 0 := by
          intro hmod
          rw [hzero, hmod] at hsplit
          exact hnonzero hneg (by omega)
        obtain ⟨c, hc, hne⟩ := List.any_eq_true.mp ((any_padded m.scale _).mpr hrest)
        exact ⟨c, List.mem_append_right _ hc, by simpa using hne⟩
      · obtain ⟨c, hc, hne⟩ := exists_digit hpos.ne'
        exact ⟨c, List.mem_append_left _ hc, hne⟩

end Shape

/-- Two texts that money is made of print alike exactly when they denote the
same rational. What is printed is a canonical numeral of it, and printing what
is read back from it changes nothing. -/
theorem money_text_canonical {s t : String} {m n : Money} (hs : Money.new s = .ok m)
    (ht : Money.new t = .ok n) :
    (m.toString = n.toString ↔ denoted s = denoted t) ∧
    (∃ whole fraction, Canonical m.toString.toList (decide (denoted s < 0)) whole fraction) ∧
    denoted m.toString = denoted s ∧
    ∃ m', Money.new m.toString = .ok m' ∧ m'.toString = m.toString := by
  have hsign : m.isNegative = decide (denoted s < 0) := by
    rw [Bool.eq_iff_iff, isNegative_iff, decide_eq_true_iff, new_denoted hs]
  have hread := new_toString_parts m
  refine ⟨?_, hsign ▸ canonical_toString m, ?_, _, hread, ?_⟩
  · rw [toString_eq_iff, new_denoted hs, new_denoted ht]
  · rw [← new_denoted hread, ← new_denoted hs]
    exact litValue_isNegative m
  · rw [toString_eq_iff]
    exact litValue_isNegative m

/-- Zero with a sign and padding prints as zero without. -/
theorem money_text_canonical_zero :
    (("0" : String) = "0" ↔ denoted " -0.00" = denoted "000") ∧
    (∃ whole fraction, Canonical ['0'] (decide (denoted " -0.00" < 0)) whole fraction) ∧
    denoted "0" = denoted " -0.00" ∧ ∃ m', Money.new "0" = .ok m' ∧ m'.toString = "0" :=
  @money_text_canonical " -0.00" "000" ⟨true, 0, 0, Or.inl rfl⟩ ⟨false, 0, 0, Or.inl rfl⟩ (by decide +kernel)
    (by decide +kernel)

end LpPlatform.MoneyText
