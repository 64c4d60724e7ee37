import LpPlatform.DecimalExpressions
import LpPlatform.OrderIntake

/-!
# Positive decimals

The validators and the constructor of money each check a text by a regular
expression of their own. Positivity is encoded by where a digit other than
zero may stand. The texts of both expressions are taken apart into digits
around a point, and what these denote decides which of them is positive.
-/

namespace LpPlatform.PositiveDecimals

open Amounts DecimalExpressions DecimalText JsValues MoneyText OrderIntake RegularTexts
open RegularExpression (char)

/-- The letters of `[1-9]`. -/
def nonzeroDigits : List Char := ['1', '2', '3', '4', '5', '6', '7', '8', '9']

/-- `[1-9]`. -/
def nonzeroDigit : RegularExpression Char := oneOf nonzeroDigits

/-- `POS_DECIMAL_RE`. -/
def posDecimalRe : RegularExpression Char :=
  char '0' * (char '.' * (digit.star * (nonzeroDigit * digit.star))) +
    nonzeroDigit * (digit.star * fractionRe)

/-- A decimal numeral whose integer part is zero or has no leading zero. -/
structure Numeral (text : List Char) (negative : Bool) (whole fraction : List Char) : Prop where
  parts : Parts whole fraction
  text_eq : text = signedText negative (whole ++ pointed fraction)
  leading : whole.head? = some '0' → whole = ['0']

theorem mem_nonzeroDigits {c : Char} : c ∈ nonzeroDigits ↔ c.isDigit = true ∧ c ≠ '0' := by
  have hcons : digits = '0' :: nonzeroDigits := rfl
  have hzero : '0' ∉ nonzeroDigits := by decide
  rw [← mem_digits, hcons, List.mem_cons]
  constructor
  · intro h
    exact ⟨Or.inr h, fun he => hzero (he ▸ h)⟩
  · rintro ⟨h, hne⟩
    exact h.resolve_left hne

/-- Digits among which one is not zero. -/
theorem mem_nonzeroRun {cs : List Char} : cs ∈ (digit.star * (nonzeroDigit * digit.star)).matches' ↔
    (∀ c ∈ cs, c.isDigit = true) ∧ ∃ c ∈ cs, c ≠ '0' := by
  rw [mem_mul]
  constructor
  · rintro ⟨front, hfront, back, hback, rfl⟩
    obtain ⟨c, hc, rest, hrest, rfl⟩ := mem_oneOf_mul.mp hback
    obtain ⟨hdigit, hne⟩ := mem_nonzeroDigits.mp hc
    refine ⟨fun d hd => ?_, c, List.mem_append_right _ List.mem_cons_self, hne⟩
    rcases List.mem_append.mp hd with hd | hd
    · exact mem_star_digit.mp hfront d hd
    · rcases List.mem_cons.mp hd with rfl | hd
      · exact hdigit
      · exact mem_star_digit.mp hrest d hd
  · rintro ⟨hall, c, hc, hne⟩
    obtain ⟨front, back, rfl⟩ := List.append_of_mem hc
    have hfront := mem_star_digit.mpr fun d hd => hall d (List.mem_append_left _ hd)
    have hback := mem_star_digit.mpr fun d hd =>
      hall d (List.mem_append_right _ (List.mem_cons_of_mem c hd))
    exact ⟨front, hfront, c :: back,
      mem_oneOf_mul.mpr ⟨c, mem_nonzeroDigits.mpr ⟨hall c hc, hne⟩, back, hback, rfl⟩, rfl⟩

/-- The validator on digits around a point. -/
theorem matchesPositive_parts {whole fraction : List Char} (h : Parts whole fraction) :
    matchesPositive (whole ++ pointed fraction) = true ↔
      (whole.head? = some '0' → whole = ['0']) ∧ ∃ c ∈ whole ++ fraction, c ≠ '0' := by
  obtain ⟨c, rest, rfl⟩ := List.exists_cons_of_ne_nil h.whole_ne
  by_cases hzero : c = '0'
  · subst hzero
    cases rest with
    | nil =>
      cases fraction with
      | nil =>
        have hfalse : matchesPositive ['0'] = false := by decide
        simp [pointed, hfalse]
      | cons d fraction =>
        have htext : ['0'] ++ pointed (d :: fraction) = '0' :: '.' :: d :: fraction := rfl
        have hdigits : (d :: fraction).all Char.isDigit = true := List.all_eq_true.mpr h.fraction_digits
        rw [htext, matchesPositive, hdigits, Bool.true_and, List.any_eq_true]
        simp
    | cons d rest =>
      -- a zero before another digit is neither alternative of the expression
      have hdigit := h.whole_digits d (by simp)
      have hpoint : d ≠ '.' := fun hd => by simp [hd] at hdigit
      have hfalse : matchesPositive ('0' :: d :: rest ++ pointed fraction) = false := by
        rw [List.cons_append, List.cons_append, matchesPositive.eq_2]
        · rfl
        · intro _ _ heq
          exact hpoint (List.cons.inj heq).1
      rw [hfalse]
      simp
  · have hsome := (isSome_unsigned? false (c :: rest ++ pointed fraction)).mpr ⟨_, fraction, h, rfl⟩
    have htrue : matchesPositive (c :: rest ++ pointed fraction) = true := by
      rw [List.cons_append] at hsome ⊢
      rw [matchesPositive.eq_2, hsome, Bool.and_true, decide_eq_true_iff]
      · exact hzero
      · intro _ hc
        exact absurd hc hzero
    refine iff_of_true htrue ⟨fun hhead => absurd (Option.some.inj hhead) hzero, c, ?_, hzero⟩
    exact List.mem_cons_self

/-- What the validator accepts is digits around a point. -/
theorem matchesPositive_unsigned {cs : List Char} (h : matchesPositive cs = true) :
    ∃ whole fraction, Parts whole fraction ∧ cs = whole ++ pointed fraction := by
  unfold matchesPositive at h
  split at h
  · rename_i fraction
    obtain ⟨hall, hany⟩ := Bool.and_eq_true_iff.mp h
    have hne : fraction ≠ [] := by
      rintro rfl
      simp at hany
    refine ⟨['0'], fraction, ⟨List.cons_ne_nil _ _, List.forall_mem_singleton.mpr rfl, List.all_eq_true.mp hall⟩, ?_⟩
    rw [pointed, if_neg hne]
    rfl
  · exact (isSome_unsigned? false _).mp (Bool.and_eq_true_iff.mp h).2
  · exact absurd h Bool.false_ne_true

/-- The validator accepts the texts of its expression. -/
theorem mem_posDecimalRe (cs : List Char) : cs ∈ posDecimalRe.matches' ↔ matchesPositive cs = true := by
  rw [posDecimalRe, mem_add, mem_char_mul, nonzeroDigit, mem_oneOf_mul]
  constructor
  · rintro (⟨rest, hrest, rfl⟩ | ⟨c, hc, rest, hrest, rfl⟩)
    · obtain ⟨fraction, hfraction, rfl⟩ := mem_char_mul.mp hrest
      obtain ⟨hdigits, hnonzero⟩ := mem_nonzeroRun.mp hfraction
      rw [matchesPositive, List.all_eq_true.mpr hdigits, Bool.true_and, List.any_eq_true]
      simpa using hnonzero
    · obtain ⟨front, hfront, back, hback, rfl⟩ := mem_mul.mp hrest
      obtain ⟨fraction, hfraction, rfl⟩ := mem_fractionRe.mp hback
      obtain ⟨hdigit, hne⟩ := mem_nonzeroDigits.mp hc
      have hwhole : ∀ d ∈ c :: front, d.isDigit = true :=
        List.forall_mem_cons.mpr ⟨hdigit, mem_star_digit.mp hfront⟩
      have hparts : Parts (c :: front) fraction := ⟨List.cons_ne_nil c front, hwhole, hfraction⟩
      rw [← List.cons_append, matchesPositive_parts hparts]
      exact ⟨fun hhead => absurd (Option.some.inj hhead) hne, c, List.mem_cons_self, hne⟩
  · intro h
    obtain ⟨whole, fraction, hparts, rfl⟩ := matchesPositive_unsigned h
    obtain ⟨hleading, d, hd, hne⟩ := (matchesPositive_parts hparts).mp h
    obtain ⟨c, rest, rfl⟩ := List.exists_cons_of_ne_nil hparts.whole_ne
    by_cases hzero : c = '0'
    · obtain rfl : rest = [] := (List.cons.inj (hleading (congrArg some hzero))).2
      have hmem : d ∈ fraction := by
        rcases List.mem_cons.mp hd with rfl | hmem
        · exact absurd hzero hne
        · exact hmem
      refine Or.inl ⟨'.' :: fraction, mem_char_mul.mpr ⟨fraction, ?_, rfl⟩, ?_⟩
      · exact mem_nonzeroRun.mpr ⟨hparts.fraction_digits, d, hmem, hne⟩
      · rw [hzero, pointed, if_neg (List.ne_nil_of_mem hmem)]
        rfl
    · have hdigits := List.forall_mem_cons.mp hparts.whole_digits
      refine Or.inr ⟨c, mem_nonzeroDigits.mpr ⟨hdigits.1, hzero⟩, rest ++ pointed fraction, ?_, rfl⟩
      exact mem_mul.mpr ⟨rest, mem_star_digit.mpr hdigits.2, _,
        mem_fractionRe.mpr ⟨fraction, hparts.fraction_digits, rfl⟩, rfl⟩

/-- Positivity is where a digit other than zero stands. -/
theorem matchesPositive_iff (cs : List Char) : matchesPositive cs = true ↔
    (∃ negative whole fraction, Numeral cs negative whole fraction) ∧ 0 < numeralValue cs := by
  constructor
  · intro h
    obtain ⟨whole, fraction, hparts, rfl⟩ := matchesPositive_unsigned h
    obtain ⟨hleading, hnonzero⟩ := (matchesPositive_parts hparts).mp h
    exact ⟨⟨false, whole, fraction, hparts, rfl, hleading⟩, (numeralValue_pos hparts false).mpr ⟨rfl, hnonzero⟩⟩
  · rintro ⟨⟨negative, whole, fraction, hparts, rfl, hleading⟩, hpos⟩
    obtain ⟨rfl, hnonzero⟩ := (numeralValue_pos hparts negative).mp hpos
    exact (matchesPositive_parts hparts).mpr ⟨hleading, hnonzero⟩

/-- Whatever the validator's expression matches, the constructor's matches. -/
theorem decimalRe_of_posDecimalRe {cs : List Char} (hcs : cs ∈ posDecimalRe.matches') :
    cs ∈ decimalRe.matches' := by
  obtain ⟨whole, fraction, hparts, heq⟩ := matchesPositive_unsigned ((mem_posDecimalRe cs).mp hcs)
  exact (mem_decimalRe cs).mpr ((isSome_literal? cs).mpr ⟨false, whole, fraction, hparts, heq⟩)

/-- Money of a literal that denotes more than zero is positive. -/
theorem new_positive {text : String} (hliteral : (literal? (trim text.toList)).isSome = true)
    (hpos : 0 < denoted text) : ∃ m, Money.new text = .ok m ∧ m.isPositive = true := by
  obtain ⟨l, hl⟩ := Option.isSome_iff_exists.mp hliteral
  have hnew : Money.new text = .ok (ofLiteral l) := by rw [Money.new, hl]
  exact ⟨_, hnew, (isPositive_iff _).mpr (by rwa [new_denoted hnew])⟩

/-- The validator of positive decimals accepts a text exactly when, without
the space around it, it is a decimal numeral with no superfluous leading zero
that denotes more than zero. Money is made of every accepted text, as it was
sent and as it was trimmed, and is positive. -/
theorem positiveDecimalString_grammar (s : String) :
    ((positiveDecimalString (.str s)).isSome = true ↔
      (∃ negative whole fraction, Numeral (trim s.toList) negative whole fraction) ∧ 0 < denoted s) ∧
    ∀ t, positiveDecimalString (.str s) = some t →
      t.val = String.ofList (trim s.toList) ∧
      (∃ m, Money.new s = .ok m ∧ m.isPositive = true) ∧
      ∃ m, Money.new t.val = .ok m ∧ m.isPositive = true := by
  have haccepts : (positiveDecimalString (.str s)).isSome = true ↔
      (∃ negative whole fraction, Numeral (trim s.toList) negative whole fraction) ∧ 0 < denoted s := by
    rw [positiveDecimalString, trimmedField, isSome_checked, isPositiveDecimal, String.toList_ofList,
      matchesPositive_iff, denoted]
  refine ⟨haccepts, fun t ht => ?_⟩
  have hpos := (haccepts.mp (Option.isSome_of_eq_some ht)).2
  have hval : t.val = String.ofList (trim s.toList) := by
    rw [positiveDecimalString, trimmedField, checked] at ht
    split at ht
    · exact congrArg Subtype.val (Option.some.inj ht).symm
    · exact absurd ht (by simp)
  have hmatches : trim s.toList ∈ posDecimalRe.matches' := by
    have hcheck := t.property
    rwa [isPositiveDecimal, hval, String.toList_ofList, ← mem_posDecimalRe] at hcheck
  have hliteral := (mem_decimalRe _).mp (decimalRe_of_posDecimalRe hmatches)
  obtain ⟨l, hl⟩ := Option.isSome_iff_exists.mp hliteral
  have htrim : trim t.val.toList = trim s.toList := by rw [hval, String.toList_ofList, trim_literal hl]
  have hdenoted : denoted t.val = denoted s := by rw [denoted, denoted, htrim]
  exact ⟨hval, new_positive hliteral hpos, new_positive (htrim ▸ hliteral) (hdenoted ▸ hpos)⟩

/-- A fraction below one, sent with space around it. -/
theorem positiveDecimalString_grammar_fraction :
    (∃ negative whole fraction, Numeral (trim " 0.050\n".toList) negative whole fraction) ∧
    0 < denoted " 0.050\n" ∧ ∃ m, Money.new " 0.050\n" = .ok m ∧ m.isPositive = true := by
  have haccepted : (positiveDecimalString (.str " 0.050\n")).isSome = true := by decide +kernel
  obtain ⟨t, ht⟩ := Option.isSome_iff_exists.mp haccepted
  have hgrammar := (positiveDecimalString_grammar " 0.050\n").1.mp haccepted
  exact ⟨hgrammar.1, hgrammar.2, ((positiveDecimalString_grammar " 0.050\n").2 t ht).2.1⟩

end LpPlatform.PositiveDecimals
