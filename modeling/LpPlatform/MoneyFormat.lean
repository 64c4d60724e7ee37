import LpPlatform.MoneyArithmetic

/-!
# Money as it is shown

An amount is shown with a fixed number of decimals and its integer part in
Indian groups: the last three digits, then pairs. Commas go where a regular
expression finds an even number of digits ahead. The text always stands for
the rounded amount. Its sign is the sign of the decimal, which a zero may have,
so what is slightly below zero is shown as a negative zero.
-/

namespace LpPlatform.MoneyFormat

open Amounts DecimalRounding DecimalText JsValues MoneyArithmetic MoneyText

/-- `Decimal.toFixed` with a number of decimals. -/
def toFixed (m : Money) (decimals : ℕ) : List Char :=
  let rounded := m.round decimals
  Literal.fixed ⟨rounded.isNegative, rounded.coefficient * 10 ^ (decimals - rounded.scale), decimals⟩

/-- `\w` of a regular expression. -/
def isWord (c : Char) : Bool := c.isAlphanum || c = '_'

/-- `\B`: no word starts or ends here. -/
def notBoundary (before : Option Char) (rest : List Char) : Bool :=
  before.any isWord = rest.head?.any isWord

/-- `(?=(\d{2})+(?!\d))`: pairs of digits, up to something that is no digit. -/
def pairsAhead : List Char → Bool
  | a :: b :: rest => a.isDigit && b.isDigit && (!rest.head?.any Char.isDigit || pairsAhead rest)
  | _ => false

/-- The text with a comma wherever the expression matches. -/
def groupPairs (before : Option Char) : List Char → List Char
  | [] => if notBoundary before [] && pairsAhead [] then [','] else []
  | c :: rest =>
    (if notBoundary before (c :: rest) && pairsAhead (c :: rest) then [','] else []) ++
      c :: groupPairs (some c) rest

/-- The integer part in groups. -/
def grouped (intPart : List Char) : List Char :=
  if intPart.length ≤ 3 then intPart
  else
    let last3 := intPart.drop (intPart.length - 3)
    let rest := intPart.take (intPart.length - 3)
    groupPairs none rest ++ ',' :: last3

/-- `Money.format`, by default in rupees with two decimals. -/
def format (m : Money) (decimals : ℕ := 2) (currencySymbol : String := "₹") : String :=
  let rounded := m.round decimals
  let sign := if rounded.negative then ['-'] else []
  let abs := toFixed rounded.abs decimals
  let intPart := abs.takeWhile (· ≠ '.')
  let fracPart := abs.dropWhile (· ≠ '.')
  String.ofList (sign ++ currencySymbol.toList ++ grouped intPart ++ fracPart)

/-- Ten million in crores and lakhs. -/
example : format ⟨true, 123456789, 1, by decide⟩ = "-₹1,23,45,678.90" := by decide +kernel

/-- Groups of digits: up to three, or three after pairs, the first of which
may be a single digit. -/
inductive IndianGroups : List (List Char) → Prop where
  | short {last} (hpos : 1 ≤ last.length) (hlast : last.length ≤ 3) : IndianGroups [last]
  | long {first pairs last} (hfirst : first.length = 1 ∨ first.length = 2)
      (hpairs : ∀ q ∈ pairs, q.length = 2) (hlast : last.length = 3) :
      IndianGroups (first :: pairs ++ [last])

/-- A minus, the symbol, groups of digits and exactly some decimals stand for an
amount. -/
structure Shows (text : List Char) (minus : Bool) (symbol : String) (decimals : ℕ) (amount : ℚ)
    (groups : List (List Char)) (fraction : List Char) : Prop where
  parts : text = (if minus then ['-'] else []) ++ symbol.toList ++ List.intercalate [','] groups ++
    (if decimals = 0 then [] else '.' :: fraction)
  grouping : IndianGroups groups
  digits : ∀ c ∈ groups.flatten ++ fraction, c.isDigit = true
  places : fraction.length = decimals
  amount_eq : unsignedValue (groups.flatten ++ (if decimals = 0 then [] else '.' :: fraction)) = |amount|

/-- The text shows the rounded amount, with a minus exactly when that is negative. -/
def Faithful (m : Money) (decimals : ℕ) (symbol : String) : Prop :=
  ∃ groups fraction, Shows (format m decimals symbol).toList (decide (roundTo decimals m.value < 0))
    symbol decimals (roundTo decimals m.value) groups fraction

/-- A minus stands before what rounds to zero. -/
def NegativeZero (m : Money) (decimals : ℕ) : Prop :=
  m.negative = true ∧ |m.value| ≤ 1 / (2 * 10 ^ decimals)

instance (m : Money) (decimals : ℕ) : Decidable (NegativeZero m decimals) :=
  inferInstanceAs (Decidable (_ ∧ _))

section Groups

theorem isWord_of_isDigit {c : Char} (h : c.isDigit = true) : isWord c = true := by
  simp [isWord, Char.isAlphanum, h]

/-- Ahead of digits stand pairs exactly when their number is even. -/
theorem pairsAhead_digits : ∀ cs : List Char, (∀ c ∈ cs, c.isDigit = true) →
    pairsAhead cs = (cs ≠ [] && cs.length % 2 = 0)
  | [], _ => rfl
  | [_], _ => by simp [pairsAhead]
  | [a, b], h => by simp [pairsAhead, h a, h b]
  | a :: b :: c :: rest, h => by
    have hrest := pairsAhead_digits (c :: rest) fun d hd => h d (by simp [hd])
    have hparity : (rest.length + 1 + 1 + 1) % 2 = (rest.length + 1) % 2 := by omega
    rw [pairsAhead, hrest]
    simp [h a, h b, h c, hparity]

/-- After a digit an even number of them is shown in pairs with commas. -/
theorem groupPairs_even : ∀ (p : Char) (cs : List Char), p.isDigit = true →
    (∀ c ∈ cs, c.isDigit = true) → cs.length % 2 = 0 →
    ∃ pairs : List (List Char), (∀ q ∈ pairs, q.length = 2) ∧ pairs.flatten = cs ∧
      groupPairs (some p) cs = pairs.flatMap (',' :: ·)
  | p, [], hp, _, _ => ⟨[], by simp, rfl, by simp [groupPairs, pairsAhead]⟩
  | p, [a], _, _, hlen => by simp at hlen
  | p, a :: b :: rest, hp, hcs, hlen => by
    have ha := hcs a (by simp)
    have hb := hcs b (by simp)
    have hrest : ∀ c ∈ rest, c.isDigit = true := fun c hc => hcs c (by simp [hc])
    simp only [List.length_cons] at hlen
    obtain ⟨pairs, hpairs, hflatten, htext⟩ := groupPairs_even b rest hb hrest (by omega)
    refine ⟨[a, b] :: pairs, ?_, by simp [hflatten], ?_⟩
    · intro q hq
      rcases List.mem_cons.mp hq with rfl | hq
      · rfl
      · exact hpairs q hq
    · have hcomma : pairsAhead (a :: b :: rest) = true := by
        rw [pairsAhead_digits _ hcs]
        simp only [List.length_cons]
        simp
        omega
      have hnone : pairsAhead (b :: rest) = false := by
        rw [pairsAhead_digits _ fun c hc => hcs c (by simp [List.mem_cons.mp hc])]
        simp only [List.length_cons]
        simp
        omega
      rw [groupPairs, groupPairs, htext]
      simp [notBoundary, hcomma, hnone, isWord_of_isDigit hp, isWord_of_isDigit ha]

/-- Digits before the last three are shown in pairs, from the right. -/
theorem groupPairs_groups {cs : List Char} (hne : cs ≠ []) (hcs : ∀ c ∈ cs, c.isDigit = true) :
    ∃ (first : List Char) (pairs : List (List Char)), (first.length = 1 ∨ first.length = 2) ∧ (∀ q ∈ pairs, q.length = 2) ∧
      first ++ pairs.flatten = cs ∧ groupPairs none cs = first ++ pairs.flatMap (',' :: ·) := by
  cases cs with
  | nil => exact absurd rfl hne
  | cons a rest =>
    have ha := hcs a (by simp)
    have hrest : ∀ c ∈ rest, c.isDigit = true := fun c hc => hcs c (by simp [hc])
    -- a word starts at the first digit
    have hstart : notBoundary none (a :: rest) = false := by simp [notBoundary, isWord_of_isDigit ha]
    by_cases heven : rest.length % 2 = 0
    · obtain ⟨pairs, hpairs, hflatten, htext⟩ := groupPairs_even a rest ha hrest heven
      refine ⟨[a], pairs, Or.inl rfl, hpairs, by simp [hflatten], ?_⟩
      rw [groupPairs, htext, hstart]
      rfl
    · cases rest with
      | nil => simp at heven
      | cons b rest =>
        have hb := hrest b (by simp)
        have hnone : pairsAhead (b :: rest) = false := by
          simp only [pairsAhead_digits _ hrest, heven, decide_false, Bool.and_false]
        simp only [List.length_cons] at heven
        obtain ⟨pairs, hpairs, hflatten, htext⟩ :=
          groupPairs_even b rest hb (fun c hc => hrest c (by simp [hc])) (by omega)
        refine ⟨[a, b], pairs, Or.inr rfl, hpairs, by simp [hflatten], ?_⟩
        rw [groupPairs, groupPairs, htext, hstart, hnone, Bool.and_false]
        rfl

/-- Groups are joined by a comma before every one but the first. -/
theorem intercalate_comma (first : List Char) (groups : List (List Char)) :
    List.intercalate [','] (first :: groups) = first ++ groups.flatMap (',' :: ·) := by
  induction groups generalizing first with
  | nil => simp
  | cons g groups ih =>
    rw [List.intercalate_cons_cons, ih, List.flatMap_cons]
    simp

/-- An integer part is shown in Indian groups. -/
theorem grouped_groups {intPart : List Char} (hne : intPart ≠ []) (hdigits : ∀ c ∈ intPart, c.isDigit = true) :
    ∃ groups, IndianGroups groups ∧ groups.flatten = intPart ∧
      grouped intPart = List.intercalate [','] groups := by
  by_cases hshort : intPart.length ≤ 3
  · refine ⟨[intPart], .short (List.length_pos_iff.mpr hne) hshort, by simp, ?_⟩
    rw [grouped, if_pos hshort, List.intercalate_singleton]
  · have hrest : intPart.take (intPart.length - 3) ≠ [] := by
      rw [← List.length_pos_iff, List.length_take]
      omega
    obtain ⟨first, pairs, hfirst, hpairs, hflatten, htext⟩ := groupPairs_groups hrest fun c hc =>
      hdigits c (List.mem_of_mem_take hc)
    refine ⟨first :: pairs ++ [intPart.drop (intPart.length - 3)], .long hfirst hpairs ?_, ?_, ?_⟩
    · rw [List.length_drop]
      omega
    · simp only [List.cons_append, List.flatten_cons, List.flatten_append, List.flatten_nil, List.append_nil]
      rw [← List.append_assoc, hflatten, List.take_append_drop]
    · rw [grouped, if_neg hshort, List.cons_append, intercalate_comma]
      dsimp only
      rw [htext]
      simp

end Groups

section Rounding

theorem round_scale (m : Money) (decimals : ℕ) : (m.round decimals).scale ≤ decimals := by
  unfold Money.round
  split
  · assumption
  · exact scale_ofLiteral _

theorem round_negative (m : Money) (decimals : ℕ) : (m.round decimals).negative = m.negative := by
  unfold Money.round
  split <;> rfl

/-- Rounded money is printed with all its decimals. -/
theorem toFixed_abs {r : Money} {decimals : ℕ} (h : r.scale ≤ decimals) :
    toFixed r.abs decimals = unsignedText (r.coefficient * 10 ^ (decimals - r.scale)) decimals := by
  have hround : r.abs.round decimals = r.abs := if_pos h
  rw [toFixed, hround]
  rfl

/-- The digits before the point, those after it, and what both denote. -/
theorem unsignedText_parts (coefficient decimals : ℕ) : ∃ whole fraction, whole ≠ [] ∧
    (∀ c ∈ whole ++ fraction, c.isDigit = true) ∧ fraction.length = decimals ∧
    (unsignedText coefficient decimals).takeWhile (· ≠ '.') = whole ∧
    (unsignedText coefficient decimals).dropWhile (· ≠ '.') =
      (if decimals = 0 then [] else '.' :: fraction) ∧
    unsignedValue (whole ++ (if decimals = 0 then [] else '.' :: fraction)) =
      (coefficient : ℚ) / 10 ^ decimals := by
  have hdigits : ∀ c ∈ Nat.toDigits 10 (coefficient / 10 ^ decimals), c.isDigit = true :=
    fun c hc => Nat.isDigit_of_mem_toDigits (by decide) (by decide) hc
  have hread := unsigned?_denoted (unsigned?_unsignedText false coefficient decimals)
  have hvalue : unsignedValue (unsignedText coefficient decimals) = (coefficient : ℚ) / 10 ^ decimals := by
    rw [if_neg Bool.false_ne_true] at hread
    rw [← hread, litValue]
    simp
  have hwhole : Nat.toDigits 10 (coefficient / 10 ^ decimals) ≠ [] := by simp
  by_cases hzero : decimals = 0
  · subst hzero
    have htext : unsignedText coefficient 0 = Nat.toDigits 10 (coefficient / 10 ^ 0) := by simp [unsignedText]
    have hdrop := dropWhile_toDigits_end (coefficient / 10 ^ 0)
    have htake : (Nat.toDigits 10 (coefficient / 10 ^ 0)).takeWhile (· ≠ '.') =
        Nat.toDigits 10 (coefficient / 10 ^ 0) := by
      have hsplit : (Nat.toDigits 10 (coefficient / 10 ^ 0)).takeWhile (· ≠ '.') ++
          (Nat.toDigits 10 (coefficient / 10 ^ 0)).dropWhile (· ≠ '.') =
            Nat.toDigits 10 (coefficient / 10 ^ 0) := List.takeWhile_append_dropWhile
      rwa [hdrop, List.append_nil] at hsplit
    refine ⟨Nat.toDigits 10 (coefficient / 10 ^ 0), [], hwhole, ?_, rfl, ?_, ?_, ?_⟩
    · rwa [List.append_nil]
    · rw [htext, htake]
    · rw [htext, hdrop, if_pos rfl]
    · rw [if_pos rfl, List.append_nil, ← htext, hvalue]
  · have htext : unsignedText coefficient decimals = Nat.toDigits 10 (coefficient / 10 ^ decimals) ++
        '.' :: padded decimals (coefficient % 10 ^ decimals) := by simp [unsignedText, hzero]
    have hpadded := List.all_eq_true.mp (isDigit_padded decimals (coefficient % 10 ^ decimals))
    refine ⟨Nat.toDigits 10 (coefficient / 10 ^ decimals), padded decimals (coefficient % 10 ^ decimals),
      hwhole, ?_, ?_, ?_, ?_, ?_⟩
    · intro c hc
      exact (List.mem_append.mp hc).elim (hdigits c) (hpadded c)
    · exact length_padded (Nat.pos_of_ne_zero hzero) (Nat.mod_lt _ (Nat.pow_pos (by decide)))
    · rw [htext, takeWhile_toDigits]
    · rw [htext, dropWhile_toDigits, if_neg hzero]
    · rw [if_neg hzero, ← htext, hvalue]

/-- The text shows the rounded amount under the sign of the decimal. -/
theorem format_shows (m : Money) (decimals : ℕ) (symbol : String) : ∃ groups fraction,
    Shows (format m decimals symbol).toList m.negative symbol decimals (roundTo decimals m.value)
      groups fraction := by
  have hscale := round_scale m decimals
  obtain ⟨whole, fraction, hwhole, hdigits, hplaces, htake, hdrop, hvalue⟩ := unsignedText_parts
    ((m.round decimals).coefficient * 10 ^ (decimals - (m.round decimals).scale)) decimals
  obtain ⟨groups, hgroups, hflatten, htext⟩ := grouped_groups hwhole fun c hc => hdigits c (by simp [hc])
  refine ⟨groups, fraction, ?_, hgroups, by rwa [hflatten], hplaces, ?_⟩
  · simp only [format]
    rw [String.toList_ofList, toFixed_abs hscale, htake, hdrop, htext, round_negative]
  · have hsplit : (10 : ℚ) ^ decimals = 10 ^ (decimals - (m.round decimals).scale) *
        10 ^ (m.round decimals).scale := by rw [← pow_add, Nat.sub_add_cancel hscale]
    rw [hflatten, hvalue, ← round_value, value_natAbs, hsplit]
    push_cast
    field_simp

/-- The value has the sign of the decimal. -/
theorem value_sign (m : Money) : if m.negative then m.value ≤ 0 else 0 ≤ m.value := by
  have hnonneg : 0 ≤ litValue ⟨false, m.coefficient, m.scale⟩ := by
    simp only [litValue, Bool.false_eq_true, if_false, one_mul]
    positivity
  rw [Money.value]
  cases m.negative with
  | false => exact hnonneg
  | true =>
    rw [litValue_negative]
    exact neg_nonpos.mpr hnonneg

/-- A negative decimal rounds to something negative unless it is within half a
unit of zero. -/
theorem minus_iff (m : Money) (decimals : ℕ) :
    m.negative = decide (roundTo decimals m.value < 0) ↔ ¬ NegativeZero m decimals := by
  have hsign := value_sign m
  unfold NegativeZero
  cases hneg : m.negative with
  | false =>
    rw [hneg, if_neg Bool.false_ne_true] at hsign
    have hround := roundTo_nonneg decimals hsign
    simpa using hround
  | true =>
    rw [hneg, if_pos rfl] at hsign
    have hpos := roundTo_pos_iff decimals (-m.value)
    rw [roundTo_neg, Left.neg_pos_iff] at hpos
    rw [abs_of_nonpos hsign, eq_comm, decide_eq_true_iff, hpos]
    simp

end Rounding

section Signs

/-- A text with a minus in front of the symbol is none without. -/
theorem minus_ne {symbol shown shown' : List Char} (h : '-' ∉ shown') :
    '-' :: (symbol ++ shown) ≠ symbol ++ shown' := by
  induction symbol with
  | nil =>
    rintro heq
    rw [List.nil_append, List.nil_append] at heq
    exact h (heq ▸ List.mem_cons_self)
  | cons c symbol ih =>
    intro heq
    obtain ⟨hc, hrest⟩ := List.cons.inj heq
    rw [← hc] at hrest
    exact ih hrest

/-- What is shown after the symbol has no minus. -/
theorem Shows.no_minus {text : List Char} {minus : Bool} {symbol : String} {decimals : ℕ} {amount : ℚ}
    {groups : List (List Char)} {fraction : List Char}
    (h : Shows text minus symbol decimals amount groups fraction) :
    '-' ∉ List.intercalate [','] groups ++ (if decimals = 0 then [] else '.' :: fraction) := by
  have hdash : ∀ c : Char, c.isDigit = true → c ≠ '-' := fun c hc he => by simp [he] at hc
  have hgroups : '-' ∉ List.intercalate [','] groups := by
    have hall : ∀ g ∈ groups, '-' ∉ g := fun g hg hmem =>
      hdash '-' (h.digits '-' (List.mem_append_left _ (List.mem_flatten.mpr ⟨g, hg, hmem⟩))) rfl
    cases groups with
    | nil => simp
    | cons g groups =>
      rw [intercalate_comma]
      simp only [List.mem_append, List.mem_flatMap, List.mem_cons, not_or, not_exists, not_and]
      exact ⟨hall g (by simp), fun q hq => ⟨by decide, hall q (by simp [hq])⟩⟩
  have hfraction : '-' ∉ fraction := fun hmem => hdash '-' (h.digits '-' (List.mem_append_right _ hmem)) rfl
  by_cases hzero : decimals = 0
  · simpa [hzero] using hgroups
  · simp [hzero, hgroups, hfraction]

/-- One text does not show two signs. -/
theorem Shows.minus_unique {text : List Char} {minus minus' : Bool} {symbol : String} {decimals : ℕ}
    {amount amount' : ℚ} {groups groups' : List (List Char)} {fraction fraction' : List Char}
    (h : Shows text minus symbol decimals amount groups fraction)
    (h' : Shows text minus' symbol decimals amount' groups' fraction') : minus = minus' := by
  have hparts := h.parts.symm.trans h'.parts
  cases minus <;> cases minus'
  · rfl
  · refine absurd hparts.symm ?_
    simpa using @minus_ne symbol.toList _ _ h.no_minus
  · refine absurd hparts ?_
    simpa using @minus_ne symbol.toList _ _ h'.no_minus
  · rfl

/-- The text is faithful unless a minus stands before zero. -/
theorem faithful_iff (m : Money) (decimals : ℕ) (symbol : String) :
    Faithful m decimals symbol ↔ ¬ NegativeZero m decimals := by
  obtain ⟨groups, fraction, hshows⟩ := format_shows m decimals symbol
  rw [← minus_iff]
  constructor
  · rintro ⟨groups', fraction', hfaithful⟩
    exact hshows.minus_unique hfaithful
  · intro hminus
    exact ⟨groups, fraction, hminus ▸ hshows⟩

/-- Amounts that round alike are shown alike but for the sign. -/
theorem format_eq_iff {m n : Money} {decimals : ℕ} (symbol : String)
    (h : roundTo decimals n.value = roundTo decimals m.value) :
    format n decimals symbol = format m decimals symbol ↔ n.negative = m.negative := by
  rw [← round_value, ← round_value] at h
  obtain ⟨-, hcoefficient, hscale⟩ := value_parts h
  simp only [format, toFixed_abs (round_scale m decimals), toFixed_abs (round_scale n decimals),
    hcoefficient, hscale, round_negative]
  generalize grouped _ = shown
  constructor
  · intro heq
    have hsigns := List.append_cancel_right (List.append_cancel_right (List.append_cancel_right
      (String.ofList_injective heq)))
    cases hn : n.negative <;> cases hm : m.negative <;> simp [hn, hm] at hsigns ⊢
  · intro hsign
    rw [hsign]

end Signs

/-- The text is an optional minus, the symbol, Indian groups of digits and
exactly the decimals, and stands for the rounded amount, with the minus exactly
for a negative one, unless a minus stands before what rounds to zero. Amounts
that round alike are shown alike when this is so of both or of neither. -/
theorem format_faithful_iff (m : Money) (decimals : ℕ) (symbol : String) :
    (Faithful m decimals symbol ↔ ¬ NegativeZero m decimals) ∧
    ∀ n : Money, roundTo decimals n.value = roundTo decimals m.value →
      (format n decimals symbol = format m decimals symbol ↔
        (NegativeZero n decimals ↔ NegativeZero m decimals)) := by
  refine ⟨faithful_iff m decimals symbol, fun n hround => ?_⟩
  have hm := minus_iff m decimals
  have hn := minus_iff n decimals
  rw [hround] at hn
  rw [format_eq_iff symbol hround, ← not_iff_not (a := NegativeZero n decimals), ← hn, ← hm]
  generalize decide (roundTo decimals m.value < 0) = minus
  cases n.negative <;> cases m.negative <;> cases minus <;> decide

/-- A tenth of a paisa below zero is shown as a negative zero, unlike zero. -/
theorem negative_zero_shown : ∃ m, Money.new "-0.001" = .ok m ∧ format m = "-₹0.00" ∧
    format Money.zero = "₹0.00" ∧ ¬ Faithful m 2 "₹" ∧
    roundTo 2 m.value = roundTo 2 Money.zero.value := by
  refine ⟨⟨true, 1, 3, by decide⟩, by decide +kernel, by decide +kernel, by decide +kernel, ?_, ?_⟩
  · rw [faithful_iff, not_not]
    refine ⟨rfl, ?_⟩
    norm_num [Money.value, litValue]
  · rw [← round_value, ← round_value]
    decide +kernel

end LpPlatform.MoneyFormat
