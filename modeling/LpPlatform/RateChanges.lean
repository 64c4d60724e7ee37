import Mathlib.Tactic.IntervalCases
import LpPlatform.ChargeBills

/-!
# Changes of the charge rates

A fill is charged by the row with the latest date among those of its segment
that apply. Dates are compared as instants to apply and as text to be the
latest; on dates of the calendar both orders are the order of year, month and
day. So a row with a later date than all others of its segment changes nothing
for other segments or before that date, and is used from that date on.
-/

namespace LpPlatform.RateChanges

open Amounts ChargeBills Charges DecimalText JsValues Tables

/-- How many days a month has. -/
def daysIn (year month : ℕ) : ℕ :=
  if month = 2 then if year % 4 = 0 ∧ (year % 100 ≠ 0 ∨ year % 400 = 0) then 29 else 28
  else if month = 4 ∨ month = 6 ∨ month = 9 ∨ month = 11 then 30 else 31

/-- The text is `YYYY-MM-DD` of a day of the calendar. -/
structure CalendarDate (text : String) (year month day : ℕ) : Prop where
  chars : ∃ ys ms ds, text.toList = ys ++ '-' :: (ms ++ '-' :: ds) ∧
    (ys.length = 4 ∧ digits? ys = some year) ∧ (ms.length = 2 ∧ digits? ms = some month) ∧
    (ds.length = 2 ∧ digits? ds = some day)
  month_range : 1 ≤ month ∧ month ≤ 12
  day_range : 1 ≤ day ∧ day ≤ daysIn year month

/-- The text is a date. -/
def IsDate (text : String) : Prop := ∃ year month day, CalendarDate text year month day

/-- A table of dated rows, with different dates within a segment. -/
structure ValidTable (table : List ChargeRate) : Prop where
  dates : ∀ r ∈ table, IsDate r.effectiveFrom
  distinct : table.Pairwise fun a b => a.segment = b.segment → a.effectiveFrom ≠ b.effectiveFrom

/-- The instant that a row applies from. -/
def effectiveAt (r : ChargeRate) : Instant := (dateOf? r.effectiveFrom).getD 0

/-- `computeForFill` over a table of rates. -/
def computeForFillIn (table : List ChargeRate) (fill : FillForCharges) : Except Failure (List ChargeLine) := do
  let rate ← activeRate table fill.segment fill.executedAt
  computeWith rate fill

/-- The charges service computes over its own table. -/
theorem computeForFillIn_table (fill : FillForCharges) : computeForFillIn CHARGE_RATES fill = computeForFill fill :=
  rfl

section Digits

theorem digits?_parts {cs : List Char} {n : ℕ} (h : digits? cs = some n) :
    (∀ c ∈ cs, 48 ≤ c.toNat ∧ c.toNat ≤ 57) ∧ n = Nat.ofDigitChars 10 cs 0 := by
  refine ⟨fun c hc => ?_, MoneyText.digits?_value h⟩
  have hdigit := digits?_all h c hc
  simpa [Char.isDigit, UInt32.le_iff_toNat_le] using hdigit

theorem ofDigitChars_cons_zero (c : Char) (cs : List Char) :
    Nat.ofDigitChars 10 (c :: cs) 0 = 10 ^ cs.length * (c.toNat - 48) + Nat.ofDigitChars 10 cs 0 := by
  have hzero : '0'.toNat = 48 := rfl
  rw [Nat.ofDigitChars_cons, hzero, Nat.mul_zero, Nat.zero_add, Nat.ofDigitChars_eq_ofDigitChars_zero]

theorem ofDigitChars_lt {cs : List Char} (h : ∀ c ∈ cs, 48 ≤ c.toNat ∧ c.toNat ≤ 57) :
    Nat.ofDigitChars 10 cs 0 < 10 ^ cs.length := by
  induction cs with
  | nil => simp
  | cons c cs ih =>
    have hc := h c (by simp)
    have hrest := ih fun d hd => h d (by simp [hd])
    rw [ofDigitChars_cons_zero, List.length_cons, pow_succ]
    have hdigit : 10 ^ cs.length * (c.toNat - 48) ≤ 10 ^ cs.length * 9 := Nat.mul_le_mul_left _ (by omega)
    omega

/-- Digits of one number are ordered as their numbers, compared as text. -/
theorem digits_lt_iff {cs ds : List Char} (hlen : cs.length = ds.length)
    (hcs : ∀ c ∈ cs, 48 ≤ c.toNat ∧ c.toNat ≤ 57) (hds : ∀ c ∈ ds, 48 ≤ c.toNat ∧ c.toNat ≤ 57) :
    cs.map Char.toNat < ds.map Char.toNat ↔ Nat.ofDigitChars 10 cs 0 < Nat.ofDigitChars 10 ds 0 := by
  induction cs generalizing ds with
  | nil =>
    obtain rfl := List.length_eq_zero_iff.mp hlen.symm
    simp
  | cons c cs ih =>
    cases ds with
    | nil => simp at hlen
    | cons d ds =>
      have hlen' : cs.length = ds.length := by simpa using hlen
      have hcs' : ∀ e ∈ cs, 48 ≤ e.toNat ∧ e.toNat ≤ 57 := fun e he => hcs e (by simp [he])
      have hds' : ∀ e ∈ ds, 48 ≤ e.toNat ∧ e.toNat ≤ 57 := fun e he => hds e (by simp [he])
      have hc := hcs c (by simp)
      have hd := hds d (by simp)
      have hlow := ofDigitChars_lt hcs'
      have hlow' := ofDigitChars_lt hds'
      rw [List.map_cons, List.map_cons, List.cons_lt_cons_iff, ih hlen' hcs' hds', ofDigitChars_cons_zero,
        ofDigitChars_cons_zero, hlen']
      rw [hlen'] at hlow
      generalize 10 ^ ds.length = p at hlow hlow'
      -- the first digit decides, as the rest is below one unit of its place
      rcases lt_trichotomy c.toNat d.toNat with hlt | heq | hgt
      · have hstep : p * (c.toNat - 48) + p ≤ p * (d.toNat - 48) := by
          rw [← Nat.mul_succ]
          exact Nat.mul_le_mul_left _ (by omega)
        exact iff_of_true (Or.inl hlt) (by omega)
      · rw [heq]
        simp
      · have hstep : p * (d.toNat - 48) + p ≤ p * (c.toNat - 48) := by
          rw [← Nat.mul_succ]
          exact Nat.mul_le_mul_left _ (by omega)
        exact iff_of_false (by omega) (by omega)

/-- Of two lists with front parts of one length the front parts decide first. -/
theorem append_lt_iff {as bs cs ds : List ℕ} (hlen : as.length = bs.length) :
    as ++ cs < bs ++ ds ↔ as < bs ∨ (as = bs ∧ cs < ds) := by
  induction as generalizing bs with
  | nil =>
    obtain rfl := List.length_eq_zero_iff.mp hlen.symm
    simp
  | cons a as ih =>
    cases bs with
    | nil => simp at hlen
    | cons b bs =>
      have hlen' : as.length = bs.length := by simpa using hlen
      rw [List.cons_append, List.cons_append, List.cons_lt_cons_iff, List.cons_lt_cons_iff, ih hlen',
        List.cons.injEq]
      tauto

/-- A field of digits decides by its number. -/
theorem field_lt_iff {cs ds : List Char} {m n : ℕ} {rest rest' : List ℕ} (hlen : cs.length = ds.length)
    (hcs : digits? cs = some m) (hds : digits? ds = some n) :
    cs.map Char.toNat ++ rest < ds.map Char.toNat ++ rest' ↔ m < n ∨ (m = n ∧ rest < rest') := by
  obtain ⟨hall, rfl⟩ := digits?_parts hcs
  obtain ⟨hall', rfl⟩ := digits?_parts hds
  have hlt := digits_lt_iff hlen hall hall'
  have hgt := digits_lt_iff hlen.symm hall' hall
  have heq : cs.map Char.toNat = ds.map Char.toNat ↔ Nat.ofDigitChars 10 cs 0 = Nat.ofDigitChars 10 ds 0 := by
    rcases lt_trichotomy (cs.map Char.toNat) (ds.map Char.toNat) with h | h | h
    · exact iff_of_false h.ne (hlt.mp h).ne
    · refine iff_of_true h (le_antisymm ?_ ?_)
      · exact not_lt.mp fun hv => h.not_gt (hgt.mpr hv)
      · exact not_lt.mp fun hv => h.not_lt (hlt.mpr hv)
    · exact iff_of_false h.ne' (hgt.mp h).ne'
  rw [append_lt_iff (by simpa using hlen), hlt, heq]

end Digits

section Days

/-- Months counted from March, so that the leap day is the last of its year. -/
theorem daysOfCivil_march {year month : ℕ} (hmonth : 1 ≤ month ∧ month ≤ 12) (day : ℤ) :
    ∃ y i : ℤ, 12 * y + i = 12 * (year : ℤ) + month - 3 ∧ 0 ≤ i ∧ i ≤ 11 ∧
      Charges.daysOfCivil year month day =
        365 * y + y / 4 - y / 100 + y / 400 + (153 * i + 2) / 5 + day - 719469 := by
  by_cases hearly : month ≤ 2
  · refine ⟨year - 1, month + 9, by ring, by omega, by omega, ?_⟩
    have hearly' : (month : ℤ) ≤ 2 := by exact_mod_cast hearly
    have hlate : ¬ 2 < (month : ℤ) := by omega
    simp only [Charges.daysOfCivil, hearly', hlate, if_true, if_false]
    omega
  · refine ⟨year, month - 3, by ring, by omega, by omega, ?_⟩
    have hearly' : ¬ (month : ℤ) ≤ 2 := by omega
    have hlate : 2 < (month : ℤ) := by omega
    simp only [Charges.daysOfCivil, hearly', hlate, if_true, if_false]
    omega

/-- A month is over before the next one begins. -/
theorem daysIn_le {year month : ℕ} (hmonth : 1 ≤ month ∧ month ≤ 12) {y i y' i' : ℤ}
    (h : 12 * y + i = 12 * (year : ℤ) + month - 3) (hi : 0 ≤ i ∧ i ≤ 11) (hi' : 0 ≤ i' ∧ i' ≤ 11)
    (hlt : 12 * y + i < 12 * y' + i') :
    365 * y + y / 4 - y / 100 + y / 400 + (153 * i + 2) / 5 + daysIn year month ≤
      365 * y' + y' / 4 - y' / 100 + y' / 400 + (153 * i' + 2) / 5 := by
  -- the next month begins no later
  have hnext : ∀ z j : ℤ, 0 ≤ j ∧ j ≤ 11 → 12 * z + j ≤ 12 * y' + i' →
      365 * z + z / 4 - z / 100 + z / 400 + (153 * j + 2) / 5 ≤
        365 * y' + y' / 4 - y' / 100 + y' / 400 + (153 * i' + 2) / 5 := by
    intro z j hj hle
    rcases eq_or_lt_of_le (show z ≤ y' by omega) with rfl | hz
    · omega
    · omega
  rcases eq_or_lt_of_le hi.2 with rfl | hlast
  · -- February
    have hfebruary : month = 2 := by omega
    have hyear : y + 1 = year := by omega
    refine le_trans ?_ (hnext (y + 1) 0 (by omega) (by omega))
    rw [hfebruary, daysIn, if_pos rfl]
    split_ifs with hleap
    · omega
    · have hcommon : ¬ (year : ℤ) % 4 = 0 ∨ ((year : ℤ) % 100 = 0 ∧ ¬ (year : ℤ) % 400 = 0) := by omega
      omega
  · refine le_trans ?_ (hnext y (i + 1) (by omega) (by omega))
    have hdays : month = 2 ∨ (daysIn year month : ℤ) ≤ (153 * (i + 1) + 2) / 5 - (153 * i + 2) / 5 := by
      have hplace : i = if month ≤ 2 then (month : ℤ) + 9 else month - 3 := by split_ifs <;> omega
      obtain ⟨hfirst, htwelfth⟩ := hmonth
      interval_cases month <;> simp [daysIn] at hplace ⊢ <;> omega
    rcases hdays with rfl | hdays
    · omega
    · omega

/-- A later date has a later day number. -/
theorem daysOfCivil_lt {year month day year' month' day' : ℕ} (hmonth : 1 ≤ month ∧ month ≤ 12)
    (hday : day ≤ daysIn year month) (hmonth' : 1 ≤ month' ∧ month' ≤ 12) (hday' : 1 ≤ day')
    (h : year < year' ∨ (year = year' ∧ (month < month' ∨ (month = month' ∧ day < day')))) :
    Charges.daysOfCivil year month day < Charges.daysOfCivil year' month' day' := by
  obtain ⟨y, i, hindex, hi, hi', heq⟩ := daysOfCivil_march hmonth day
  obtain ⟨z, j, hindex', hj, hj', heq'⟩ := daysOfCivil_march hmonth' day'
  rw [heq, heq']
  rcases lt_or_eq_of_le (show 12 * y + i ≤ 12 * z + j by omega) with hlt | hsame
  · have hover := daysIn_le hmonth hindex ⟨hi, hi'⟩ ⟨hj, hj'⟩ hlt
    omega
  · obtain rfl : y = z := by omega
    obtain rfl : i = j := by omega
    omega

end Days

section Dates

theorem daysIn_le_31 (year month : ℕ) : daysIn year month ≤ 31 := by
  unfold daysIn
  split_ifs <;> omega

/-- A date is read as midnight of its day. -/
theorem CalendarDate.dateOf {text : String} {year month day : ℕ} (h : CalendarDate text year month day) :
    dateOf? text = some (Charges.daysOfCivil year month day * 86400000) := by
  obtain ⟨ys, ms, ds, htext, ⟨hylen, hy⟩, ⟨hmlen, hm⟩, ⟨hdlen, hd⟩⟩ := h.chars
  obtain ⟨y₁, y₂, y₃, y₄, rfl⟩ := List.length_eq_four.mp hylen
  obtain ⟨m₁, m₂, rfl⟩ := List.length_eq_two.mp hmlen
  obtain ⟨d₁, d₂, rfl⟩ := List.length_eq_two.mp hdlen
  have hrange : 1 ≤ month ∧ month ≤ 12 ∧ 1 ≤ day ∧ day ≤ 31 :=
    ⟨h.month_range.1, h.month_range.2, h.day_range.1, h.day_range.2.trans (daysIn_le_31 _ _)⟩
  unfold dateOf?
  rw [htext]
  simp only [List.cons_append, List.nil_append, hy, hm, hd, Option.bind_eq_bind, Option.bind_some,
    if_pos hrange]

theorem CalendarDate.effectiveAt {r : ChargeRate} {year month day : ℕ}
    (h : CalendarDate r.effectiveFrom year month day) :
    effectiveAt r = Charges.daysOfCivil year month day * 86400000 := by
  rw [RateChanges.effectiveAt, h.dateOf]
  rfl

/-- The codes of a text. -/
def codes (text : String) : List ℕ := text.toList.map Char.toNat

/-- Dates are ordered as text by year, month and day. -/
theorem CalendarDate.codes_lt {text text' : String} {year month day year' month' day' : ℕ}
    (h : CalendarDate text year month day) (h' : CalendarDate text' year' month' day') :
    codes text < codes text' ↔
      year < year' ∨ (year = year' ∧ (month < month' ∨ (month = month' ∧ day < day'))) := by
  obtain ⟨ys, ms, ds, htext, ⟨hylen, hy⟩, ⟨hmlen, hm⟩, ⟨hdlen, hd⟩⟩ := h.chars
  obtain ⟨ys', ms', ds', htext', ⟨hylen', hy'⟩, ⟨hmlen', hm'⟩, ⟨hdlen', hd'⟩⟩ := h'.chars
  have hdays := @field_lt_iff ds ds' day day' [] [] (hdlen.trans hdlen'.symm) hd hd'
  rw [List.append_nil, List.append_nil] at hdays
  have hnil : ¬ ([] : List ℕ) < [] := by simp
  rw [codes, codes, htext, htext', List.map_append, List.map_append, List.map_cons, List.map_cons,
    List.map_append, List.map_append, List.map_cons, List.map_cons,
    field_lt_iff (hylen.trans hylen'.symm) hy hy', List.cons_lt_cons_self,
    field_lt_iff (hmlen.trans hmlen'.symm) hm hm', List.cons_lt_cons_self, hdays]
  simp only [hnil, and_false, or_false]

/-- The two orders of dates, as text and as instants, agree. -/
theorem codes_lt_iff {a b : ChargeRate} (ha : IsDate a.effectiveFrom) (hb : IsDate b.effectiveFrom) :
    codes a.effectiveFrom < codes b.effectiveFrom ↔ effectiveAt a < effectiveAt b := by
  obtain ⟨year, month, day, ha⟩ := ha
  obtain ⟨year', month', day', hb⟩ := hb
  have hforth := @daysOfCivil_lt year month day year' month' day' ha.month_range ha.day_range.2
    hb.month_range hb.day_range.1
  have hback := @daysOfCivil_lt year' month' day' year month day hb.month_range hb.day_range.2
    ha.month_range ha.day_range.1
  rw [ha.codes_lt hb, ha.effectiveAt, hb.effectiveAt]
  constructor
  · intro h
    exact Int.mul_lt_mul_of_pos_right (hforth h) (by decide)
  · intro hlt
    have hdays : Charges.daysOfCivil year month day < Charges.daysOfCivil year' month' day' :=
      lt_of_mul_lt_mul_right hlt (by decide)
    by_contra hnot
    rcases (show (year' < year ∨ (year' = year ∧ (month' < month ∨ (month' = month ∧ day' < day)))) ∨
      (year = year' ∧ month = month' ∧ day = day') by omega) with h | ⟨rfl, rfl, rfl⟩
    · exact hdays.not_gt (hback h)
    · exact lt_irrefl _ hdays

end Dates

section Selection

variable {table : List ChargeRate} {segment : ProductSegment} {executedAt : Instant}

theorem pairwise_sorted (rows : List ChargeRate) :
    (rows.insertionSort ChargeRate.later).Pairwise ChargeRate.later := by
  have : Std.Total ChargeRate.later := ⟨fun a b => (le_total _ _).symm⟩
  have : IsTrans ChargeRate ChargeRate.later := ⟨fun _ _ _ hab hbc => le_trans hbc hab⟩
  exact List.pairwise_insertionSort _ _

theorem applies_iff {r : ChargeRate} (hdate : IsDate r.effectiveFrom) :
    r.applies segment executedAt = true ↔ r.segment = segment ∧ effectiveAt r ≤ executedAt := by
  obtain ⟨year, month, day, hdate⟩ := hdate
  rw [ChargeRate.applies, hdate.dateOf, hdate.effectiveAt]
  simp

/-- No row applies exactly when the selection throws. -/
theorem activeRate_error_iff : (∃ e, activeRate table segment executedAt = .error e) ↔
    ∀ r ∈ table, r.applies segment executedAt = false := by
  unfold activeRate
  split
  · rename_i row rest hsorted
    refine iff_of_false (by simp) fun hnone => ?_
    have hmem : row ∈ (table.filter (ChargeRate.applies segment executedAt)).insertionSort ChargeRate.later := by
      simp [hsorted]
    rw [List.mem_insertionSort, List.mem_filter] at hmem
    exact absurd (hnone row hmem.1) (by simp [hmem.2])
  · rename_i hsorted
    refine iff_of_true ⟨_, rfl⟩ fun r hr => ?_
    have hempty : table.filter (ChargeRate.applies segment executedAt) = [] := by
      rw [← List.length_eq_zero_iff, ← List.length_insertionSort ChargeRate.later, hsorted, List.length_nil]
    exact Bool.eq_false_iff.mpr (List.filter_eq_nil_iff.mp hempty r hr)

/-- The selected row applies and no other that applies has a later text. -/
theorem activeRate_ok {row : ChargeRate} (h : activeRate table segment executedAt = .ok row) :
    row ∈ table ∧ row.applies segment executedAt = true ∧
      ∀ r ∈ table, r.applies segment executedAt = true → codes r.effectiveFrom ≤ codes row.effectiveFrom := by
  unfold activeRate at h
  split at h
  · rename_i row' rest hsorted
    obtain rfl := Except.ok.inj h
    have hpairwise := pairwise_sorted (table.filter (ChargeRate.applies segment executedAt))
    have hmem : ∀ r, r ∈ row' :: rest ↔ r ∈ table ∧ r.applies segment executedAt = true := by
      intro r
      rw [← hsorted, List.mem_insertionSort, List.mem_filter]
    rw [hsorted] at hpairwise
    have hrow := (hmem row').mp (by simp)
    refine ⟨hrow.1, hrow.2, fun r hr happlies => ?_⟩
    rcases List.mem_cons.mp ((hmem r).mpr ⟨hr, happlies⟩) with rfl | hrest
    · exact le_rfl
    · exact (List.pairwise_cons.mp hpairwise).1 r hrest
  · simp at h

/-- The selected row is the one that applies with the latest date. -/
theorem activeRate_ok_iff (htable : ValidTable table) {row : ChargeRate} :
    activeRate table segment executedAt = .ok row ↔
      row ∈ table ∧ (row.segment = segment ∧ effectiveAt row ≤ executedAt) ∧
        ∀ r ∈ table, r.segment = segment → effectiveAt r ≤ executedAt → effectiveAt r ≤ effectiveAt row := by
  have horder : ∀ {a b : ChargeRate}, a ∈ table → b ∈ table →
      (codes a.effectiveFrom ≤ codes b.effectiveFrom ↔ effectiveAt a ≤ effectiveAt b) := by
    intro a b ha hb
    rw [← not_lt, ← not_lt, codes_lt_iff (htable.dates b hb) (htable.dates a ha)]
  constructor
  · intro h
    obtain ⟨hmem, happlies, hlatest⟩ := activeRate_ok h
    refine ⟨hmem, (applies_iff (htable.dates row hmem)).mp happlies, fun r hr hsegment hle => ?_⟩
    exact (horder hr hmem).mp (hlatest r hr ((applies_iff (htable.dates r hr)).mpr ⟨hsegment, hle⟩))
  · rintro ⟨hmem, ⟨hsegment, hle⟩, hlatest⟩
    cases hactive : activeRate table segment executedAt with
    | error e =>
      have hnone := activeRate_error_iff.mp ⟨e, hactive⟩ row hmem
      have happlies := (applies_iff (htable.dates row hmem)).mpr ⟨hsegment, hle⟩
      rw [hnone] at happlies
      exact absurd happlies (by simp)
    | ok row' =>
      obtain ⟨hmem', happlies', hlatest'⟩ := activeRate_ok hactive
      obtain ⟨hsegment', hle'⟩ := (applies_iff (htable.dates row' hmem')).mp happlies'
      have hforth := hlatest row' hmem' hsegment' hle'
      have hback := hlatest' row hmem ((applies_iff (htable.dates row hmem)).mpr ⟨hsegment, hle⟩)
      have hsame : codes row.effectiveFrom = codes row'.effectiveFrom :=
        le_antisymm hback ((horder hmem' hmem).mpr hforth)
      by_contra hne
      have htext : row.effectiveFrom = row'.effectiveFrom := by
        have hinj : Function.Injective Char.toNat := fun _ _ => Char.toNat_inj.mp
        exact String.toList_inj.mp (List.map_injective_iff.mpr hinj hsame)
      have hrows : row ≠ row' := fun heq => hne (by rw [heq])
      have : Std.Symm fun a b : ChargeRate => a.segment = b.segment → a.effectiveFrom ≠ b.effectiveFrom :=
        ⟨fun _ _ h hs => (h hs.symm).symm⟩
      exact htable.distinct.forall hmem hmem' hrows (hsegment.trans hsegment'.symm) htext

/-- A row with another date than all rows of its segment may be added anywhere. -/
theorem ValidTable.insert {before after : List ChargeRate} {row : ChargeRate} (h : ValidTable (before ++ after))
    (hrow : IsDate row.effectiveFrom)
    (hnew : ∀ r ∈ before ++ after, r.segment = row.segment → r.effectiveFrom ≠ row.effectiveFrom) :
    ValidTable (before ++ row :: after) := by
  have hsymm : ∀ {a b : ChargeRate}, (a.segment = b.segment → a.effectiveFrom ≠ b.effectiveFrom) →
      b.segment = a.segment → b.effectiveFrom ≠ a.effectiveFrom := fun h hs => (h hs.symm).symm
  refine ⟨fun r hr => ?_, ?_⟩
  · rcases List.mem_cons.mp (List.perm_middle.mem_iff.mp hr) with rfl | hr
    · exact hrow
    · exact h.dates r hr
  · rw [List.perm_middle.pairwise_iff hsymm, List.pairwise_cons]
    exact ⟨fun r hr hs => (hnew r hr hs.symm).symm, h.distinct⟩

/-- A row that does not apply changes nothing. -/
theorem activeRate_insert {before after : List ChargeRate} {row : ChargeRate}
    (h : row.applies segment executedAt = false) :
    activeRate (before ++ row :: after) segment executedAt = activeRate (before ++ after) segment executedAt := by
  unfold activeRate
  rw [List.filter_append, List.filter_append, List.filter_cons_of_neg (by simp [h])]

end Selection

/-- Adding a row with a later date than all rows of its segment, anywhere in the
table, leaves the charges of other segments and of fills before that date as
they were, and charges the fills of its segment from that date on. In general
the row in force is the one that applies with the latest date, and the
selection throws exactly when none applies. -/
theorem rates_not_retroactive {before after : List ChargeRate} {row : ChargeRate}
    (htable : ValidTable (before ++ after)) (hrow : IsDate row.effectiveFrom)
    (hlater : ∀ r ∈ before ++ after, r.segment = row.segment → effectiveAt r < effectiveAt row) :
    (∀ fill, fill.segment ≠ row.segment ∨ fill.executedAt < effectiveAt row →
      computeForFillIn (before ++ row :: after) fill = computeForFillIn (before ++ after) fill) ∧
    (∀ fill, fill.segment = row.segment → effectiveAt row ≤ fill.executedAt →
      activeRate (before ++ row :: after) fill.segment fill.executedAt = .ok row ∧
      computeForFillIn (before ++ row :: after) fill = computeWith row fill) ∧
    ∀ table, ValidTable table → ∀ segment executedAt,
      (∀ r, activeRate table segment executedAt = .ok r ↔
        r ∈ table ∧ (r.segment = segment ∧ effectiveAt r ≤ executedAt) ∧
          ∀ r' ∈ table, r'.segment = segment → effectiveAt r' ≤ executedAt → effectiveAt r' ≤ effectiveAt r) ∧
      ((∃ e, activeRate table segment executedAt = .error e) ↔
        ∀ r ∈ table, ¬ (r.segment = segment ∧ effectiveAt r ≤ executedAt)) := by
  refine ⟨fun fill hfill => ?_, fun fill hsegment hle => ?_, fun table hvalid segment executedAt =>
    ⟨fun r => activeRate_ok_iff hvalid, ?_⟩⟩
  · have hnot : row.applies fill.segment fill.executedAt = false := by
      rw [Bool.eq_false_iff, Ne, applies_iff hrow]
      rintro ⟨hsegment, hle⟩
      exact hfill.elim (fun hother => hother hsegment.symm) fun hbefore => not_lt.mpr hle hbefore
    rw [computeForFillIn, computeForFillIn, activeRate_insert hnot]
  · have hnew : ∀ r ∈ before ++ after, r.segment = row.segment → r.effectiveFrom ≠ row.effectiveFrom := by
      intro r hr hs htext
      have hlt := hlater r hr hs
      rw [effectiveAt, effectiveAt, htext] at hlt
      exact lt_irrefl _ hlt
    have hactive : activeRate (before ++ row :: after) fill.segment fill.executedAt = .ok row := by
      refine (activeRate_ok_iff (htable.insert hrow hnew)).mpr ⟨by simp, ⟨hsegment.symm, hle⟩, ?_⟩
      intro r hr hs _
      rcases List.mem_cons.mp (List.perm_middle.mem_iff.mp hr) with rfl | hr
      · exact le_rfl
      · exact (hlater r hr (hs.trans hsegment)).le
    refine ⟨hactive, ?_⟩
    rw [computeForFillIn, hactive]
    rfl
  · rw [activeRate_error_iff]
    refine forall₂_congr fun r hr => ?_
    rw [← applies_iff (hvalid.dates r hr), Bool.not_eq_true]

/-- A row for futures from April 2025 on, put in front of the table. -/
def newRate : ChargeRate :=
  ⟨"2025-04-01", .fut, "0.0002", "0", "20", "0", "0.0002", "0.0000173", "0.000001", "0.00002", "0.18"⟩

/-- A fill in January is charged as before, and one in May by the new row. -/
theorem rates_not_retroactive_futures :
    (computeForFillIn (newRate :: CHARGE_RATES) ⟨"T1", .buy, "1", "1500", 1736919000000, .fut⟩ =
      computeForFill ⟨"T1", .buy, "1", "1500", 1736919000000, .fut⟩) ∧
    activeRate (newRate :: CHARGE_RATES) .fut 1746057600000 = .ok newRate := by
  have hdate : IsDate "2024-10-01" := ⟨2024, 10, 1, ⟨['2', '0', '2', '4'], ['1', '0'], ['0', '1'],
    by decide +kernel⟩, by decide, by decide⟩
  have hnew : IsDate "2025-04-01" := ⟨2025, 4, 1, ⟨['2', '0', '2', '5'], ['0', '4'], ['0', '1'],
    by decide +kernel⟩, by decide, by decide⟩
  have htable : ValidTable ([] ++ CHARGE_RATES) := by
    refine ⟨fun r hr => ?_, by decide +kernel⟩
    have hsame : ∀ r ∈ CHARGE_RATES, r.effectiveFrom = "2024-10-01" := by decide +kernel
    rw [hsame r hr]
    exact hdate
  have hlater : ∀ r ∈ [] ++ CHARGE_RATES, r.segment = newRate.segment → effectiveAt r < effectiveAt newRate := by
    decide +kernel
  have hchange := rates_not_retroactive htable hnew hlater
  exact ⟨hchange.1 ⟨"T1", .buy, "1", "1500", 1736919000000, .fut⟩ (Or.inr (by decide +kernel)),
    (hchange.2.1 ⟨"T1", .buy, "1", "1500", 1746057600000, .fut⟩ rfl (by decide +kernel)).1⟩

end LpPlatform.RateChanges
