import Mathlib.Tactic.Linarith
import LpPlatform.JsValues

/-!
# The text of an instant

The text that `toISOString` prints gives the instant back. Its fields are
numbers that end where a separator stands, and the day number is recovered
from the year, the month and the day.
-/

namespace LpPlatform.JsValues

open DecimalText

/-- A field of digits ends at the first character that is not one. -/
theorem digits_append_inj {sep : Char} {cs cs' rest rest' : List Char} (hsep : sep.isDigit = false)
    (hcs : cs.all Char.isDigit = true) (hcs' : cs'.all Char.isDigit = true)
    (h : cs ++ sep :: rest = cs' ++ sep :: rest') : cs = cs' ∧ rest = rest' := by
  have htake : ∀ {ds : List Char} (tail : List Char), ds.all Char.isDigit = true →
      (ds ++ sep :: tail).takeWhile Char.isDigit = ds := by
    intro ds tail hds
    rw [List.takeWhile_append_of_pos fun c hc => List.all_eq_true.mp hds c hc]
    simp [hsep]
  have hsame : cs = cs' := by rw [← htake rest hcs, h, htake rest' hcs']
  subst hsame
  exact ⟨rfl, (List.cons.inj (List.append_cancel_left h)).2⟩

/-- A padded number ends at the first character that is not a digit. -/
theorem padded_append_inj {sep : Char} {width n n' : ℕ} {rest rest' : List Char}
    (hsep : sep.isDigit = false)
    (h : padded width n ++ sep :: rest = padded width n' ++ sep :: rest') : n = n' ∧ rest = rest' := by
  obtain ⟨hdigits, hrest⟩ := digits_append_inj hsep (isDigit_padded ..) (isDigit_padded ..) h
  have hvalue := congrArg (Nat.ofDigitChars 10 · 0) hdigits
  rw [ofDigitChars_padded, ofDigitChars_padded] at hvalue
  exact ⟨hvalue, hrest⟩

/-- The day of an era, split into its century, its four years, its year and its
day. -/
theorem dayOfEra_split {dayOfEra : ℤ} (h0 : 0 ≤ dayOfEra) (h1 : dayOfEra < 146097) :
    ∃ c q s dayOfYear : ℤ, (0 ≤ c ∧ c ≤ 3) ∧ (0 ≤ q ∧ q ≤ 24) ∧ (0 ≤ s ∧ s ≤ 3) ∧
      (0 ≤ dayOfYear ∧ dayOfYear ≤ 365) ∧ (dayOfYear = 365 → s = 3) ∧
      (1461 * q + 365 * s + dayOfYear < 36524 ∨ c = 3) ∧
      dayOfEra = 36524 * c + 1461 * q + 365 * s + dayOfYear := by
  obtain ⟨c, hc, hr0, hr1, hlast⟩ : ∃ c : ℤ, (0 ≤ c ∧ c ≤ 3) ∧ 0 ≤ dayOfEra - 36524 * c ∧
      dayOfEra - 36524 * c ≤ 36524 ∧ (dayOfEra - 36524 * c < 36524 ∨ c = 3) :=
    ⟨min (dayOfEra / 36524) 3, by omega, by omega, by omega, by omega⟩
  generalize hr : dayOfEra - 36524 * c = r at hr0 hr1 hlast
  obtain ⟨q, hq, hu0, hu1⟩ : ∃ q : ℤ, (0 ≤ q ∧ q ≤ 24) ∧ 0 ≤ r - 1461 * q ∧ r - 1461 * q ≤ 1460 :=
    ⟨r / 1461, by omega, by omega, by omega⟩
  generalize hu : r - 1461 * q = u at hu0 hu1
  obtain ⟨s, hs, hday⟩ : ∃ s : ℤ, (0 ≤ s ∧ s ≤ 3) ∧ 0 ≤ u - 365 * s ∧ u - 365 * s ≤ 365 ∧
      (u - 365 * s = 365 → s = 3) :=
    ⟨min (u / 365) 3, by omega, by omega, by omega, by omega⟩
  exact ⟨c, q, s, u - 365 * s, hc, hq, hs, ⟨hday.1, hday.2.1⟩, hday.2.2, by omega, by omega⟩

/-- A quotient, by the remainder it leaves. -/
theorem ediv_of_eq {a b q r : ℤ} (hb : 0 < b) (h : r + b * q = a) (h0 : 0 ≤ r) (h1 : r < b) :
    a / b = q := ((Int.ediv_emod_unique hb).mpr ⟨h, h0, h1⟩).1

/-- A day of an era lies in the year that its formula gives. -/
theorem dayOfEra_year {dayOfEra : ℤ} (h0 : 0 ≤ dayOfEra) (h1 : dayOfEra < 146097) :
    ∃ year dayOfYear : ℤ, (0 ≤ year ∧ year < 400) ∧ (0 ≤ dayOfYear ∧ dayOfYear ≤ 365) ∧
      (dayOfEra - dayOfEra / 1460 + dayOfEra / 36524 - dayOfEra / 146096) / 365 = year ∧
      dayOfEra - (365 * year + year / 4 - year / 100) = dayOfYear := by
  obtain ⟨c, q, s, dayOfYear, hc, hq, hs, hday, hleap, hlast, hsum⟩ := dayOfEra_split h0 h1
  have hcentury : dayOfEra / 36524 - dayOfEra / 146096 = c := by
    clear hleap
    rcases hlast with hlast | rfl
    · have hcentury : dayOfEra / 36524 = c := by omega
      have hera : dayOfEra / 146096 = 0 := by omega
      omega
    · omega
  obtain ⟨k, hk, hk0, hk1⟩ : ∃ k : ℤ, (0 ≤ 24 * c + q + 365 * s + dayOfYear - 1460 * k ∧
      24 * c + q + 365 * s + dayOfYear - 1460 * k < 1460) ∧ 0 ≤ dayOfYear - k ∧
      dayOfYear - k ≤ 364 := by
    clear hcentury hlast hsum h0 h1
    by_cases hlong : 24 * c + q + 365 * s + dayOfYear < 1460
    · exact ⟨0, by omega, by omega, by omega⟩
    · exact ⟨1, by omega, by omega, by omega⟩
  have hfour : dayOfEra / 1460 = 25 * c + q + k :=
    ediv_of_eq (by decide) (by linarith) hk.1 hk.2
  have hyear : (dayOfEra - dayOfEra / 1460 + dayOfEra / 36524 - dayOfEra / 146096) / 365 =
      100 * c + 4 * q + s := ediv_of_eq (by decide) (by linarith) hk0 (by linarith)
  have hleaps : (100 * c + 4 * q + s) / 4 = 25 * c + q :=
    ediv_of_eq (by decide) (by ring) hs.1 (by linarith)
  have hcenturies : (100 * c + 4 * q + s) / 100 = c :=
    ediv_of_eq (r := 4 * q + s) (by decide) (by ring) (by linarith) (by linarith)
  refine ⟨100 * c + 4 * q + s, dayOfYear, by omega, hday, hyear, ?_⟩
  rw [hleaps, hcenturies, hsum]
  ring

/-- The day number of a year, month and day. -/
def daysOfCivil (year month day : ℤ) : ℤ :=
  let shifted := year - if month ≤ 2 then 1 else 0
  let monthIndex := if month ≤ 2 then month + 9 else month - 3
  let yearOfEra := shifted % 400
  let dayOfYear := (153 * monthIndex + 2) / 5 + day - 1
  shifted / 400 * 146097 + (365 * yearOfEra + yearOfEra / 4 - yearOfEra / 100 + dayOfYear) - 719468

/-- A date gives its day number back, and its month and day are positive. -/
theorem daysOfCivil_civilOfDays (days : ℤ) :
    daysOfCivil (civilOfDays days).1 (civilOfDays days).2.1 (civilOfDays days).2.2 = days ∧
      0 < (civilOfDays days).2.1 ∧ 0 < (civilOfDays days).2.2 := by
  have h0 : 0 ≤ (days + 719468) % 146097 := by omega
  have h1 : (days + 719468) % 146097 < 146097 := by omega
  obtain ⟨yearOfEra, dayOfYear, hyears, hday, hyear, hrest⟩ := dayOfEra_year h0 h1
  simp only [civilOfDays, daysOfCivil, hyear, hrest]
  clear hyear
  generalize hera : (days + 719468) / 146097 = era
  have hshift : ∀ k : ℤ, (yearOfEra + era * 400 + k - k) / 400 = era ∧
      (yearOfEra + era * 400 + k - k) % 400 = yearOfEra := fun k => by omega
  have hmonth : 0 ≤ (5 * dayOfYear + 2) / 153 ∧ (5 * dayOfYear + 2) / 153 ≤ 11 := by omega
  rw [(hshift _).1, (hshift _).2]
  generalize hindex : (5 * dayOfYear + 2) / 153 = monthIndex at hmonth ⊢
  by_cases hlate : monthIndex < 10
  · have hmonths : ¬ monthIndex + 3 ≤ 2 := by omega
    simp only [hlate, if_true, hmonths, if_false]
    omega
  · have hmonths : monthIndex - 9 ≤ 2 := by omega
    simp only [hlate, if_true, hmonths, if_false]
    omega

theorem civilOfDays_inj {a b : ℤ} (h : civilOfDays a = civilOfDays b) : a = b := by
  rw [← (daysOfCivil_civilOfDays a).1, h, (daysOfCivil_civilOfDays b).1]

/-- The sign of a long year. -/
theorem yearText_cases (year : ℤ) :
    (0 ≤ year ∧ yearText year = padded 4 year.toNat) ∨
      (0 ≤ year ∧ yearText year = '+' :: padded 6 year.natAbs) ∨
      (year < 0 ∧ yearText year = '-' :: padded 6 year.natAbs) := by
  unfold yearText
  by_cases hshort : 0 ≤ year ∧ year ≤ 9999
  · rw [if_pos hshort]
    exact Or.inl ⟨hshort.1, rfl⟩
  · rw [if_neg hshort]
    by_cases hneg : year < 0
    · rw [if_pos hneg]
      exact Or.inr (Or.inr ⟨hneg, rfl⟩)
    · rw [if_neg hneg]
      exact Or.inr (Or.inl ⟨not_lt.mp hneg, rfl⟩)

/-- A padded number starts with a digit. -/
theorem padded_ne_cons {c : Char} {width n : ℕ} {rest tail : List Char} (hc : c.isDigit = false) :
    padded width n ++ rest ≠ c :: tail := by
  intro h
  have hdigits := isDigit_padded width n
  cases hpadded : padded width n with
  | nil => exact padded_ne_nil width n hpadded
  | cons c' cs =>
    rw [hpadded, List.cons_append] at h
    rw [hpadded, (List.cons.inj h).1, List.all_cons, hc] at hdigits
    simp at hdigits

/-- The year field can be told apart from what follows it. -/
theorem yearText_append_inj {year year' : ℤ} {rest rest' : List Char}
    (h : yearText year ++ '-' :: rest = yearText year' ++ '-' :: rest') :
    year = year' ∧ rest = rest' := by
  rcases yearText_cases year with ⟨hsign, htext⟩ | ⟨hsign, htext⟩ | ⟨hsign, htext⟩ <;>
    rcases yearText_cases year' with ⟨hsign', htext'⟩ | ⟨hsign', htext'⟩ | ⟨hsign', htext'⟩ <;>
    rw [htext, htext'] at h
  case inl.inl =>
    obtain ⟨hyear, hrest⟩ := padded_append_inj (by decide) h
    exact ⟨by omega, hrest⟩
  case inl.inr.inl => exact absurd h (padded_ne_cons (by decide))
  case inl.inr.inr => exact absurd h (padded_ne_cons (by decide))
  case inr.inl.inl => exact absurd h.symm (padded_ne_cons (by decide))
  case inr.inr.inl => exact absurd h.symm (padded_ne_cons (by decide))
  case inr.inl.inr.inr => simp at h
  case inr.inr.inr.inl => simp at h
  case inr.inl.inr.inl =>
    obtain ⟨hyear, hrest⟩ := padded_append_inj (by decide) (List.cons.inj h).2
    exact ⟨by omega, hrest⟩
  case inr.inr.inr.inr =>
    obtain ⟨hyear, hrest⟩ := padded_append_inj (by decide) (List.cons.inj h).2
    exact ⟨by omega, hrest⟩

/-- Two instants with one text are one instant. -/
theorem toISOString_inj {a b : ℤ} (h : toISOString a = toISOString b) : a = b := by
  have hlist := congrArg String.toList h
  obtain ⟨-, hmonth, hday⟩ := daysOfCivil_civilOfDays (a / 86400000)
  obtain ⟨-, hmonth', hday'⟩ := daysOfCivil_civilOfDays (b / 86400000)
  have hdays := civilOfDays_inj (a := a / 86400000) (b := b / 86400000)
  unfold toISOString at hlist
  generalize civilOfDays (a / 86400000) = date at hlist hmonth hday hdays
  generalize civilOfDays (b / 86400000) = date' at hlist hmonth' hday' hdays
  obtain ⟨y, m, d⟩ := date
  obtain ⟨y', m', d'⟩ := date'
  simp only [String.toList_ofList, List.append_assoc, List.cons_append] at hlist hmonth hday hmonth' hday'
  obtain ⟨hy, hmonths⟩ := yearText_append_inj hlist
  obtain ⟨hm, hdates⟩ := padded_append_inj (by decide) hmonths
  obtain ⟨hd, hhours⟩ := padded_append_inj (by decide) hdates
  obtain ⟨hhour, hminutes⟩ := padded_append_inj (by decide) hhours
  obtain ⟨hminute, hseconds⟩ := padded_append_inj (by decide) hminutes
  obtain ⟨hsecond, hmillis⟩ := padded_append_inj (by decide) hseconds
  obtain ⟨hmilli, -⟩ := padded_append_inj (by decide) hmillis
  obtain rfl := hy
  obtain rfl : m = m' := by omega
  obtain rfl : d = d' := by omega
  have hsame := hdays rfl
  omega

end LpPlatform.JsValues
