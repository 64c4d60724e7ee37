import Mathlib.Data.Nat.Size
import LpPlatform.JsValues

/-!
# Doubles and their decimal text

A finite double is a sign and a number of units, of which the least positive
double is one. Decimals are rounded to the nearest double, ties to even. The
text of a double is the shortest decimal that is rounded to it, in one of four
layouts, as `String` prints it; the reader takes the number grammar of JSON.
What is read back from the text of a double is the double, without the sign of
zero.
-/

namespace LpPlatform.BinaryDoubles

open DecimalText JsValues

/-- The binary places of the least positive double. -/
@[irreducible] def places : ℕ := 1074

/-- How many units are one. -/
def one : ℕ := 2 ^ places

/-- Decimal places enough to see the first digit of every double. -/
@[irreducible] def shift : ℕ := 400

/-- The distance of doubles with as many bits, 53 of which are significant. -/
def step (n : ℕ) : ℕ := 2 ^ (n.size - 53)

/-- The units are those of a finite double. -/
def representable (n : ℕ) : Bool := n % step n = 0 && n.size ≤ 2098

/-- A finite double, in units of 2 ^ -1074. -/
structure Double where
  /-- The sign, which zero has too. -/
  negative : Bool
  /-- How many units. -/
  units : ℕ
  /-- No more than 53 bits are significant, and the exponent is in range. -/
  fits : representable units = true
  deriving DecidableEq

/-- Zero without its sign. -/
def Double.plain (x : Double) : Double := ⟨x.negative && x.units ≠ 0, x.units, x.fits⟩

/-- The units nearest to a quotient of units, ties to even. -/
def nearest (n d : ℕ) : ℕ := roundHalfEven n (d * step (n / d)) * step (n / d)

/-- The units nearest to a decimal. -/
def ofDecimal (coefficient : ℕ) (exponent : ℤ) : ℕ :=
  if 0 ≤ exponent then nearest (coefficient * 10 ^ exponent.toNat * one) 1
  else nearest (coefficient * one) (10 ^ (-exponent).toNat)

/-- Some units as a quotient, in terms of a power of ten. -/
def quotient (units : ℕ) (power : ℤ) : ℕ × ℕ :=
  if 0 ≤ power then (units * 10 ^ power.toNat, one) else (units, one * 10 ^ (-power).toNat)

/-- How many digits stand before the point, negative for zeros after it. -/
@[irreducible] def magnitude (units : ℕ) : ℤ := (Nat.toDigits 10 (units * 10 ^ shift / one)).length - shift

/-- A coefficient of some digits as a decimal of that magnitude. One that is
too long is the least of the next magnitude. -/
def placed (magnitude : ℤ) (digits coefficient : ℕ) : ℕ × ℤ :=
  if coefficient = 10 ^ digits then (10 ^ (digits - 1), magnitude + 1 - digits)
  else (coefficient, magnitude - digits)

/-- The two integers next to a quotient, the nearest first. -/
def neighbours (pair : ℕ × ℕ) : List ℕ :=
  [roundHalfEven pair.1 pair.2, 2 * (pair.1 / pair.2) + 1 - roundHalfEven pair.1 pair.2]

/-- The closest decimal of some digits that is rounded to the units. -/
def digitsAt (units digits : ℕ) : Option (ℕ × ℤ) :=
  ((neighbours (quotient units (digits - magnitude units))).map (placed (magnitude units) digits)).find?
    fun decimal => ofDecimal decimal.1 decimal.2 = units

/-- The decimal with the fewest digits that is rounded to the units. -/
def shortest (units : ℕ) : ℕ × ℤ :=
  ((List.range (magnitude units + places).toNat).findSome? fun i => digitsAt units (i + 1)).getD (0, 0)

/-- Digits with a power of ten, in scientific notation. -/
def scientific (digits : List Char) (exponent : ℤ) : List Char :=
  digits.take 1 ++ (if digits.length = 1 then [] else '.' :: digits.drop 1) ++
    'e' :: (if exponent < 0 then '-' else '+') :: Nat.toDigits 10 exponent.natAbs

/-- Digits with a point after so many of them. -/
def layout (digits : List Char) (point : ℤ) : List Char :=
  if digits.length ≤ point ∧ point ≤ 21 then digits ++ List.replicate (point.toNat - digits.length) '0'
  else if 0 < point ∧ point ≤ 21 then digits.take point.toNat ++ '.' :: digits.drop point.toNat
  else if -6 < point ∧ point ≤ 0 then '0' :: '.' :: List.replicate (-point).toNat '0' ++ digits
  else scientific digits (point - 1)

/-- `String` of a finite double. -/
def Double.text (x : Double) : List Char :=
  if x.units = 0 then ['0']
  else
    let decimal := shortest x.units
    let digits := Nat.toDigits 10 decimal.1
    (if x.negative then ['-'] else []) ++ layout digits (digits.length + decimal.2)

/-- Digits under an optional sign. -/
def signedDigits? : List Char → Option ℤ
  | '-' :: cs => (digits? cs).map fun n => -(n : ℤ)
  | '+' :: cs => (digits? cs).map Int.ofNat
  | cs => (digits? cs).map Int.ofNat

/-- The digits after a point, if there is one. -/
def fraction? : List Char → Option (List Char)
  | [] => some []
  | _ :: cs => if (digits? cs).isSome then some cs else none

/-- The exponent after its letter, if there is one. -/
def exponent? : List Char → Option ℤ
  | [] => some 0
  | _ :: cs => signedDigits? cs

/-- A coefficient and an exponent, without a sign. -/
def decimal? (cs : List Char) : Option (ℕ × ℤ) := do
  let significand := cs.takeWhile fun c => c ≠ 'e' ∧ c ≠ 'E'
  let exponent ← exponent? (cs.dropWhile fun c => c ≠ 'e' ∧ c ≠ 'E')
  let whole := significand.takeWhile (· ≠ '.')
  let fraction ← fraction? (significand.dropWhile (· ≠ '.'))
  -- a leading zero stands alone
  if (digits? whole).isSome ∧ (whole.head? = some '0' → whole.length = 1) then
    some (Nat.ofDigitChars 10 (whole ++ fraction) 0, exponent - fraction.length)
  else none

/-- A double under a sign, unless it is out of range. -/
def double? (negative : Bool) (cs : List Char) : Option Double := do
  let (coefficient, exponent) ← decimal? cs
  if h : representable (ofDecimal coefficient exponent) = true then
    some ⟨negative, ofDecimal coefficient exponent, h⟩
  else none

/-- The number grammar of JSON. -/
def number? : List Char → Option Double
  | '-' :: cs => double? true cs
  | cs => double? false cs

section Rounding

variable {units coefficient digits : ℕ} {exponent : ℤ}

theorem places_le : shift + 1 ≤ places := by
  unfold shift places
  decide

theorem places_ne_zero : places ≠ 0 := by
  unfold places
  decide

/-- The exact expansion of a double has a digit. -/
theorem magnitude_places (units : ℕ) : ∃ k : ℕ, magnitude units + places = (k + 1 : ℕ) := by
  have hshift := places_le
  unfold magnitude
  generalize (Nat.toDigits 10 (units * 10 ^ shift / one)).length = length
  exact ⟨length + places - shift - 1, by omega⟩

theorem one_pos : 0 < one := Nat.pow_pos (by decide)

theorem step_pos (n : ℕ) : 0 < step n := Nat.pow_pos (by decide)

/-- A double is nearest to itself. -/
theorem nearest_exact (h : representable units = true) {d : ℕ} (hd : 0 < d) :
    nearest (units * d) d = units := by
  have hquot : units * d / d = units := Nat.mul_div_cancel units hd
  have hmod : units % step units = 0 := of_decide_eq_true (Bool.and_eq_true_iff.mp h).1
  have hsplit : units / step units * step units = units := Nat.div_mul_cancel (Nat.dvd_of_mod_eq_zero hmod)
  have hprod : units * d = units / step units * (d * step units) := by
    rw [Nat.mul_comm d, ← Nat.mul_assoc, hsplit]
  rw [nearest, hquot, hprod, roundHalfEven_exact _ _ (Nat.mul_pos hd (step_pos units)), hsplit]

/-- A decimal that is a double exactly is rounded to it. -/
theorem ofDecimal_exact (h : representable units = true) {m : ℕ}
    (hexact : coefficient * one = units * 10 ^ m) : ofDecimal coefficient (-(m : ℤ)) = units := by
  rcases Nat.eq_zero_or_pos m with rfl | hm
  · have hrounds := nearest_exact h (d := 1) (by decide)
    simpa [ofDecimal, hexact] using hrounds
  · have hnot : ¬ (0 : ℤ) ≤ -(m : ℤ) := by omega
    rw [ofDecimal, if_neg hnot, neg_neg, Int.toNat_natCast, hexact]
    exact nearest_exact h (Nat.pow_pos (by decide))

theorem ofDecimal_zero (exponent : ℤ) : ofDecimal 0 exponent = 0 := by
  simp [ofDecimal, nearest, roundHalfEven]

/-- So is the least decimal of the next magnitude. -/
theorem ofDecimal_placed (h : representable units = true) (magnitude : ℤ) {m : ℕ} (hdigits : 0 < digits)
    (hm : (digits : ℤ) - magnitude = (m + 1 : ℕ))
    (hexact : coefficient * one = units * 10 ^ (m + 1)) :
    ofDecimal (placed magnitude digits coefficient).1 (placed magnitude digits coefficient).2 = units := by
  unfold placed
  split
  · rename_i hlong
    have hexponent : magnitude + 1 - digits = -(m : ℤ) := by omega
    rw [hexponent]
    refine ofDecimal_exact h ?_
    obtain ⟨k, rfl⟩ : ∃ k, digits = k + 1 := ⟨digits - 1, by omega⟩
    rw [hlong, pow_succ, pow_succ] at hexact
    rw [Nat.add_sub_cancel]
    have hten : 10 ^ k * one * 10 = units * 10 ^ m * 10 := by linarith
    exact Nat.eq_of_mul_eq_mul_right (by decide) hten
  · have hexponent : magnitude - digits = -((m + 1 : ℕ) : ℤ) := by omega
    rw [hexponent]
    exact ofDecimal_exact h hexact

/-- What is found among the candidates is rounded to the units. -/
theorem digitsAt_rounds {decimal : ℕ × ℤ} (h : digitsAt units digits = some decimal) :
    ofDecimal decimal.1 decimal.2 = units := by
  rw [digitsAt] at h
  have hfound := List.find?_some h
  exact of_decide_eq_true hfound

/-- The exact expansion is a candidate. -/
theorem digitsAt_exact (h : representable units = true) (hdigits : (digits : ℤ) = magnitude units + places)
    (hpos : 0 < digits) : (digitsAt units digits).isSome = true := by
  obtain ⟨m, hm⟩ : ∃ m, places = m + 1 := Nat.exists_eq_succ_of_ne_zero places_ne_zero
  have hpower : (digits : ℤ) - magnitude units = (m + 1 : ℕ) := by omega
  have hdvd : one ∣ units * 10 ^ (m + 1) := by
    rw [one, hm]
    exact Dvd.dvd.mul_left (pow_dvd_pow_of_dvd (by decide) (m + 1)) units
  have hexact : units * 10 ^ (m + 1) / one * one = units * 10 ^ (m + 1) := Nat.div_mul_cancel hdvd
  have hnear : roundHalfEven (units * 10 ^ (m + 1)) one = units * 10 ^ (m + 1) / one := by
    have hround := roundHalfEven_exact (units * 10 ^ (m + 1) / one) one one_pos
    rwa [hexact] at hround
  have hrounds := ofDecimal_placed h (magnitude units) hpos hpower hexact
  have hquotient : quotient units (digits - magnitude units) = (units * 10 ^ (m + 1), one) := by
    rw [hpower, quotient, if_pos (Int.natCast_nonneg _), Int.toNat_natCast]
  rw [digitsAt, hquotient, neighbours, hnear, List.find?_isSome]
  exact ⟨_, List.mem_map_of_mem List.mem_cons_self, decide_eq_true hrounds⟩

/-- The shortest decimal of a double is rounded to it. -/
theorem shortest_rounds (h : representable units = true) :
    ofDecimal (shortest units).1 (shortest units).2 = units := by
  have hlast : ∃ decimal, ((List.range (magnitude units + places).toNat).findSome? fun i =>
      digitsAt units (i + 1)) = some decimal := by
    obtain ⟨k, hk⟩ := magnitude_places units
    have hsome := digitsAt_exact h hk.symm k.succ_pos
    refine Option.isSome_iff_exists.mp (List.findSome?_isSome_iff.mpr ⟨k, List.mem_range.mpr ?_, hsome⟩)
    rw [hk, Int.toNat_natCast]
    exact k.lt_succ_self
  obtain ⟨decimal, hfound⟩ := hlast
  obtain ⟨i, -, hdecimal⟩ := List.exists_of_findSome?_eq_some hfound
  rw [shortest, hfound, Option.getD_some]
  exact digitsAt_rounds hdecimal

end Rounding

section Reading

variable {whole fraction tail : List Char} {exponent : ℤ}

theorem isDigit_ne {c x : Char} (h : c.isDigit = true) (hx : x.isDigit = false) : c ≠ x := by
  rintro rfl
  simp [h] at hx

theorem digits?_some {cs : List Char} (hne : cs ≠ []) (h : ∀ c ∈ cs, c.isDigit = true) :
    digits? cs = some (Nat.ofDigitChars 10 cs 0) := by
  rw [digits?, if_pos ⟨hne, List.all_eq_true.mpr h⟩]

/-- A point and the digits after it, if there are any. -/
def pointed (fraction : List Char) : List Char := if fraction = [] then [] else '.' :: fraction

/-- A decimal is read part by part. -/
theorem decimal?_parts (hne : whole ≠ []) (hwhole : ∀ c ∈ whole, c.isDigit = true)
    (hzero : whole.head? = some '0' → whole.length = 1) (hfraction : ∀ c ∈ fraction, c.isDigit = true)
    (htail : tail = [] ∨ ∃ cs, tail = 'e' :: cs) (hexponent : exponent? tail = some exponent) :
    decimal? (whole ++ pointed fraction ++ tail) =
      some (Nat.ofDigitChars 10 (whole ++ fraction) 0, exponent - fraction.length) := by
  have hbefore : ∀ c ∈ whole ++ pointed fraction, decide (c ≠ 'e' ∧ c ≠ 'E') = true := by
    intro c hc
    have hcases : c.isDigit = true ∨ c = '.' := by
      rcases List.mem_append.mp hc with hc | hc
      · exact Or.inl (hwhole c hc)
      · unfold pointed at hc
        split at hc
        · simp at hc
        · exact (List.mem_cons.mp hc).symm.imp (hfraction c) id
    rcases hcases with hdigit | rfl
    · exact decide_eq_true ⟨isDigit_ne hdigit (by decide), isDigit_ne hdigit (by decide)⟩
    · decide
  have htake : (whole ++ pointed fraction ++ tail).takeWhile (fun c => decide (c ≠ 'e' ∧ c ≠ 'E')) =
      whole ++ pointed fraction := by
    rw [List.takeWhile_append_of_pos hbefore]
    rcases htail with rfl | ⟨cs, rfl⟩ <;> simp
  have hdrop : (whole ++ pointed fraction ++ tail).dropWhile (fun c => decide (c ≠ 'e' ∧ c ≠ 'E')) = tail := by
    rw [List.dropWhile_append_of_pos hbefore]
    rcases htail with rfl | ⟨cs, rfl⟩ <;> simp
  have hpoint : ∀ c ∈ whole, decide (c ≠ '.') = true := fun c hc =>
    decide_eq_true (isDigit_ne (hwhole c hc) (by decide))
  have hwholeTake : (whole ++ pointed fraction).takeWhile (fun c => decide (c ≠ '.')) = whole := by
    rw [List.takeWhile_append_of_pos hpoint, pointed]
    split <;> simp
  have hwholeDrop : (whole ++ pointed fraction).dropWhile (fun c => decide (c ≠ '.')) = pointed fraction := by
    rw [List.dropWhile_append_of_pos hpoint, pointed]
    split <;> simp
  have hfractionRead : fraction? (pointed fraction) = some fraction := by
    unfold pointed
    split
    · rename_i hnil
      rw [hnil]
      rfl
    · rename_i hsome
      rw [fraction?, digits?_some hsome hfraction]
      rfl
  have hvalid : (digits? whole).isSome = true ∧ (whole.head? = some '0' → whole.length = 1) := by
    rw [digits?_some hne hwhole]
    exact ⟨rfl, hzero⟩
  rw [decimal?]
  simp only [htake, hdrop, hexponent, hwholeTake, hwholeDrop, hfractionRead, Option.bind_eq_bind,
    Option.bind_some, if_pos hvalid]

end Reading

section Layouts

variable {digits : List Char} {coefficient : ℕ} {exponent : ℤ}

/-- The digits of a positive number. -/
structure Significand (digits : List Char) (coefficient : ℕ) : Prop where
  allDigits : ∀ c ∈ digits, c.isDigit = true
  value : Nat.ofDigitChars 10 digits 0 = coefficient
  leading : digits ≠ [] ∧ digits.head? ≠ some '0'

theorem significand_toDigits {n : ℕ} (h : 0 < n) : Significand (Nat.toDigits 10 n) n := by
  refine ⟨?_, Nat.ofDigitChars_ten_toDigits, Nat.toDigits_ne_nil, ?_⟩
  · exact digits?_all (digits?_toDigits n)
  · obtain ⟨c, cs, hdigits, hc⟩ := head_toDigits h
    rw [hdigits]
    simpa using hc

/-- A whole number in digits, with zeros added. -/
theorem decimal?_whole (h : Significand digits coefficient) (zeros : ℕ) :
    decimal? (digits ++ List.replicate zeros '0') = some (coefficient * 10 ^ zeros, 0) := by
  have hread := @decimal?_parts (digits ++ List.replicate zeros '0') [] [] 0 (by simp [h.leading.1]) ?_ ?_
    (by simp) (.inl rfl) rfl
  · rw [show digits ++ List.replicate zeros '0' ++ pointed [] ++ [] = digits ++ List.replicate zeros '0' by
      simp [pointed]] at hread
    rw [hread, List.append_nil, Nat.ofDigitChars_append, Nat.ofDigitChars_replicate_zero, h.value, Nat.mul_comm]
    rfl
  · intro c hc
    rcases List.mem_append.mp hc with hc | hc
    · exact h.allDigits c hc
    · rw [(List.mem_replicate.mp hc).2]
      decide
  · intro hzero
    rw [List.head?_append_of_ne_nil _ h.leading.1] at hzero
    exact absurd hzero h.leading.2

/-- Digits with a point among them. -/
theorem decimal?_pointed (h : Significand digits coefficient) {point : ℕ} (hpos : 0 < point)
    (hlt : point < digits.length) : decimal? (digits.take point ++ '.' :: digits.drop point) =
      some (coefficient, (point : ℤ) - digits.length) := by
  have hfraction : pointed (digits.drop point) = '.' :: digits.drop point :=
    if_neg (by simpa [List.drop_eq_nil_iff] using hlt)
  have hread := @decimal?_parts (digits.take point) (digits.drop point) [] 0
    (by simp [List.take_eq_nil_iff, h.leading.1, hpos.ne']) (fun c hc => h.allDigits c (List.mem_of_mem_take hc))
    ?_ (fun c hc => h.allDigits c (List.mem_of_mem_drop hc)) (.inl rfl) rfl
  · rw [hfraction, List.append_nil, List.take_append_drop, h.value, List.length_drop] at hread
    rw [hread]
    congr 2
    omega
  · intro hzero
    rw [List.head?_take, if_neg hpos.ne'] at hzero
    exact absurd hzero h.leading.2

/-- Digits behind zeros. -/
theorem decimal?_small (h : Significand digits coefficient) (zeros : ℕ) :
    decimal? ('0' :: '.' :: List.replicate zeros '0' ++ digits) =
      some (coefficient, -(zeros : ℤ) - digits.length) := by
  have hfraction : pointed (List.replicate zeros '0' ++ digits) = '.' :: (List.replicate zeros '0' ++ digits) :=
    if_neg (by simp [h.leading.1])
  have hread := @decimal?_parts ['0'] (List.replicate zeros '0' ++ digits) [] 0 (by simp) (by simp) (by simp)
    ?_ (.inl rfl) rfl
  · have hvalue : Nat.ofDigitChars 10 (['0'] ++ (List.replicate zeros '0' ++ digits)) 0 = coefficient := by
      rw [List.singleton_append, Nat.ofDigitChars_cons, Nat.ofDigitChars_append,
        Nat.ofDigitChars_replicate_zero]
      exact h.value
    rw [hfraction, List.append_nil, hvalue] at hread
    rw [List.cons_append, List.cons_append, ← List.singleton_append, hread, List.length_append, List.length_replicate]
    congr 2
    omega
  · intro c hc
    rcases List.mem_append.mp hc with hc | hc
    · rw [(List.mem_replicate.mp hc).2]
      decide
    · exact h.allDigits c hc

/-- An exponent is read back. -/
theorem exponent?_text (exponent : ℤ) :
    exponent? ('e' :: (if exponent < 0 then '-' else '+') :: Nat.toDigits 10 exponent.natAbs) = some exponent := by
  rw [exponent?]
  split
  · rename_i hneg
    have hexact : -(exponent.natAbs : ℤ) = exponent := by omega
    rw [signedDigits?, digits?_toDigits]
    exact congrArg some hexact
  · rename_i hnonneg
    rw [signedDigits?, digits?_toDigits]
    exact congrArg some (Int.natAbs_of_nonneg (not_lt.mp hnonneg))

/-- Digits in scientific notation. -/
theorem decimal?_scientific (h : Significand digits coefficient) (exponent : ℤ) :
    decimal? (scientific digits exponent) = some (coefficient, exponent + 1 - digits.length) := by
  have hlength : 0 < digits.length := List.length_pos_iff.mpr h.leading.1
  have hfraction : pointed (digits.drop 1) = if digits.length = 1 then [] else '.' :: digits.drop 1 := by
    unfold pointed
    by_cases hone : digits.length = 1
    · rw [if_pos hone, if_pos (List.drop_eq_nil_iff.mpr hone.le)]
    · rw [if_neg hone, if_neg (by rw [List.drop_eq_nil_iff]; omega)]
  have hread := @decimal?_parts (digits.take 1) (digits.drop 1)
    ('e' :: (if exponent < 0 then '-' else '+') :: Nat.toDigits 10 exponent.natAbs) exponent
    (by simp [List.take_eq_nil_iff, h.leading.1]) (fun c hc => h.allDigits c (List.mem_of_mem_take hc))
    ?_ (fun c hc => h.allDigits c (List.mem_of_mem_drop hc)) (.inr ⟨_, rfl⟩) (exponent?_text exponent)
  · rw [hfraction, List.take_append_drop, h.value, List.length_drop] at hread
    rw [scientific, hread]
    congr 2
    omega
  · intro hzero
    rw [List.head?_take, if_neg (by decide)] at hzero
    exact absurd hzero h.leading.2

/-- Whatever the layout, what is read is rounded like the digits and their
exponent. -/
theorem decimal?_layout (h : Significand digits coefficient) (exponent : ℤ) :
    ∃ decimal, decimal? (layout digits (digits.length + exponent)) = some decimal ∧
      ofDecimal decimal.1 decimal.2 = ofDecimal coefficient exponent := by
  have hlength : 0 < digits.length := List.length_pos_iff.mpr h.leading.1
  unfold layout
  split
  · rename_i hwhole
    obtain ⟨zeros, rfl⟩ : ∃ zeros : ℕ, exponent = zeros := Int.eq_ofNat_of_zero_le (by omega)
    have hcount : ((digits.length : ℤ) + zeros).toNat - digits.length = zeros := by omega
    refine ⟨_, by rw [hcount]; exact decimal?_whole h zeros, ?_⟩
    simp [ofDecimal]
  · split
    · rename_i hpoint
      obtain ⟨point, hp⟩ : ∃ point : ℕ, (digits.length : ℤ) + exponent = point := Int.eq_ofNat_of_zero_le (by omega)
      refine ⟨_, by rw [hp, Int.toNat_natCast]; exact decimal?_pointed h (by omega) (by omega), ?_⟩
      congr 1
      omega
    · split
      · rename_i hsmall
        obtain ⟨zeros, hz⟩ : ∃ zeros : ℕ, -((digits.length : ℤ) + exponent) = zeros :=
          Int.eq_ofNat_of_zero_le (by omega)
        refine ⟨_, by rw [hz, Int.toNat_natCast]; exact decimal?_small h zeros, ?_⟩
        congr 1
        omega
      · refine ⟨_, decimal?_scientific h _, ?_⟩
        congr 1
        omega

/-- No decimal starts with a sign. -/
theorem decimal?_minus (cs : List Char) : decimal? ('-' :: cs) = none := by
  have hwhole : (('-' :: cs).takeWhile (fun c => decide (c ≠ 'e' ∧ c ≠ 'E'))).takeWhile (fun c => decide (c ≠ '.')) =
      '-' :: (cs.takeWhile (fun c => decide (c ≠ 'e' ∧ c ≠ 'E'))).takeWhile (fun c => decide (c ≠ '.')) := by
    simp
  have hnone : ∀ rest : List Char, digits? ('-' :: rest) = none := fun rest => by simp [digits?]
  rw [decimal?]
  simp only [hwhole, hnone, Option.isSome_none, Bool.false_eq_true, false_and, if_false]
  simp

/-- What is rounded to a double is read as it. -/
theorem double?_rounds {negative : Bool} {cs : List Char} {decimal : ℕ × ℤ} {units : ℕ}
    (hdecimal : decimal? cs = some decimal) (h : ofDecimal decimal.1 decimal.2 = units)
    (hfits : representable units = true) : double? negative cs = some ⟨negative, units, hfits⟩ := by
  subst h
  rw [double?, hdecimal]
  exact dif_pos hfits

/-- Zero is a double. -/
theorem zero_fits : representable 0 = true := by decide

/-- The sign of a double other than zero stays. -/
theorem plain_of_ne {x : Double} (h : x.units ≠ 0) : x.plain = x := by
  obtain ⟨negative, units, fits⟩ := x
  simp [Double.plain, h]

/-- The sign of zero is not in the text. -/
theorem Double.text_plain (x : Double) : x.plain.text = x.text := by
  by_cases hzero : x.units = 0
  · have hplain : x.plain.units = 0 := hzero
    rw [Double.text, Double.text, if_pos hplain, if_pos hzero]
  · rw [plain_of_ne hzero]

/-- A text without a sign is read as it is. -/
theorem number?_unsigned {cs : List Char} {decimal : ℕ × ℤ} (h : decimal? cs = some decimal) :
    number? cs = double? false cs := by
  unfold number?
  split
  · rw [decimal?_minus] at h
    simp at h
  · rfl

/-- A text under the sign of a double. -/
theorem number?_signed {x : Double} {cs : List Char} {decimal : ℕ × ℤ} (hdecimal : decimal? cs = some decimal)
    (h : ofDecimal decimal.1 decimal.2 = x.units) :
    number? ((if x.negative then ['-'] else []) ++ cs) = some x := by
  obtain ⟨negative, units, fits⟩ := x
  have hread := fun negative => @double?_rounds negative _ _ _ hdecimal h fits
  cases negative with
  | true => exact hread true
  | false => exact (number?_unsigned hdecimal).trans (hread false)

/-- The shortest decimal of a double other than zero is not zero. -/
theorem shortest_pos {units : ℕ} (h : representable units = true) (hne : units ≠ 0) : 0 < (shortest units).1 := by
  have hrounds := shortest_rounds h
  generalize shortest units = decimal at hrounds ⊢
  refine Nat.pos_of_ne_zero fun hnone => hne ?_
  rw [hnone, ofDecimal_zero] at hrounds
  exact hrounds.symm

/-- The text of a double is read as the double, without the sign of zero. -/
theorem number?_text (x : Double) : number? x.text = some x.plain := by
  by_cases hzero : x.units = 0
  · have hdecimal : decimal? ['0'] = some (0, 0) := by decide
    have hread : double? false ['0'] = some ⟨false, 0, zero_fits⟩ :=
      double?_rounds hdecimal (ofDecimal_zero 0) zero_fits
    have hplain : x.plain = ⟨false, 0, zero_fits⟩ := by
      simp [Double.plain, hzero]
    rw [Double.text, if_pos hzero, hplain]
    exact hread
  · have hrounds := shortest_rounds x.fits
    have hpos := shortest_pos x.fits hzero
    rw [Double.text, if_neg hzero, plain_of_ne hzero]
    generalize shortest x.units = pair at hrounds hpos
    obtain ⟨decimal, hdecimal, hsame⟩ := decimal?_layout (significand_toDigits hpos) pair.2
    exact number?_signed hdecimal (hsame.trans hrounds)

/-- A character of a number. -/
def isNumberChar (c : Char) : Bool := c.isDigit || c = '+' || c = '-' || c = '.' || c = 'e'

theorem isNumberChar_digit {c : Char} (h : c.isDigit = true) : isNumberChar c = true := by simp [isNumberChar, h]

/-- Digits in scientific notation are characters of numbers. -/
theorem scientific_chars (h : ∀ c ∈ digits, c.isDigit = true) (exponent : ℤ) :
    ∀ c ∈ scientific digits exponent, isNumberChar c = true := by
  intro c hc
  rw [scientific, List.append_assoc, List.mem_append, List.mem_append] at hc
  rcases hc with hc | hc | hc
  · exact isNumberChar_digit (h c (List.mem_of_mem_take hc))
  · split at hc
    · simp at hc
    · rcases List.mem_cons.mp hc with rfl | hc
      · rfl
      · exact isNumberChar_digit (h c (List.mem_of_mem_drop hc))
  · rcases List.mem_cons.mp hc with rfl | hc
    · rfl
    · rcases List.mem_cons.mp hc with rfl | hc
      · split <;> rfl
      · exact isNumberChar_digit (digits?_all (digits?_toDigits _) c hc)

/-- So they are in every layout. -/
theorem layout_chars (h : ∀ c ∈ digits, c.isDigit = true) (point : ℤ) :
    ∀ c ∈ layout digits point, isNumberChar c = true := by
  have hzeros : ∀ n : ℕ, ∀ c ∈ List.replicate n '0', isNumberChar c = true := fun n c hc =>
    (List.mem_replicate.mp hc).2 ▸ rfl
  intro c hc
  unfold layout at hc
  split at hc
  · rcases List.mem_append.mp hc with hc | hc
    · exact isNumberChar_digit (h c hc)
    · exact hzeros _ c hc
  · split at hc
    · rcases List.mem_append.mp hc with hc | hc
      · exact isNumberChar_digit (h c (List.mem_of_mem_take hc))
      · rcases List.mem_cons.mp hc with rfl | hc
        · rfl
        · exact isNumberChar_digit (h c (List.mem_of_mem_drop hc))
    · split at hc
      · rcases List.mem_append.mp hc with hc | hc
        · rcases List.mem_cons.mp hc with rfl | hc
          · rfl
          · rcases List.mem_cons.mp hc with rfl | hc
            · rfl
            · exact hzeros _ c hc
        · exact isNumberChar_digit (h c hc)
      · exact scientific_chars h _ c hc

/-- The text of a double has characters of numbers only. -/
theorem text_chars (x : Double) : ∀ c ∈ x.text, isNumberChar c = true := by
  intro c hc
  unfold Double.text at hc
  split at hc
  · rw [List.mem_singleton.mp hc]
    rfl
  · rcases List.mem_append.mp hc with hc | hc
    · split at hc
      · rw [List.mem_singleton.mp hc]
        rfl
      · simp at hc
    · exact layout_chars (digits?_all (digits?_toDigits _)) _ c hc

/-- And it has one. -/
theorem text_ne_nil (x : Double) : x.text ≠ [] := by
  intro h
  have hread := number?_text x
  have hnone : number? [] = none := by decide
  rw [h, hnone] at hread
  simp at hread

end Layouts

end LpPlatform.BinaryDoubles
