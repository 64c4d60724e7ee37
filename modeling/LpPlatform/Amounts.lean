import Mathlib.Tactic.FieldSimp
import Mathlib.Tactic.Linarith
import Mathlib.Tactic.NormNum
import Mathlib.Tactic.Positivity
import Mathlib.Tactic.Ring
import LpPlatform.JsValues

/-!
# Money and database numerics

`Money` is a decimal in lowest terms: a sign, a coefficient and a scale with
no trailing zero after the point. It prints canonically, so its text never
ends in a zero after the point. A `NUMERIC(20,4)` column holds an integer
number of ten-thousandths below a bound; text is rounded half away from zero
on insert and printed with exactly four decimals.
-/

namespace LpPlatform.Amounts

open DecimalText JsValues

/-- A decimal in lowest terms. -/
structure Money where
  /-- The sign, which zero has too. -/
  negative : Bool
  /-- The significant digits. -/
  coefficient : ℕ
  /-- Digits after the point. -/
  scale : ℕ
  /-- No trailing zero stands after the point. -/
  normal : scale = 0 ∨ coefficient % 10 ≠ 0
  deriving DecidableEq

/-- Drop trailing zeros after the point. -/
def stripZeros : ℕ → ℕ → ℕ × ℕ
  | c, 0 => (c, 0)
  | c, s + 1 => if c % 10 = 0 then stripZeros (c / 10) s else (c, s + 1)

theorem stripZeros_normal (c s : ℕ) :
    (stripZeros c s).2 = 0 ∨ (stripZeros c s).1 % 10 ≠ 0 := by
  induction s generalizing c with
  | zero => exact Or.inl rfl
  | succ s ih =>
    by_cases hc : c % 10 = 0
    · simpa [stripZeros, hc] using ih (c / 10)
    · simp [stripZeros, hc]

/-- Dropping trailing zeros keeps the value. -/
theorem stripZeros_value (c s : ℕ) :
    (stripZeros c s).2 ≤ s ∧ (stripZeros c s).1 * 10 ^ (s - (stripZeros c s).2) = c := by
  induction s generalizing c with
  | zero => simp [stripZeros]
  | succ s ih =>
    by_cases hc : c % 10 = 0
    · have hle := (ih (c / 10)).1
      have hval := (ih (c / 10)).2
      have hdiv : c / 10 * 10 = c := by omega
      simp only [stripZeros, hc, if_true]
      refine ⟨by omega, ?_⟩
      rw [Nat.succ_sub hle, pow_succ, ← Nat.mul_assoc, hval, hdiv]
    · simp [stripZeros, hc]

/-- The decimal a literal stands for. -/
def ofLiteral (l : Literal) : Money :=
  ⟨l.negative, (stripZeros l.coefficient l.scale).1, (stripZeros l.coefficient l.scale).2,
    stripZeros_normal l.coefficient l.scale⟩

/-- `new Money` of a string. -/
def Money.new (input : String) : Except Failure Money :=
  match literal? (trim input.toList) with
  | some l => .ok (ofLiteral l)
  | none => .error (.typeError s!"Money: invalid decimal string: {quote input}")

/-- No money. -/
def Money.zero : Money := ⟨false, 0, 0, Or.inl rfl⟩

/-- `new Money` of an integer number. -/
def Money.ofNat (n : ℕ) : Money := ⟨false, n, 0, Or.inl rfl⟩

/-- `new Money` of any value that may stand in a JSON payload. -/
def Money.ofJson : Option Json → Except Failure Money
  | some (.str s) => Money.new s
  | some (.num n) =>
    if n.value.den = 1 then
      .ok (ofLiteral ⟨decide (n.value < 0), n.value.num.natAbs, 0⟩)
    else .error (.typeError (s!"Money: refusing fractional Number {n.text}" ++
      " — pass a string to preserve precision"))
  | some (.bool _) => .error (.typeError "Money: unsupported input type: boolean")
  | some _ => .error (.typeError "Money: unsupported input type: object")
  | none => .error (.typeError "Money: unsupported input type: undefined")

/-- The rational a decimal stands for. -/
def Money.value (m : Money) : ℚ := litValue ⟨m.negative, m.coefficient, m.scale⟩

/-- A decimal rounded to forty significant digits, ties to even. The quotient
of two naturals stands over a power of ten; a nonzero remainder breaks ties. -/
def roundDigits (negative : Bool) (n d scale : ℕ) : Money :=
  let digits := (Nat.toDigits 10 (n / d)).length
  let drop := digits - 40
  let coefficient := roundHalfEven n (d * 10 ^ drop)
  if drop ≤ scale then ofLiteral ⟨negative, coefficient, scale - drop⟩
  else ofLiteral ⟨negative, coefficient * 10 ^ (drop - scale), 0⟩

/-- The product, to forty digits. -/
def Money.mul (a b : Money) : Money :=
  roundDigits (a.negative != b.negative) (a.coefficient * b.coefficient) 1 (a.scale + b.scale)

/-- The quotient, to forty digits. -/
def Money.div (a b : Money) : Except Failure Money :=
  if b.coefficient = 0 then .error (.rangeError "Money: division by zero")
  else
    let n := a.coefficient * 10 ^ b.scale
    let d := b.coefficient * 10 ^ a.scale
    -- enough digits that the quotient has more than forty of them
    let shift := 41 + (Nat.toDigits 10 d).length
    .ok (roundDigits (a.negative != b.negative) (n * 10 ^ shift) d shift)

/-- A natural number under a sign. -/
def signed (negative : Bool) (n : ℕ) : ℤ := if negative then -(n : ℤ) else n

/-- The sum, to forty digits. A zero is negative only as a sum of two negative
ones. -/
def Money.add (a b : Money) : Money :=
  let scale := max a.scale b.scale
  let sum := signed a.negative (a.coefficient * 10 ^ (scale - a.scale)) +
    signed b.negative (b.coefficient * 10 ^ (scale - b.scale))
  let negative := sum < 0 || (sum = 0 && (a.negative && b.negative))
  roundDigits negative sum.natAbs 1 scale

/-- The decimal with the other sign. -/
def Money.neg (m : Money) : Money := { m with negative := !m.negative }

/-- The difference, to forty digits. -/
def Money.sub (a b : Money) : Money := a.add b.neg

/-- The decimal without its sign. -/
def Money.abs (m : Money) : Money := { m with negative := false }

/-- Rounded to some decimals, ties to even. -/
def Money.round (m : Money) (decimals : ℕ) : Money :=
  if m.scale ≤ decimals then m
  else ofLiteral ⟨m.negative, roundHalfEven m.coefficient (10 ^ (m.scale - decimals)), decimals⟩

/-- Whether the first is smaller. -/
def Money.lt (a b : Money) : Bool := a.value < b.value

/-- Whether the first is greater. -/
def Money.gt (a b : Money) : Bool := b.value < a.value

/-- Whether the value is zero. -/
def Money.isZero (m : Money) : Bool := m.coefficient = 0

/-- Whether the value is below zero. -/
def Money.isNegative (m : Money) : Bool := m.negative && !m.isZero

/-- Whether the value is above zero. -/
def Money.isPositive (m : Money) : Bool := !m.negative && !m.isZero

/-- Canonical text. -/
def Money.toString (m : Money) : String :=
  String.ofList (Literal.fixed ⟨m.isNegative, m.coefficient, m.scale⟩)

/-- `Money.fromPaise` of an integer number. -/
def Money.fromPaise (paise : ℕ) : Except Failure Money := (Money.ofNat paise).div (Money.ofNat 100)

/-- Digits, with up to four decimals. -/
def isAmount (text : String) : Bool :=
  match unsigned? false text.toList with
  | some l => l.scale ≤ 4
  | none => false

theorem litValue_ofLiteral (l : Literal) : (ofLiteral l).value = litValue l := by
  have hle := (stripZeros_value l.coefficient l.scale).1
  have hval := (stripZeros_value l.coefficient l.scale).2
  have hcast : ((stripZeros l.coefficient l.scale).1 : ℚ) *
      10 ^ (l.scale - (stripZeros l.coefficient l.scale).2) = l.coefficient := by
    exact_mod_cast hval
  have hpow : (10 : ℚ) ^ l.scale = 10 ^ (l.scale - (stripZeros l.coefficient l.scale).2) *
      10 ^ (stripZeros l.coefficient l.scale).2 := by
    rw [← pow_add, Nat.sub_add_cancel hle]
  simp only [Money.value, ofLiteral, litValue]
  rw [← hcast, hpow]
  field_simp
  exact mul_comm _ _

/-- The threshold is exact when the paise have at most forty digits. -/
theorem fromPaise_value {paise : ℕ} (h : paise < 10 ^ 40) :
    ∃ t, Money.fromPaise paise = .ok t ∧ t.value = (paise : ℚ) / 100 := by
  have hshift : 41 + (Nat.toDigits 10 100).length = 44 := by decide
  have hsplit : paise * 10 ^ 44 = paise * 10 ^ 42 * 100 := by
    rw [Nat.mul_assoc]
    norm_num
  have hquot : paise * 10 ^ 44 / 100 = paise * 10 ^ 42 := by
    rw [hsplit, Nat.mul_div_cancel _ (by decide)]
  have hsmall : paise * 10 ^ 42 < 10 ^ 82 := by
    calc paise * 10 ^ 42 < 10 ^ 40 * 10 ^ 42 := Nat.mul_lt_mul_of_pos_right h (by positivity)
      _ = 10 ^ 82 := by norm_num
  have hlen : (Nat.toDigits 10 (paise * 10 ^ 42)).length ≤ 82 :=
    (Nat.length_toDigits_le_iff (by decide) (by decide)).mpr hsmall
  have hdrop : (Nat.toDigits 10 (paise * 10 ^ 42)).length - 40 ≤ 42 := by omega
  have hdiv : Money.fromPaise paise = .ok (roundDigits false (paise * 10 ^ 44) 100 44) := by
    simp only [Money.fromPaise, Money.div, Money.ofNat, Nat.reduceEqDiff, if_false, pow_zero,
      Nat.mul_one, hshift, bne_self_eq_false]
  refine ⟨_, hdiv, ?_⟩
  simp only [roundDigits, hquot]
  generalize (Nat.toDigits 10 (paise * 10 ^ 42)).length - 40 = drop at hdrop ⊢
  have hexact : roundHalfEven (paise * 10 ^ 44) (100 * 10 ^ drop) = paise * 10 ^ (42 - drop) := by
    have hprod : paise * 10 ^ 44 = paise * 10 ^ (42 - drop) * (100 * 10 ^ drop) := by
      rw [hsplit, ← Nat.sub_add_cancel hdrop, pow_add, Nat.sub_add_cancel hdrop]
      ring
    rw [hprod, roundHalfEven_exact _ _ (by positivity)]
  rw [if_pos (by omega), hexact, litValue_ofLiteral]
  have hpow : (10 : ℚ) ^ (44 - drop) = 10 ^ (42 - drop) * 100 := by
    rw [show 44 - drop = 42 - drop + 2 by omega, pow_add]
    norm_num
  simp only [litValue, Bool.false_eq_true, if_false, one_mul, hpow]
  push_cast
  field_simp

/-- A `NUMERIC(20,4)` value. -/
structure Numeric where
  /-- Ten-thousandths. -/
  units : ℤ
  /-- Sixteen digits before the point and four after it. -/
  bound : units.natAbs < 10 ^ 20
  deriving DecidableEq

/-- One. -/
def Numeric.one : Numeric := ⟨10000, by decide⟩

/-- One hundred. -/
def Numeric.hundred : Numeric := ⟨1000000, by decide⟩

/-- Ten-thousandths of a literal, half away from zero. -/
def roundUnits (l : Literal) : ℕ :=
  if l.scale ≤ 4 then l.coefficient * 10 ^ (4 - l.scale)
  else (2 * l.coefficient + 10 ^ (l.scale - 4)) / (2 * 10 ^ (l.scale - 4))

theorem natAbs_signed (negative : Bool) (n : ℕ) : (signed negative n).natAbs = n := by
  cases negative <;> simp [signed]

theorem signed_natAbs (x : ℤ) : signed (decide (x < 0)) x.natAbs = x := by
  by_cases hneg : x < 0
  · simp only [signed, hneg, decide_true, if_true]
    omega
  · simp only [signed, hneg, decide_false, Bool.false_eq_true, if_false]
    omega

/-- Text inserted into the column. -/
def Numeric.insert (text : String) : Except Failure Numeric :=
  match literal? text.toList with
  | none => .error (.database s!"invalid input syntax for type numeric: {quote text}")
  | some l =>
    if h : roundUnits l < 10 ^ 20 then
      .ok ⟨signed l.negative (roundUnits l), by rw [natAbs_signed]; exact h⟩
    else .error (.database "numeric field overflow")

/-- The column as text, always with four decimals. -/
def Numeric.text (x : Numeric) : String :=
  String.ofList (Literal.fixed ⟨decide (x.units < 0), x.units.natAbs, 4⟩)

/-- The rational a column value stands for. -/
def Numeric.value (x : Numeric) : ℚ := (x.units : ℚ) / 10000

/-- Four decimals of an integer number of ten-thousandths. -/
theorem litValue_units (units : ℤ) :
    litValue ⟨decide (units < 0), units.natAbs, 4⟩ = (units : ℚ) / 10000 := by
  have hsigned : (signed (decide (units < 0)) units.natAbs : ℚ) = units := by
    rw [signed_natAbs]
  simp only [litValue, signed] at hsigned ⊢
  rw [← hsigned]
  by_cases hneg : units < 0
  · simp only [hneg, decide_true, if_true]
    push_cast
    norm_num
  · simp only [hneg, decide_false, Bool.false_eq_true, if_false]
    push_cast
    norm_num

/-- Column text inserts as the value it came from. -/
theorem insert_text (x : Numeric) : Numeric.insert x.text = .ok x := by
  obtain ⟨units, bound⟩ := x
  have hround : roundUnits ⟨decide (units < 0), units.natAbs, 4⟩ = units.natAbs := by
    simp [roundUnits]
  simp only [Numeric.insert, Numeric.text, String.toList_ofList, literal?_fixed]
  rw [dif_pos (by rw [hround]; exact bound)]
  simp only [hround, signed_natAbs]

/-- A text with at most four decimals is stored as it stands. -/
theorem insert_value {text : String} {l : Literal} {x : Numeric} (hl : literal? text.toList = some l)
    (hs : l.scale ≤ 4) (h : Numeric.insert text = .ok x) : x.value = litValue l := by
  have hround : roundUnits l = l.coefficient * 10 ^ (4 - l.scale) := by simp [roundUnits, hs]
  simp only [Numeric.insert, hl] at h
  split at h
  · obtain rfl := Except.ok.inj h
    have hpow : (10000 : ℚ) = 10 ^ (4 - l.scale) * 10 ^ l.scale := by
      rw [← pow_add, Nat.sub_add_cancel hs]
      norm_num
    simp only [Numeric.value, hround, litValue, hpow]
    cases l.negative <;> simp only [signed] <;> push_cast <;> field_simp
  · simp at h

/-- Canonical text reads back as the decimal, without the sign of zero. -/
theorem literal?_toString (m : Money) :
    literal? m.toString.toList = some ⟨m.isNegative, m.coefficient, m.scale⟩ := by
  rw [Money.toString, String.toList_ofList, literal?_fixed]

theorem litValue_isNegative (m : Money) :
    litValue ⟨m.isNegative, m.coefficient, m.scale⟩ = m.value := by
  by_cases hz : m.coefficient = 0
  · simp [Money.value, litValue, hz]
  · simp [Money.value, litValue, Money.isNegative, Money.isZero, hz]

/-- Canonical text with at most four decimals is stored with its value. -/
theorem insert_toString {m : Money} {x : Numeric} (hs : m.scale ≤ 4)
    (h : Numeric.insert m.toString = .ok x) : x.value = m.value :=
  (insert_value (literal?_toString m) hs h).trans (litValue_isNegative m)

theorem new_of_literal {text : String} {l : Literal} (h : literal? text.toList = some l) :
    Money.new text = .ok (ofLiteral l) := by
  rw [Money.new, trim_literal h, h]

/-- An amount is a literal without a sign. -/
theorem isAmount_literal {text : String} (h : isAmount text = true) :
    ∃ l, literal? text.toList = some l ∧ l.negative = false ∧ l.scale ≤ 4 := by
  simp only [isAmount] at h
  split at h
  · rename_i l hl
    have hneg : l.negative = false := by
      simp only [unsigned?] at hl
      split at hl
      · obtain ⟨n, _, rfl⟩ := Option.map_eq_some_iff.mp hl
        rfl
      · obtain ⟨whole, _, hrest⟩ := Option.bind_eq_some_iff.mp hl
        obtain ⟨part, _, rfl⟩ := Option.map_eq_some_iff.mp hrest
        rfl
    have hnodash : ∀ cs, text.toList ≠ '-' :: cs := by
      intro cs hcs
      have hdash := unsigned?_chars hl '-' (by simp [hcs])
      simp [Char.isDigit] at hdash
    refine ⟨l, ?_, hneg, of_decide_eq_true h⟩
    rw [literal?.eq_2 _ hnodash, hl]
  · simp at h

theorem scale_ofLiteral (l : Literal) : (ofLiteral l).scale ≤ l.scale :=
  (stripZeros_value l.coefficient l.scale).1

/-- Canonical text is read back with its value. -/
theorem new_toString (m : Money) :
    ∃ m', Money.new m.toString = .ok m' ∧ m'.value = m.value ∧ m'.scale ≤ m.scale :=
  ⟨_, new_of_literal (literal?_toString m), (litValue_ofLiteral _).trans (litValue_isNegative m),
    scale_ofLiteral _⟩

/-- The number a decimal text stands for. -/
def textValue (text : String) : Option ℚ := (literal? text.toList).map litValue

/-- What inserting a literal stores. -/
theorem insert_ok {text : String} {x : Numeric} (h : Numeric.insert text = .ok x) :
    ∃ l, literal? text.toList = some l ∧ x.units = signed l.negative (roundUnits l) := by
  simp only [Numeric.insert] at h
  split at h
  · simp at h
  · rename_i l hl
    split at h
    · obtain rfl := Except.ok.inj h
      exact ⟨l, hl, rfl⟩
    · simp at h

/-- The magnitude of a literal, in ten-thousandths. -/
def litUnits (l : Literal) : ℚ := (l.coefficient : ℚ) * 10000 / 10 ^ l.scale

theorem litUnits_nonneg (l : Literal) : 0 ≤ litUnits l := by unfold litUnits; positivity

theorem litValue_litUnits (l : Literal) :
    litValue l = (if l.negative then -1 else 1) * litUnits l / 10000 := by
  rw [litValue, litUnits]
  field_simp

/-- Rounding is to the nearest, half up: the magnitude lies half a unit around it. -/
theorem roundUnits_bounds (l : Literal) :
    (roundUnits l : ℚ) - 1 / 2 ≤ litUnits l ∧ litUnits l < roundUnits l + 1 / 2 := by
  by_cases hs : l.scale ≤ 4
  · have hpow : (10000 : ℚ) = 10 ^ (4 - l.scale) * 10 ^ l.scale := by
      rw [← pow_add, Nat.sub_add_cancel hs]
      norm_num
    have hexact : litUnits l = (roundUnits l : ℚ) := by
      rw [litUnits, roundUnits, if_pos hs, hpow]
      push_cast
      field_simp
    rw [hexact]
    constructor <;> linarith
  · have hk : (10 : ℚ) ^ l.scale = 10000 * (10 ^ (l.scale - 4) : ℕ) := by
      rw [show l.scale = l.scale - 4 + 4 by omega, pow_add]
      push_cast
      norm_num
      ring
    have hround : roundUnits l =
        (2 * l.coefficient + 10 ^ (l.scale - 4)) / (2 * 10 ^ (l.scale - 4)) := by
      rw [roundUnits, if_neg hs]
    have hp : 0 < 10 ^ (l.scale - 4) := Nat.pow_pos (by decide)
    rw [litUnits, hround, hk]
    generalize 10 ^ (l.scale - 4) = p at hp
    have hlow := Nat.div_mul_le_self (2 * l.coefficient + p) (2 * p)
    have hhigh := Nat.lt_div_mul_add (a := 2 * l.coefficient + p) (b := 2 * p) (by omega)
    generalize (2 * l.coefficient + p) / (2 * p) = q at hlow hhigh
    have hpq : (0 : ℚ) < p := by exact_mod_cast hp
    have hcancel : (l.coefficient : ℚ) * 10000 / (10000 * p) = l.coefficient / p := by field_simp
    have hlow' : (q : ℚ) * (2 * p) ≤ 2 * l.coefficient + p := by exact_mod_cast hlow
    have hhigh' : (2 * l.coefficient + p : ℚ) < q * (2 * p) + 2 * p := by exact_mod_cast hhigh
    rw [hcancel, le_div_iff₀ hpq, div_lt_iff₀ hpq]
    constructor <;> linarith

/-- A text is stored with its value exactly when that is a whole number of
ten-thousandths. -/
theorem insert_exact {text : String} {x : Numeric} {l : Literal}
    (hl : literal? text.toList = some l) (h : Numeric.insert text = .ok x) :
    x.value = litValue l ↔ ∃ k : ℤ, litValue l = (k : ℚ) / 10000 := by
  obtain ⟨l', hl', hunits⟩ := insert_ok h
  obtain rfl := Option.some.inj (hl'.symm.trans hl)
  refine ⟨fun hx => ⟨x.units, hx.symm⟩, fun ⟨k, hk⟩ => ?_⟩
  have hmagnitude : litUnits l' = (k.natAbs : ℚ) := by
    have habs : |litValue l'| * 10000 = litUnits l' := by
      rw [litValue_litUnits, abs_div, abs_mul, abs_of_nonneg (litUnits_nonneg l')]
      cases l'.negative <;> norm_num
    rw [← habs, hk, abs_div, Nat.cast_natAbs]
    norm_num
  obtain ⟨hlow, hhigh⟩ := roundUnits_bounds l'
  rw [hmagnitude] at hlow hhigh
  have hround : roundUnits l' = k.natAbs := by
    have h1 : (roundUnits l' : ℚ) < k.natAbs + 1 := by linarith
    have h2 : (k.natAbs : ℚ) < roundUnits l' + 1 := by linarith
    have h1' : roundUnits l' < k.natAbs + 1 := by exact_mod_cast h1
    have h2' : k.natAbs < roundUnits l' + 1 := by exact_mod_cast h2
    omega
  rw [Numeric.value, hunits, hround, litValue_litUnits, hmagnitude]
  cases l'.negative <;> simp [signed]

/-- A text is stored as a positive number exactly when it is at least half a
ten-thousandth. -/
theorem insert_positive {text : String} {x : Numeric} {l : Literal}
    (hl : literal? text.toList = some l) (h : Numeric.insert text = .ok x) :
    0 < x.units ↔ 1 / 20000 ≤ litValue l := by
  obtain ⟨l', hl', hunits⟩ := insert_ok h
  obtain rfl := Option.some.inj (hl'.symm.trans hl)
  obtain ⟨hlow, hhigh⟩ := roundUnits_bounds l'
  have hnonneg := litUnits_nonneg l'
  rw [hunits, litValue_litUnits]
  cases l'.negative with
  | true =>
    simp only [signed, if_true]
    constructor
    · intro hpos
      omega
    · intro hle
      linarith
  | false =>
    simp only [signed, Bool.false_eq_true, if_false]
    constructor
    · intro hpos
      have hone : (1 : ℚ) ≤ roundUnits l' := by exact_mod_cast hpos
      linarith
    · intro hle
      have hpos : (0 : ℚ) < roundUnits l' := by linarith
      exact_mod_cast hpos

/-- Column text read as money and inserted again is the column. -/
theorem insert_money {x y : Numeric} {m : Money} (hm : Money.new x.text = .ok m)
    (hy : Numeric.insert m.toString = .ok y) : y = x := by
  have hl : literal? x.text.toList = some ⟨decide (x.units < 0), x.units.natAbs, 4⟩ := by
    rw [Numeric.text, String.toList_ofList, literal?_fixed]
  rw [new_of_literal hl] at hm
  obtain rfl := Except.ok.inj hm
  have hvalue := insert_toString (scale_ofLiteral _) hy
  rw [litValue_ofLiteral, litValue_units, Numeric.value] at hvalue
  have hunits : y.units = x.units := by
    have hcast : (y.units : ℚ) = x.units := by linarith
    exact_mod_cast hcast
  obtain ⟨u, hu⟩ := x
  obtain ⟨v, hv⟩ := y
  obtain rfl : v = u := hunits
  rfl

theorem litValue_pos (l : Literal) :
    0 < litValue l ↔ l.negative = false ∧ 0 < l.coefficient := by
  have hpow : (0 : ℚ) < 10 ^ l.scale := by positivity
  rw [litValue]
  cases l.negative with
  | true =>
    simp only [if_true, Bool.true_eq_false, false_and, iff_false, not_lt]
    have hc : (0 : ℚ) ≤ l.coefficient := Nat.cast_nonneg _
    exact div_nonpos_of_nonpos_of_nonneg (by linarith) hpow.le
  | false =>
    simp only [Bool.false_eq_true, if_false, one_mul, true_and]
    rw [div_pos_iff_of_pos_right hpow]
    exact Nat.cast_pos

theorem isPositive_iff (m : Money) : m.isPositive = true ↔ 0 < m.value := by
  rw [Money.value, litValue_pos, Money.isPositive, Money.isZero]
  simp [Nat.pos_iff_ne_zero]

/-- Rounding to forty digits leaves something of a positive number. -/
theorem roundDigits_positive (negative : Bool) (n scale : ℕ) :
    (roundDigits negative n 1 scale).isPositive = true ↔ negative = false ∧ 0 < n := by
  have hkeeps : ∀ drop, 0 < drop → drop ≤ (Nat.toDigits 10 n).length - 40 → 10 ^ drop ≤ n := by
    intro drop hpos hdrop
    by_contra hlt
    have hshort : (Nat.toDigits 10 n).length ≤ drop :=
      (Nat.length_toDigits_le_iff (by decide) hpos).mpr (by omega)
    omega
  have hround : 0 < roundHalfEven n (1 * 10 ^ ((Nat.toDigits 10 (n / 1)).length - 40)) ↔ 0 < n := by
    rw [Nat.div_one, one_mul]
    generalize hd : (Nat.toDigits 10 n).length - 40 = drop at hkeeps
    have hquot : 0 < n → 0 < n / 10 ^ drop := by
      intro hn
      refine Nat.div_pos ?_ (Nat.pow_pos (by decide))
      rcases Nat.eq_zero_or_pos drop with rfl | hpos
      · rw [pow_zero]
        exact hn
      · exact hkeeps drop hpos le_rfl
    constructor
    · intro hpos
      rcases Nat.eq_zero_or_pos n with rfl | hn
      · simp [roundHalfEven] at hpos
      · exact hn
    · intro hn
      have hq := hquot hn
      unfold roundHalfEven
      dsimp only
      split_ifs <;> omega
  have hlit : ∀ l : Literal, (ofLiteral l).isPositive = true ↔ l.negative = false ∧ 0 < l.coefficient :=
    fun l => by rw [isPositive_iff, litValue_ofLiteral, litValue_pos]
  unfold roundDigits
  dsimp only
  split_ifs with hdrop
  · rw [hlit, hround]
  · rw [hlit]
    have hpow : 0 < 10 ^ ((Nat.toDigits 10 (n / 1)).length - 40 - scale) := Nat.pow_pos (by decide)
    rw [Nat.mul_pos_iff_of_pos_right hpow, hround]

/-- The exact product, over the sum of the scales. -/
theorem value_mul (a b : Money) : a.value * b.value =
    litValue ⟨a.negative != b.negative, a.coefficient * b.coefficient, a.scale + b.scale⟩ := by
  simp only [Money.value, litValue, pow_add]
  cases a.negative <;> cases b.negative <;> push_cast <;> field_simp <;> simp

/-- A product is positive when the exact product is. -/
theorem mul_isPositive (a b : Money) : (a.mul b).isPositive = true ↔ 0 < a.value * b.value := by
  rw [Money.mul, roundDigits_positive, value_mul, litValue_pos]

/-- Forty digits are kept as they are. -/
theorem roundDigits_exact (negative : Bool) {n : ℕ} (h : n < 10 ^ 40) (scale : ℕ) :
    roundDigits negative n 1 scale = ofLiteral ⟨negative, n, scale⟩ := by
  have hlen : (Nat.toDigits 10 n).length ≤ 40 := (Nat.length_toDigits_le_iff (by decide) (by decide)).mpr h
  have hdrop : (Nat.toDigits 10 (n / 1)).length - 40 = 0 := by
    rw [Nat.div_one]
    omega
  have hround : roundHalfEven n (1 * 10 ^ 0) = n := by
    have hexact := roundHalfEven_exact n 1 (by decide)
    simpa using hexact
  simp only [roundDigits, hdrop, hround, Nat.zero_le, if_true, Nat.sub_zero]

/-- Amounts of up to twenty digits are multiplied exactly. -/
theorem mul_value {a b : Money} (ha : a.coefficient < 10 ^ 20) (hb : b.coefficient < 10 ^ 20) :
    (a.mul b).value = a.value * b.value := by
  have hsmall : a.coefficient * b.coefficient < 10 ^ 40 := by
    calc a.coefficient * b.coefficient < 10 ^ 20 * 10 ^ 20 := Nat.mul_lt_mul'' ha hb
      _ = 10 ^ 40 := by norm_num
  rw [Money.mul, roundDigits_exact _ hsmall, litValue_ofLiteral, value_mul]

/-- The text of a column, read as money. -/
theorem new_text (x : Numeric) : ∃ m, Money.new x.text = .ok m ∧ m.value = x.value ∧
    m.coefficient < 10 ^ 20 := by
  have hl : literal? x.text.toList = some ⟨decide (x.units < 0), x.units.natAbs, 4⟩ := by
    rw [Numeric.text, String.toList_ofList, literal?_fixed]
  refine ⟨_, new_of_literal hl, ?_, ?_⟩
  · rw [litValue_ofLiteral, litValue_units, Numeric.value]
  · have hstrip := (stripZeros_value x.units.natAbs 4).2
    refine lt_of_le_of_lt ?_ x.bound
    calc (stripZeros x.units.natAbs 4).1
        ≤ (stripZeros x.units.natAbs 4).1 * 10 ^ (4 - (stripZeros x.units.natAbs 4).2) :=
          Nat.le_mul_of_pos_right _ (Nat.pow_pos (by decide))
      _ = x.units.natAbs := hstrip

end LpPlatform.Amounts
