import Mathlib.Data.Rat.Floor
import LpPlatform.DecimalText

/-!
# Values and errors of the host language

Errors carry the name and message that handlers read. Text functions follow
the language: `trim`, the quoting of `JSON.stringify` and the ISO form of an
instant. Numbers are finite doubles, kept as the rational they stand for and
rounded to 53 significant bits, ties to even. Their range is not bounded.
-/

namespace LpPlatform.JsValues

open DecimalText

/-- What a statement or a function may throw. -/
inductive Failure where
  /-- A `DomainException`: code, message and HTTP status. -/
  | domain (code message : String) (status : ℕ)
  /-- A built-in `TypeError`. -/
  | typeError (message : String)
  /-- A built-in `RangeError`. -/
  | rangeError (message : String)
  /-- A plain `Error`. -/
  | error (message : String)
  /-- An error raised by the database or the queue. -/
  | database (message : String)
  deriving DecidableEq, Repr

/-- The `name` of an error. -/
def Failure.name : Failure → String
  | .domain _ _ _ => "DomainException"
  | .typeError _ => "TypeError"
  | .rangeError _ => "RangeError"
  | .error _ => "Error"
  | .database _ => "error"

/-- The `message` of an error. -/
def Failure.message : Failure → String
  | .domain _ m _ => m
  | .typeError m => m
  | .rangeError m => m
  | .error m => m
  | .database m => m

/-- White space and line terminators, as `trim` removes them. -/
def isSpace (c : Char) : Bool :=
  c ∈ ['\t', '\n', '\x0b', '\x0c', '\r', ' ', '\u00a0', '\u1680', '\u2028', '\u2029', '\u202f',
    '\u205f', '\u3000', '\ufeff'] || (0x2000 ≤ c.toNat && c.toNat ≤ 0x200a)

/-- The characters of a string without surrounding white space. -/
def trim (cs : List Char) : List Char :=
  ((cs.dropWhile isSpace).reverse.dropWhile isSpace).reverse

theorem isSpace_of_isDigit {c : Char} (h : c.isDigit = true) : isSpace c = false := by
  have hbound : 48 ≤ c.toNat ∧ c.toNat ≤ 57 := by
    simpa [Char.isDigit, UInt32.le_iff_toNat_le] using h
  simp only [isSpace, List.mem_cons, List.not_mem_nil, or_false, Bool.or_eq_false_iff, decide_eq_false_iff_not, not_or, Bool.and_eq_false_iff]
  refine ⟨?_, Or.inl ?_⟩
  · refine ⟨?_, ?_, ?_, ?_, ?_, ?_, ?_, ?_, ?_, ?_, ?_, ?_, ?_, ?_⟩ <;> (rintro rfl; revert hbound; decide)
  · omega

/-- A text without white space is not trimmed. -/
theorem trim_eq_self {cs : List Char} (h : ∀ c ∈ cs, isSpace c = false) : trim cs = cs := by
  have hdrop : ∀ cs : List Char, (∀ c ∈ cs, isSpace c = false) → cs.dropWhile isSpace = cs := by
    intro cs hcs
    cases cs with
    | nil => rfl
    | cons c cs => exact List.dropWhile_cons_of_neg (by simp [hcs c])
  rw [trim, hdrop cs h, hdrop _ fun c hc => h c (List.mem_reverse.mp hc), List.reverse_reverse]

/-- A literal stands without white space around it. -/
theorem trim_literal {cs : List Char} {l : Literal} (h : literal? cs = some l) : trim cs = cs := by
  have hunsigned : ∀ {negative : Bool} {cs : List Char}, unsigned? negative cs = some l →
      ∀ c ∈ cs, isSpace c = false := by
    intro negative cs h c hc
    rcases unsigned?_chars h c hc with hdigit | rfl
    · exact isSpace_of_isDigit hdigit
    · decide
  refine trim_eq_self ?_
  unfold literal? at h
  split at h
  · intro c hc
    rcases List.mem_cons.mp hc with rfl | hc
    · decide
    · exact hunsigned h c hc
  · exact hunsigned h

/-- The length of a string in UTF-16 code units. -/
def utf16Length (s : String) : ℕ := (s.toList.map fun c => if c.toNat < 0x10000 then 1 else 2).sum

/-- A digit of a `\u` escape. -/
def hexDigit (n : ℕ) : Char := Nat.digitChar (n % 16)

/-- One character inside a JSON string. -/
def quoteChar (c : Char) : List Char :=
  if c = '"' then ['\\', '"']
  else if c = '\\' then ['\\', '\\']
  else if c.toNat = 8 then ['\\', 'b']
  else if c.toNat = 9 then ['\\', 't']
  else if c.toNat = 10 then ['\\', 'n']
  else if c.toNat = 12 then ['\\', 'f']
  else if c.toNat = 13 then ['\\', 'r']
  else if c.toNat < 32 then ['\\', 'u', '0', '0', hexDigit (c.toNat / 16), hexDigit c.toNat]
  else [c]

/-- `JSON.stringify` of a string. -/
def quote (s : String) : String :=
  String.ofList ('"' :: (s.toList.flatMap quoteChar ++ ['"']))

/-- A finite number of the language and what `String` prints for it. -/
structure JsNumber where
  /-- The number it stands for. -/
  value : ℚ
  /-- Its text. -/
  text : String
  deriving DecidableEq

/-- A JSON value. -/
inductive Json where
  | null
  | bool (b : Bool)
  | num (n : JsNumber)
  | str (s : String)
  | arr (items : List Json)
  | obj (fields : List (String × Json))

/-- A field of an object, undefined when it is absent. -/
def Json.field? (key : String) : Json → Option Json
  | .obj fields => (fields.find? fun f => f.1 = key).map Prod.snd
  | _ => none

/-- The text of a string value. -/
def Json.string? : Json → Option String
  | .str s => some s
  | _ => none

/-- An integer to the nearest even, from a nonnegative quotient. -/
def roundHalfEven (n d : ℕ) : ℕ :=
  let q := n / d
  let r := n % d
  if 2 * r < d then q else if d < 2 * r then q + 1 else if q % 2 = 0 then q else q + 1

theorem roundHalfEven_exact (q d : ℕ) (hd : 0 < d) : roundHalfEven (q * d) d = q := by
  have hdiv : q * d / d = q := Nat.mul_div_cancel q hd
  have hmod : q * d % d = 0 := Nat.mul_mod_left q d
  simp [roundHalfEven, hdiv, hmod, hd]

/-- A nonnegative quotient rounded to 53 significant bits. -/
def roundBits (n d : ℕ) : ℚ :=
  if n = 0 then 0
  else
    -- 2 ^ shift scales the quotient to between 2 ^ 52 and 2 ^ 53
    let guess : ℤ := 53 + (Nat.log2 d : ℤ) - (Nat.log2 n : ℤ)
    let scaled (shift : ℤ) : ℕ × ℕ :=
      if 0 ≤ shift then (n * 2 ^ shift.toNat, d) else (n, d * 2 ^ (-shift).toNat)
    let shift := if (scaled guess).2 * 2 ^ 53 ≤ (scaled guess).1 then guess - 1 else guess
    let coefficient := roundHalfEven (scaled shift).1 (scaled shift).2
    if 0 ≤ shift then (coefficient : ℚ) / 2 ^ shift.toNat else (coefficient : ℚ) * 2 ^ (-shift).toNat

/-- The double nearest to a rational. -/
def toDouble (x : ℚ) : ℚ :=
  if x < 0 then -roundBits x.num.natAbs x.den else roundBits x.num.natAbs x.den

/-- The rational a literal stands for. -/
def litValue (l : Literal) : ℚ :=
  (if l.negative then -1 else 1) * (l.coefficient : ℚ) / 10 ^ l.scale

/-- `Number` of a decimal text, undefined on other texts. -/
def number? (text : String) : Option ℚ :=
  (literal? (trim text.toList)).map fun l => toDouble (litValue l)

/-- `toFixed`: the nearest multiple of a power of ten, the larger on a tie. -/
def toFixed (x : ℚ) (digits : ℕ) : String :=
  let units := ⌊|x| * 10 ^ digits + 1 / 2⌋.toNat
  String.ofList (Literal.fixed ⟨decide (x < 0), units, digits⟩)

/-- Milliseconds since the epoch. -/
abbrev Instant := ℤ

/-- Year, month and day of a day number counted from the epoch. Years start
in March, so that the leap day is the last one. -/
def civilOfDays (days : ℤ) : ℤ × ℤ × ℤ :=
  let z := days + 719468
  let era := z / 146097
  let dayOfEra := z % 146097
  let yearOfEra := (dayOfEra - dayOfEra / 1460 + dayOfEra / 36524 - dayOfEra / 146096) / 365
  let dayOfYear := dayOfEra - (365 * yearOfEra + yearOfEra / 4 - yearOfEra / 100)
  let monthIndex := (5 * dayOfYear + 2) / 153
  let day := dayOfYear - (153 * monthIndex + 2) / 5 + 1
  let month := if monthIndex < 10 then monthIndex + 3 else monthIndex - 9
  (yearOfEra + era * 400 + if month ≤ 2 then 1 else 0, month, day)

/-- The year field of an ISO instant. -/
def yearText (year : ℤ) : List Char :=
  if 0 ≤ year ∧ year ≤ 9999 then padded 4 year.toNat
  else (if year < 0 then '-' else '+') :: padded 6 year.natAbs

/-- `toISOString` of an instant. -/
def toISOString (t : Instant) : String :=
  let (year, month, day) := civilOfDays (t / 86400000)
  let ms := (t % 86400000).toNat
  String.ofList (yearText year ++ '-' :: padded 2 month.toNat ++ '-' :: padded 2 day.toNat ++
    'T' :: padded 2 (ms / 3600000) ++ ':' :: padded 2 (ms / 60000 % 60) ++
    ':' :: padded 2 (ms / 1000 % 60) ++ '.' :: padded 3 (ms % 1000) ++ ['Z'])

/-- A leap day, a millisecond before midnight. -/
example : toISOString 1709251199999 = "2024-02-29T23:59:59.999Z" := by decide

/-- The instants a date can hold. -/
def isTimeValue (t : Instant) : Bool := t.natAbs ≤ 8640000000000000

/-- `Date.parse`, which is only fixed on texts in the ISO form. -/
structure DateParser where
  /-- The instant of a text, none for NaN. -/
  parse : String → Option Instant
  /-- It reads what `toISOString` prints. -/
  parse_iso : ∀ t, isTimeValue t = true → (parse (toISOString t)).isSome = true

/-- A parser that reads every text as the epoch. -/
def DateParser.epoch : DateParser := ⟨fun _ => some 0, fun _ _ => rfl⟩

end LpPlatform.JsValues
