import Mathlib.Algebra.GroupWithZero.Nat
import Mathlib.Data.List.Basic
import Mathlib.Tactic.FinCases

/-!
# Bytes in base 64

Three bytes are four sextets, and a sextet is a digit of an alphabet of
sixty-four. The two alphabets differ in their last two digits, and only the
standard one fills the last group up. A reader takes the digits of both
alphabets, skips what is no digit and stops at the first filler, so it reads
back what either alphabet has written.
-/

namespace LpPlatform.Base64

/-- A byte. -/
abbrev Byte := Fin 256

instance neZeroBytes : NeZero 256 := ⟨by decide⟩

/-- A number of bytes. -/
abbrev Bytes (n : ℕ) := { bytes : List Byte // bytes.length = n }

/-- The two alphabets. -/
inductive Alphabet where
  | standard
  | url
  deriving DecidableEq

/-- The sextets of bytes, from the left. What is missing in the last group is
zero. -/
def sextets : List Byte → List ℕ
  | a :: b :: c :: rest =>
    a.val / 4 :: (a.val % 4 * 16 + b.val / 16) :: (b.val % 16 * 4 + c.val / 64) :: c.val % 64 ::
      sextets rest
  | [a, b] => [a.val / 4, a.val % 4 * 16 + b.val / 16, b.val % 16 * 4]
  | [a] => [a.val / 4, a.val % 4 * 16]
  | [] => []

/-- The byte of a number. -/
def byteOf (n : ℕ) : Byte := Fin.ofNat 256 n

/-- The bytes that sextets make, without the bits that are left over. -/
def bytesOf : List ℕ → List Byte
  | a :: b :: c :: d :: rest =>
    byteOf (a * 4 + b / 16) :: byteOf (b % 16 * 16 + c / 4) :: byteOf (c % 4 * 64 + d) :: bytesOf rest
  | [a, b, c] => [byteOf (a * 4 + b / 16), byteOf (b % 16 * 16 + c / 4)]
  | [a, b] => [byteOf (a * 4 + b / 16)]
  | _ => []

/-- The digits of an alphabet. -/
def Alphabet.digits : Alphabet → String
  | .standard => "ABCDEFGHIJKLMNOPQRSTUVWXYZabcdefghijklmnopqrstuvwxyz0123456789+/"
  | .url => "ABCDEFGHIJKLMNOPQRSTUVWXYZabcdefghijklmnopqrstuvwxyz0123456789-_"

/-- The digit of a sextet. -/
def Alphabet.digit (alphabet : Alphabet) (sextet : ℕ) : Char :=
  alphabet.digits.toList.getD sextet 'A'

/-- What fills the last group up. -/
def Alphabet.filler (alphabet : Alphabet) (bytes : List Byte) : List Char :=
  match alphabet with
  | .standard => List.replicate ((3 - bytes.length % 3) % 3) '='
  | .url => []

/-- Bytes as text. -/
def encode (alphabet : Alphabet) (bytes : List Byte) : List Char :=
  (sextets bytes).map alphabet.digit ++ alphabet.filler bytes

/-- The sextet of a digit of either alphabet. -/
def value? (c : Char) : Option ℕ :=
  if 'A' ≤ c ∧ c ≤ 'Z' then some (c.toNat - 65)
  else if 'a' ≤ c ∧ c ≤ 'z' then some (c.toNat - 71)
  else if '0' ≤ c ∧ c ≤ '9' then some (c.toNat + 4)
  else if c = '+' ∨ c = '-' then some 62
  else if c = '/' ∨ c = '_' then some 63
  else none

/-- The bytes of a text. -/
def decode (text : List Char) : List Byte :=
  bytesOf ((text.takeWhile (· ≠ '=')).filterMap value?)

@[simp] theorem byteOf_val (b : Byte) : byteOf b = b := Fin.ofNat_val_eq_self b

/-- Sextets have six bits. -/
theorem sextets_lt {bytes : List Byte} {s : ℕ} (h : s ∈ sextets bytes) : s < 64 := by
  induction bytes using sextets.induct with
  | case1 a b c rest ih =>
    simp only [sextets, List.mem_cons] at h
    rcases h with rfl | rfl | rfl | rfl | h
    · omega
    · omega
    · omega
    · omega
    · exact ih h
  | case2 a b =>
    simp only [sextets, List.mem_cons, List.not_mem_nil, or_false] at h
    omega
  | case3 a =>
    simp only [sextets, List.mem_cons, List.not_mem_nil, or_false] at h
    omega
  | case4 => simp [sextets] at h

/-- Bytes are made of their sextets. -/
theorem bytesOf_sextets (bytes : List Byte) : bytesOf (sextets bytes) = bytes := by
  -- the bits of a byte that two sextets share are put together again
  have hjoin : ∀ {n : ℕ} {b : Byte}, n = b → byteOf n = b := fun h => h ▸ byteOf_val _
  induction bytes using sextets.induct with
  | case1 a b c rest ih =>
    rw [sextets, bytesOf, ih, hjoin (b := a) (by omega), hjoin (b := b) (by omega), hjoin (b := c) (by omega)]
  | case2 a b => rw [sextets, bytesOf, hjoin (b := a) (by omega), hjoin (b := b) (by omega)]
  | case3 a => rw [sextets, bytesOf, hjoin (b := a) (by omega)]
  | case4 => rfl

/-- A digit is read as its sextet. -/
theorem value?_digit (alphabet : Alphabet) {s : ℕ} (h : s < 64) :
    value? (alphabet.digit s) = some s := by
  have hall : ∀ s < 64, value? (alphabet.digit s) = some s := by
    cases alphabet <;> decide +kernel
  exact hall s h

/-- What is read as a sextet is neither a filler nor a dot. -/
theorem digit_ne (alphabet : Alphabet) {s : ℕ} (h : s < 64) :
    alphabet.digit s ≠ '=' ∧ alphabet.digit s ≠ '.' := by
  have hvalue := value?_digit alphabet h
  constructor
  · intro heq
    rw [heq] at hvalue
    exact absurd hvalue (by simp [value?])
  · intro heq
    rw [heq] at hvalue
    exact absurd hvalue (by simp [value?])

/-- Before the filler are the digits. -/
theorem takeWhile_encode (alphabet : Alphabet) (bytes : List Byte) :
    (encode alphabet bytes).takeWhile (· ≠ '=') = (sextets bytes).map alphabet.digit := by
  have hdigits : ∀ c ∈ (sextets bytes).map alphabet.digit, decide (c ≠ '=') = true := by
    intro c hc
    obtain ⟨s, hs, rfl⟩ := List.mem_map.mp hc
    exact decide_eq_true (digit_ne alphabet (sextets_lt hs)).1
  have hfiller : (alphabet.filler bytes).takeWhile (· ≠ '=') = [] := by
    cases alphabet with
    | standard =>
      rw [Alphabet.filler]
      cases (3 - bytes.length % 3) % 3 with
      | zero => rfl
      | succ n => rfl
    | url => rfl
  rw [encode, List.takeWhile_append_of_pos hdigits, hfiller, List.append_nil]

/-- Bytes are read back from their text, in either alphabet. -/
theorem decode_encode (alphabet : Alphabet) (bytes : List Byte) :
    decode (encode alphabet bytes) = bytes := by
  have hread : ((sextets bytes).map alphabet.digit).filterMap value? = sextets bytes := by
    rw [List.filterMap_map]
    refine (List.filterMap_congr fun s hs => ?_).trans List.filterMap_some
    exact value?_digit alphabet (sextets_lt hs)
  rw [decode, takeWhile_encode, hread, bytesOf_sextets]

/-- Text of the second alphabet has no dot. -/
theorem dot_not_mem_url (bytes : List Byte) : '.' ∉ encode .url bytes := by
  intro h
  rw [encode, Alphabet.filler, List.append_nil] at h
  obtain ⟨s, hs, heq⟩ := List.mem_map.mp h
  exact (digit_ne .url (sextets_lt hs)).2 heq

end LpPlatform.Base64
