import Mathlib.Data.List.Sort
import LpPlatform.JsValues

/-!
# Canonical text and chained hashes

A record is hashed as the previous hash, a bar and the record's canonical
JSON: keys sorted, no white space. The digest is a parameter of which only its
form is known, sixty-four hexadecimal digits. A quoted string ends where its
closing quote stands, so texts that continue after one can be told apart.
-/

namespace LpPlatform.HashChain

open JsValues

/-- A hexadecimal digit of either case. -/
def isHexDigit (c : Char) : Bool :=
  (48 ≤ c.toNat && c.toNat ≤ 57) || (97 ≤ c.toNat && c.toNat ≤ 102) ||
    (65 ≤ c.toNat && c.toNat ≤ 70)

/-- Sixty-four hexadecimal digits. -/
def isHash (s : String) : Bool := s.toList.length = 64 && s.toList.all isHexDigit

/-- The digest of the platform, in hexadecimal. -/
structure Sha256 where
  /-- The digest of the bytes of a text. -/
  hex : String → String
  /-- It is a hash. -/
  hex_isHash : ∀ payload, isHash (hex payload) = true

/-- A digest given by its values on some texts. -/
def Sha256.known (table : List (String × String)) (h : table.all (fun e => isHash e.2) = true) :
    Sha256 where
  hex payload := ((table.find? fun e => e.1 = payload).map Prod.snd).getD
    (String.ofList (List.replicate 64 'f'))
  hex_isHash payload := by
    cases hfound : table.find? fun e => e.1 = payload with
    | none =>
      simp only [Option.map_none, Option.getD_none]
      decide
    | some e => exact List.all_eq_true.mp h e (List.mem_of_find?_eq_some hfound)

/-- What the listed digests and the one of other texts have in common. -/
theorem Sha256.known_hex {check : String → Bool} {table : List (String × String)}
    {h : table.all (fun e => isHash e.2) = true} (htable : table.all (fun e => check e.2) = true)
    (hother : check (String.ofList (List.replicate 64 'f')) = true) (payload : String) :
    check ((Sha256.known table h).hex payload) = true := by
  simp only [Sha256.known]
  cases hfound : table.find? fun e => e.1 = payload with
  | none => simpa using hother
  | some e => exact List.all_eq_true.mp htable e (List.mem_of_find?_eq_some hfound)

/-- The previous hash of the first trade of a chain. -/
def GENESIS_HASH : String := String.ofList (List.replicate 64 '0')

/-- The order that `sort` puts keys in: by their UTF-16 code units. -/
def keyUnits (key : String) : List ℕ :=
  key.toList.flatMap fun c =>
    if c.toNat < 0x10000 then [c.toNat]
    else [0xd800 + (c.toNat - 0x10000) / 0x400, 0xdc00 + (c.toNat - 0x10000) % 0x400]

/-- Lists of code units in the order of their first difference. -/
def unitsLe : List ℕ → List ℕ → Bool
  | [], _ => true
  | _ :: _, [] => false
  | a :: as, b :: bs => a < b || (a = b && unitsLe as bs)

/-- The first key does not come after the second. -/
def keyLe {α : Type} (a b : String × α) : Prop := unitsLe (keyUnits a.1) (keyUnits b.1) = true

instance {α : Type} : DecidableRel (α := String × α) keyLe := fun a b =>
  inferInstanceAs (Decidable (unitsLe (keyUnits a.1) (keyUnits b.1) = true))

/-- Texts with a comma between each two. -/
def commas : List String → String
  | [] => ""
  | [t] => t
  | t :: ts => t ++ "," ++ commas ts

mutual

/-- `canonicalize` of a JSON value. -/
def canonicalize : Json → String
  | .null => "null"
  | .bool b => if b then "true" else "false"
  | .num n => n.text
  | .str s => quote s
  | .arr items => "[" ++ commas (canonicalItems items) ++ "]"
  | .obj fields =>
    "\x7b" ++ commas (((canonicalFields fields).insertionSort keyLe).map fun f =>
      quote f.1 ++ ":" ++ f.2) ++ "\x7d"

/-- The items of an array. -/
def canonicalItems : List Json → List String
  | [] => []
  | item :: items => canonicalize item :: canonicalItems items

/-- The fields of an object, keys apart from the text of their values. -/
def canonicalFields : List (String × Json) → List (String × String)
  | [] => []
  | (key, value) :: fields => (key, canonicalize value) :: canonicalFields fields

end

/-- The text that is hashed for a record. -/
def payload (prevHash : String) (record : Json) : String := prevHash ++ "|" ++ canonicalize record

/-- `computeHash`. -/
def computeHash (H : Sha256) (record : Json) (prevHash : String) : Except Failure String :=
  if isHash prevHash then .ok (H.hex (payload prevHash record))
  else .error (.typeError s!"computeHash: prevHash must be 64-hex, got {prevHash}")

/-- One item of a chain. -/
structure ChainItem where
  hash : String
  prevHash : String
  record : Json

/-- The loop of `verifyChain` from an index on, with the hash the next item
should follow. -/
def verifyFrom (H : Sha256) : ℕ → String → List ChainItem → Except Failure ℤ
  | _, _, [] => return -1
  | i, expectedPrev, item :: items =>
    if item.prevHash ≠ expectedPrev then return i
    else do
      let recomputed ← computeHash H item.record item.prevHash
      if recomputed ≠ item.hash then return i
      else verifyFrom H (i + 1) item.hash items

/-- `verifyChain`: the index of the first mismatch, or -1. -/
def verifyChain (H : Sha256) (items : List ChainItem) : Except Failure ℤ :=
  verifyFrom H 0 GENESIS_HASH items

theorem genesis_isHash : isHash GENESIS_HASH = true := by decide

theorem computeHash_ok {H : Sha256} {record : Json} {prevHash : String}
    (h : isHash prevHash = true) :
    computeHash H record prevHash = .ok (H.hex (payload prevHash record)) := by
  rw [computeHash, if_pos h]

/-- The character behind a hexadecimal digit pair. -/
def unescape (a b : Char) : Char :=
  (List.range 32).findSome? (fun n => if hexDigit (n / 16) = a ∧ hexDigit n = b then
    some (Char.ofNat n) else none) |>.getD '\x00'

/-- One character read from inside a JSON string. -/
def unquoteChar : List Char → Option (Char × List Char)
  | '\\' :: 'u' :: '0' :: '0' :: a :: b :: rest => some (unescape a b, rest)
  | '\\' :: 'b' :: rest => some ('\x08', rest)
  | '\\' :: 't' :: rest => some ('\t', rest)
  | '\\' :: 'n' :: rest => some ('\n', rest)
  | '\\' :: 'f' :: rest => some ('\x0c', rest)
  | '\\' :: 'r' :: rest => some ('\r', rest)
  | '\\' :: c :: rest => some (c, rest)
  | '"' :: _ => none
  | c :: rest => some (c, rest)
  | [] => none

/-- A digit pair gives its control character. -/
theorem unescape_hexDigit : ∀ n < 32, unescape (hexDigit (n / 16)) (hexDigit n) = Char.ofNat n := by
  decide

/-- A character is read back from its quoted form. -/
theorem unquoteChar_quoteChar (c : Char) (rest : List Char) :
    unquoteChar (quoteChar c ++ rest) = some (c, rest) := by
  have hback : Char.ofNat c.toNat = c := Char.ofNat_toNat c
  unfold quoteChar
  split
  case isTrue h => rw [h]; rfl
  split
  case isTrue h => rw [h]; rfl
  split
  case isTrue h => rw [← hback, h]; rfl
  split
  case isTrue h => rw [← hback, h]; rfl
  split
  case isTrue h => rw [← hback, h]; rfl
  split
  case isTrue h => rw [← hback, h]; rfl
  split
  case isTrue h => rw [← hback, h]; rfl
  split
  case isTrue h =>
    have hread := unescape_hexDigit c.toNat h
    rw [hback] at hread
    simp [unquoteChar, hread]
  case isFalse _ hslash _ _ _ _ _ _ => simp [unquoteChar, hslash]

/-- A quoted character does not start with the closing quote. -/
theorem unquoteChar_close (rest : List Char) : unquoteChar ('"' :: rest) = none := rfl

/-- A string's closing quote is found, whatever follows it. -/
theorem quoted_inj {s s' rest rest' : List Char}
    (h : s.flatMap quoteChar ++ '"' :: rest = s'.flatMap quoteChar ++ '"' :: rest') :
    s = s' ∧ rest = rest' := by
  have hread := congrArg unquoteChar h
  induction s generalizing s' with
  | nil =>
    cases s' with
    | nil =>
      have htail := List.cons.inj h
      exact ⟨rfl, htail.2⟩
    | cons c' s' =>
      simp only [List.flatMap_nil, List.nil_append, List.flatMap_cons, List.append_assoc,
        unquoteChar_quoteChar, unquoteChar_close] at hread
      simp at hread
  | cons c s ih =>
    cases s' with
    | nil =>
      simp only [List.flatMap_nil, List.nil_append, List.flatMap_cons, List.append_assoc,
        unquoteChar_quoteChar, unquoteChar_close] at hread
      simp at hread
    | cons c' s' =>
      simp only [List.flatMap_cons, List.append_assoc, unquoteChar_quoteChar, Option.some.injEq,
        Prod.mk.injEq] at hread
      obtain ⟨rfl, hrest⟩ := hread
      obtain ⟨rfl, htail⟩ := ih hrest (congrArg unquoteChar hrest)
      exact ⟨rfl, htail⟩

/-- A quoted string can be told apart from what follows it. -/
theorem quote_append_inj {s s' rest rest' : String} (h : quote s ++ rest = quote s' ++ rest') :
    s = s' ∧ rest = rest' := by
  have hlist := congrArg String.toList h
  simp only [quote, String.toList_append, String.toList_ofList, List.cons_append,
    List.append_assoc, List.nil_append, List.cons.injEq, true_and] at hlist
  obtain ⟨hs, hrest⟩ := quoted_inj hlist
  exact ⟨String.toList_inj.mp hs, String.toList_inj.mp hrest⟩

end LpPlatform.HashChain
