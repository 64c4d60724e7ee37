import LpPlatform.BinaryDoubles
import LpPlatform.JsonTexts

/-!
# Canonical JSON

Records are hashed as canonical text: keys in order, no white space, undefined
fields left out, dates and large integers as strings, objects with a `toJSON`
as what it returns. On JSON values the text is that of the sorted value. It is
read back as the value, up to the order of keys and the sign of zero, so values
share their text exactly when they are equal up to these two.
-/

namespace LpPlatform.CanonicalJson

open BinaryDoubles JsonTexts JsonTrees JsValues

/-- Numbers that are not finite. -/
inductive NonFinite where
  | nan
  | infinity
  | negativeInfinity

/-- `String` of such a number. -/
def NonFinite.text : NonFinite → String
  | .nan => "NaN"
  | .infinity => "Infinity"
  | .negativeInfinity => "-Infinity"

/-- A value of the language, as far as `canonicalize` tells values apart. -/
inductive Value where
  | null
  | undefined
  | boolean (b : Bool)
  | number (x : Double)
  | nonFinite (x : NonFinite)
  | bigint (n : ℤ)
  | string (s : Text)
  | function
  | symbol
  /-- A `Date`, without a time when it is invalid. -/
  | date (time : Option Instant)
  | array (items : List Value)
  /-- An object with a function `toJSON`, and what this returns. -/
  | custom (replaced : Value)
  /-- The enumerable fields of any other object. -/
  | object (fields : List (Text × Value))

/-- The parts of an object, key by key. -/
def partsOf : List (Text × Except Failure Text) → Except Failure (List Text)
  | [] => .ok []
  | (key, canonical) :: fields => do
    let value ← canonical
    let parts ← partsOf fields
    return (quote key ++ unit ':' :: value) :: parts

mutual

/-- `canonicalize`. -/
def canonicalize : Value → Except Failure Text
  | .null => .ok (ascii "null")
  | .undefined => .ok (ascii "null")
  | .boolean b => .ok (if b then ascii "true" else ascii "false")
  | .number x => .ok (x.text.map unit)
  | .nonFinite x => .error (.typeError s!"canonicalize: non-finite number {x.text} not allowed")
  | .bigint n => .ok (quote (ascii (toString n)))
  | .string s => .ok (quote s)
  | .function => .error (.typeError "canonicalize: cannot serialize function")
  | .symbol => .error (.typeError "canonicalize: cannot serialize symbol")
  | .date none => .error (.rangeError "Invalid time value")
  | .date (some time) => .ok (quote (ascii (toISOString time)))
  | .array items => do
    let parts ← canonicalizeItems items
    return unit '[' :: (joined parts ++ [unit ']'])
  | .custom replaced => canonicalize replaced
  | .object fields => do
    let parts ← partsOf ((canonicalizeFields fields).insertionSort keyLe)
    return unit '\x7b' :: (joined parts ++ [unit '\x7d'])

/-- The items of an array. -/
def canonicalizeItems : List Value → Except Failure (List Text)
  | [] => .ok []
  | item :: items => do
    let part ← canonicalize item
    let parts ← canonicalizeItems items
    return part :: parts

/-- The fields of an object that are not undefined. What goes wrong with one is
kept until its turn comes. -/
def canonicalizeFields : List (Text × Value) → List (Text × Except Failure Text)
  | [] => []
  | (_, .undefined) :: fields => canonicalizeFields fields
  | (key, value) :: fields => (key, canonicalize value) :: canonicalizeFields fields

end

mutual

/-- A JSON value as a value of the language. -/
def ofTree : JsonTree Double → Value
  | .null => .null
  | .bool b => .boolean b
  | .num x => .number x
  | .str s => .string s
  | .arr items => .array (ofItems items)
  | .obj fields => .object (ofFields fields)

/-- The items of an array. -/
def ofItems : List (JsonTree Double) → List Value
  | [] => []
  | item :: items => ofTree item :: ofItems items

/-- The fields of an object. -/
def ofFields : List (Text × JsonTree Double) → List (Text × Value)
  | [] => []
  | (key, value) :: fields => (key, ofTree value) :: ofFields fields

end

/-- A JSON value, with one field for each key of an object. -/
structure JsonValue where
  tree : JsonTree Double
  keyed : tree.Keyed

/-- A character of a number is ASCII, and belongs to a number in a text. -/
theorem numberChar_unit {c : Char} (h : isNumberChar c = true) :
    Char.ofNat (unit c).val = c ∧ isNumberUnit (unit c) = true := by
  simp only [isNumberChar, Bool.or_eq_true, decide_eq_true_eq] at h
  rcases h with (((hdigit | rfl) | rfl) | rfl) | rfl
  · have hrange : 48 ≤ c.toNat ∧ c.toNat ≤ 57 := Char.isDigit_iff_toNat.mp hdigit
    have hval : (unit c).val = c.toNat := Nat.mod_eq_of_lt (by omega)
    constructor
    · rw [hval]
      exact Char.ofNat_toNat c
    · rw [isNumberUnit, hval]
      simp [hrange]
  · decide
  · decide
  · decide
  · decide

/-- Doubles with their text. -/
def doubles : Numerals Double where
  print x := x.text.map unit
  read t := number? (t.map fun u => Char.ofNat u.val)
  plain := Double.plain
  read_print x := by
    have hchars : (x.text.map unit).map (fun u => Char.ofNat u.val) = x.text := by
      rw [List.map_map]
      refine (List.map_congr_left fun c hc => ?_).trans (List.map_id _)
      exact (numberChar_unit (text_chars x c hc)).1
    rw [hchars]
    exact number?_text x
  print_ne_nil x h := text_ne_nil x (List.map_eq_nil_iff.mp h)
  print_units x u hu := by
    obtain ⟨c, hc, rfl⟩ := List.mem_map.mp hu
    exact (numberChar_unit (text_chars x c hc)).2

section Trees

/-- What is not undefined stays among the fields. -/
theorem canonicalizeFields_cons (key : Text) (v : JsonTree Double) (fields : List (Text × Value)) :
    canonicalizeFields ((key, ofTree v) :: fields) =
      (key, canonicalize (ofTree v)) :: canonicalizeFields fields := by
  cases v <;> rw [ofTree, canonicalizeFields]
  all_goals simp

/-- The parts of fields that all have a text. -/
theorem partsOf_ok (fields : List (Text × JsonTree Double)) :
    partsOf (fields.map fun field => (field.1, .ok (text doubles field.2))) = .ok (fieldTexts doubles fields) := by
  induction fields with
  | nil => rfl
  | cons field fields ih =>
    rw [List.map_cons, partsOf, ih]
    rfl

mutual

/-- The canonical text of a JSON value is the text of the sorted value. -/
theorem canonicalize_ofTree : ∀ v : JsonTree Double, canonicalize (ofTree v) = .ok (text doubles v.sorted)
  | .null => rfl
  | .bool b => by cases b <;> rfl
  | .num _ => rfl
  | .str _ => rfl
  | .arr items => by
    rw [ofTree, canonicalize, canonicalizeItems_ofItems items]
    rfl
  | .obj fields => by
    have hvalues := insertionSort_values (fun value => (.ok (text doubles value) : Except Failure Text))
      (sortedFields fields)
    rw [ofTree, canonicalize, canonicalizeFields_ofFields fields, hvalues, partsOf_ok]
    rfl

/-- So are those of items. -/
theorem canonicalizeItems_ofItems : ∀ items : List (JsonTree Double),
    canonicalizeItems (ofItems items) = .ok (itemTexts doubles (sortedItems items))
  | [] => rfl
  | item :: items => by
    rw [ofItems, canonicalizeItems, canonicalize_ofTree item, canonicalizeItems_ofItems items]
    rfl

/-- And those of the values of fields. -/
theorem canonicalizeFields_ofFields : ∀ fields : List (Text × JsonTree Double),
    canonicalizeFields (ofFields fields) =
      (sortedFields fields).map fun field => (field.1, .ok (text doubles field.2))
  | [] => rfl
  | (key, value) :: fields => by
    rw [ofFields, canonicalizeFields_cons, canonicalize_ofTree value, canonicalizeFields_ofFields fields]
    rfl

end

mutual

/-- The sign of zero is not in the text. -/
theorem text_plain : ∀ v : JsonTree Double, text doubles (v.map Double.plain) = text doubles v
  | .null => rfl
  | .bool _ => rfl
  | .num x => by
    have hplain : x.plain.text = x.text := x.text_plain
    rw [JsonTree.map, text, text]
    exact congrArg (List.map unit) hplain
  | .str _ => rfl
  | .arr items => by rw [JsonTree.map, text, text, itemTexts_plain items]
  | .obj fields => by rw [JsonTree.map, text, text, fieldTexts_plain fields]

/-- In items. -/
theorem itemTexts_plain : ∀ items : List (JsonTree Double),
    itemTexts doubles (mapItems Double.plain items) = itemTexts doubles items
  | [] => rfl
  | item :: items => by rw [mapItems, itemTexts, itemTexts, text_plain item, itemTexts_plain items]

/-- In the values of fields. -/
theorem fieldTexts_plain : ∀ fields : List (Text × JsonTree Double),
    fieldTexts doubles (mapFields Double.plain fields) = fieldTexts doubles fields
  | [] => rfl
  | (key, value) :: fields => by
    rw [mapFields, fieldTexts, fieldTexts, text_plain value, fieldTexts_plain fields]

end

end Trees

/-- The canonical text of a JSON value is JSON that is read back as the value,
up to the order of keys and without the sign of zero. It does not change when
keys are reordered anywhere, and JSON values share it exactly when they are
equal up to the order of keys and the sign of zero. -/
theorem canonical_json_faithful :
    (∀ v : JsonValue, ∃ canonical back, canonicalize (ofTree v.tree) = .ok canonical ∧
      parse doubles canonical = some back ∧ Same back (v.tree.map Double.plain)) ∧
    (∀ v w : JsonValue, Same v.tree w.tree → canonicalize (ofTree v.tree) = canonicalize (ofTree w.tree)) ∧
    ∀ v w : JsonValue, canonicalize (ofTree v.tree) = canonicalize (ofTree w.tree) ↔
      Same (v.tree.map Double.plain) (w.tree.map Double.plain) := by
  have hback : ∀ v : JsonValue, parse doubles (text doubles v.tree.sorted) =
      some ((v.tree.map Double.plain).sorted) := fun v => by
    rw [parse_text doubles (keyed_sorted v.keyed), map_sorted]
    rfl
  refine ⟨fun v => ?_, fun v w h => ?_, fun v w => ?_⟩
  · exact ⟨_, _, canonicalize_ofTree v.tree, hback v, same_sorted _⟩
  · rw [canonicalize_ofTree, canonicalize_ofTree, sorted_of_same h v.keyed w.keyed]
  · rw [canonicalize_ofTree, canonicalize_ofTree, same_iff (keyed_map _ v.keyed) (keyed_map _ w.keyed)]
    constructor
    · intro h
      have hparsed := congrArg (parse doubles) (Except.ok.inj h)
      rw [hback, hback] at hparsed
      exact Option.some.inj hparsed
    · intro h
      have htexts := congrArg (text doubles) h
      rw [map_sorted, map_sorted, text_plain, text_plain] at htexts
      rw [htexts]

/-- An object whose first key comes after its second, with a zero that has a
sign. -/
def unsortedSample : JsonValue where
  tree := .obj [(ascii "qty", .num ⟨true, 0, zero_fits⟩), (ascii "by", .arr [.null, .str (ascii "a,\"b")])]
  keyed := ⟨by decide, trivial, ⟨trivial, trivial, trivial⟩, trivial⟩

/-- The same object in the order of its keys. -/
def sortedSample : JsonValue where
  tree := .obj [(ascii "by", .arr [.null, .str (ascii "a,\"b")]), (ascii "qty", .num ⟨true, 0, zero_fits⟩)]
  keyed := ⟨by decide, ⟨trivial, trivial, trivial⟩, trivial, trivial⟩

theorem canonical_json_sample : canonicalize (ofTree unsortedSample.tree) = canonicalize (ofTree sortedSample.tree) ∧
    canonicalize (ofTree unsortedSample.tree) = .ok (ascii "\x7b\"by\":[null,\"a,\\\"b\"],\"qty\":0\x7d") := by
  have hsame : Same unsortedSample.tree sortedSample.tree :=
    .obj (@SameFields.cons _ _ _ _ _ [_] [] (.num _)
      (@SameFields.cons _ _ _ _ _ [] [] (.arr (.cons .null (.cons (.str _) .nil))) .nil))
  exact ⟨canonical_json_faithful.2.1 unsortedSample sortedSample hsame, by rfl⟩

end LpPlatform.CanonicalJson
