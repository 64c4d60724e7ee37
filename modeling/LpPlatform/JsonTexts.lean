import LpPlatform.JsonTrees
import Mathlib.Tactic.IntervalCases

/-!
# JSON as text

Texts are quoted as the language does it: quotes, backslashes, control
characters and unpaired surrogates are escaped. A value is printed without
white space, in the order of its fields. The reader takes all JSON, with white
space and every escape, and of fields with one key it keeps the last. Numbers
are left to a printer and a reader of their own. What is read back from the text
of a value is the value.
-/

namespace LpPlatform.JsonTexts

open JsonTrees

/-- A code unit of ASCII. -/
def unit (c : Char) : CodeUnit := Fin.ofNat 65536 c.toNat

/-- A text of ASCII. -/
def ascii (s : String) : Text := s.toList.map unit

/-- The first half of a surrogate pair. -/
def isHigh (u : CodeUnit) : Bool := 0xd800 ≤ u.val && u.val ≤ 0xdbff

/-- The second half. -/
def isLow (u : CodeUnit) : Bool := 0xdc00 ≤ u.val && u.val ≤ 0xdfff

/-- A hexadecimal digit. -/
def hexUnit (n : ℕ) : CodeUnit := unit (Nat.digitChar (n % 16))

/-- A code unit in hexadecimal digits. -/
def escaped (u : CodeUnit) : Text :=
  [unit '\\', unit 'u', hexUnit (u.val / 4096), hexUnit (u.val / 256), hexUnit (u.val / 16), hexUnit u.val]

/-- A code unit inside quotes that is not half of a pair. -/
def quoteUnit (u : CodeUnit) : Text :=
  if u = unit '"' then [unit '\\', unit '"']
  else if u = unit '\\' then [unit '\\', unit '\\']
  else if u.val = 8 then [unit '\\', unit 'b']
  else if u.val = 9 then [unit '\\', unit 't']
  else if u.val = 10 then [unit '\\', unit 'n']
  else if u.val = 12 then [unit '\\', unit 'f']
  else if u.val = 13 then [unit '\\', unit 'r']
  else if u.val < 32 || isHigh u || isLow u then escaped u
  else [u]

/-- A text inside quotes. -/
def quoteUnits : Text → Text
  | [] => []
  | [u] => quoteUnit u
  | u :: v :: rest =>
    if isHigh u && isLow v then u :: v :: quoteUnits rest else quoteUnit u ++ quoteUnits (v :: rest)

/-- A text in quotes. -/
def quote (s : Text) : Text := unit '"' :: (quoteUnits s ++ [unit '"'])

/-- The value of a hexadecimal digit. -/
def hexValue? (u : CodeUnit) : Option ℕ :=
  if 48 ≤ u.val ∧ u.val ≤ 57 then some (u.val - 48)
  else if 97 ≤ u.val ∧ u.val ≤ 102 then some (u.val - 87)
  else if 65 ≤ u.val ∧ u.val ≤ 70 then some (u.val - 55)
  else none

/-- The code unit of four hexadecimal digits. -/
def hexQuad? (a b c d : CodeUnit) : Option CodeUnit := do
  let a ← hexValue? a
  let b ← hexValue? b
  let c ← hexValue? c
  let d ← hexValue? d
  return Fin.ofNat 65536 (a * 4096 + b * 256 + c * 16 + d)

/-- The code unit that a letter after a backslash stands for. -/
def escape? (u : CodeUnit) : Option CodeUnit :=
  if u = unit '"' ∨ u = unit '\\' ∨ u = unit '/' then some u
  else if u = unit 'b' then some 8
  else if u = unit 't' then some 9
  else if u = unit 'n' then some 10
  else if u = unit 'f' then some 12
  else if u = unit 'r' then some 13
  else none

/-- A text up to its closing quote, and what comes after it. -/
def readString : Text → Option (Text × Text)
  | [] => none
  | u :: rest =>
    if u = unit '"' then some ([], rest)
    else if u = unit '\\' then
      match rest with
      | [] => none
      | e :: more =>
        if e = unit 'u' then
          match more with
          | a :: b :: c :: d :: tail =>
            (hexQuad? a b c d).bind fun x => (readString tail).map fun read => (x :: read.1, read.2)
          | _ => none
        else (escape? e).bind fun x => (readString more).map fun read => (x :: read.1, read.2)
    else if u.val < 32 then none
    else (readString rest).map fun read => (u :: read.1, read.2)

/-- A code unit of a number. -/
def isNumberUnit (u : CodeUnit) : Bool :=
  (48 ≤ u.val && u.val ≤ 57) || u = unit '+' || u = unit '-' || u = unit '.' || u = unit 'e' || u = unit 'E'

/-- Numbers with their text. -/
structure Numerals (ν : Type) where
  print : ν → Text
  read : Text → Option ν
  /-- What is left of a number in its text. -/
  plain : ν → ν
  read_print : ∀ x, read (print x) = some (plain x)
  print_ne_nil : ∀ x, print x ≠ []
  print_units : ∀ x, ∀ u ∈ print x, isNumberUnit u = true

/-- Texts with a comma between each two. -/
def joined : List Text → Text
  | [] => []
  | [t] => t
  | t :: ts => t ++ unit ',' :: joined ts

variable {ν : Type}

mutual

/-- The text of a value. -/
def text (N : Numerals ν) : JsonTree ν → Text
  | .null => ascii "null"
  | .bool b => if b then ascii "true" else ascii "false"
  | .num x => N.print x
  | .str s => quote s
  | .arr items => unit '[' :: (joined (itemTexts N items) ++ [unit ']'])
  | .obj fields => unit '\x7b' :: (joined (fieldTexts N fields) ++ [unit '\x7d'])

/-- The texts of items. -/
def itemTexts (N : Numerals ν) : List (JsonTree ν) → List Text
  | [] => []
  | item :: items => text N item :: itemTexts N items

/-- The texts of fields. -/
def fieldTexts (N : Numerals ν) : List (Text × JsonTree ν) → List Text
  | [] => []
  | (key, value) :: fields => (quote key ++ unit ':' :: text N value) :: fieldTexts N fields

end

/-- White space. -/
def isSpace (u : CodeUnit) : Bool := u.val = 32 || u.val = 9 || u.val = 10 || u.val = 13

/-- A text from its first code unit that is no space. -/
def skip (t : Text) : Text := t.dropWhile isSpace

/-- What comes after a word, if it is there. -/
def after? (word t : Text) : Option Text := if word <+: t then some (t.drop word.length) else none

/-- Fields without those whose key comes again. -/
def latest : List (Text × JsonTree ν) → List (Text × JsonTree ν)
  | [] => []
  | field :: fields => if field.1 ∈ fields.map Prod.fst then latest fields else field :: latest fields

mutual

/-- A value at the start of a text, and what comes after it. The depth of the
recursion is bounded. -/
def readValue (N : Numerals ν) : ℕ → Text → Option (JsonTree ν × Text)
  | 0, _ => none
  | fuel + 1, t =>
    match skip t with
    | [] => none
    | u :: rest =>
      if u = unit '"' then (readString rest).map fun read => (.str read.1, read.2)
      else if u = unit '[' then
        if (skip rest).head? = some (unit ']') then some (.arr [], (skip rest).tail)
        else (readItems N fuel rest).map fun read => (.arr read.1, read.2)
      else if u = unit '\x7b' then
        if (skip rest).head? = some (unit '\x7d') then some (.obj [], (skip rest).tail)
        else (readFields N fuel rest).map fun read => (.obj (latest read.1), read.2)
      else if u = unit 'n' then (after? (ascii "ull") rest).map fun more => (.null, more)
      else if u = unit 't' then (after? (ascii "rue") rest).map fun more => (.bool true, more)
      else if u = unit 'f' then (after? (ascii "alse") rest).map fun more => (.bool false, more)
      else (N.read ((u :: rest).takeWhile isNumberUnit)).map fun x =>
        (.num x, (u :: rest).dropWhile isNumberUnit)

/-- Items up to the closing bracket. -/
def readItems (N : Numerals ν) : ℕ → Text → Option (List (JsonTree ν) × Text)
  | 0, _ => none
  | fuel + 1, t =>
    (readValue N fuel t).bind fun item =>
      match skip item.2 with
      | [] => none
      | u :: rest =>
        if u = unit ',' then (readItems N fuel rest).map fun read => (item.1 :: read.1, read.2)
        else if u = unit ']' then some ([item.1], rest)
        else none

/-- Fields up to the closing brace. -/
def readFields (N : Numerals ν) : ℕ → Text → Option (List (Text × JsonTree ν) × Text)
  | 0, _ => none
  | fuel + 1, t =>
    (after? [unit '"'] (skip t)).bind fun rest =>
      (readString rest).bind fun key =>
        (after? [unit ':'] (skip key.2)).bind fun rest =>
          (readValue N fuel rest).bind fun value =>
            match skip value.2 with
            | [] => none
            | u :: rest =>
              if u = unit ',' then
                (readFields N fuel rest).map fun read => ((key.1, value.1) :: read.1, read.2)
              else if u = unit '\x7d' then some ([(key.1, value.1)], rest)
              else none

end

/-- The value of a text that is JSON. -/
def parse (N : Numerals ν) (t : Text) : Option (JsonTree ν) :=
  (readValue N (t.length + 1) t).bind fun read => if skip read.2 = [] then some read.1 else none

section Strings

/-- A hexadecimal digit is read as its value. -/
theorem hexValue?_hexUnit (n : ℕ) : hexValue? (hexUnit n) = some (n % 16) := by
  have hdigits : ∀ v < 16, hexValue? (unit (Nat.digitChar v)) = some v := by decide +kernel
  exact hdigits _ (Nat.mod_lt _ (by decide))

/-- The digits of a code unit are read as the code unit. -/
theorem hexQuad?_escaped (u : CodeUnit) : hexQuad? (hexUnit (u.val / 4096)) (hexUnit (u.val / 256))
    (hexUnit (u.val / 16)) (hexUnit u.val) = some u := by
  have hsum : u.val / 4096 % 16 * 4096 + u.val / 256 % 16 * 256 + u.val / 16 % 16 * 16 + u.val % 16 = u.val := by
    omega
  simp only [hexQuad?, hexValue?_hexUnit, Option.bind_eq_bind, Option.bind_some, hsum, Option.pure_def,
    Option.some.injEq]
  exact Fin.ofNat_val_eq_self u

/-- A code unit that is not escaped is read as it is. -/
theorem readString_plain {u : CodeUnit} (hquote : u ≠ unit '"') (hslash : u ≠ unit '\\') (hspace : 32 ≤ u.val)
    (rest : Text) : readString (u :: rest) = (readString rest).map fun read => (u :: read.1, read.2) := by
  conv_lhs => rw [readString.eq_def]
  simp only [if_neg hquote, if_neg hslash, if_neg (not_lt.mpr hspace)]

/-- A letter after a backslash is read as its code unit. -/
theorem readString_escape {e u : CodeUnit} (hletter : e ≠ unit 'u') (h : escape? e = some u) (rest : Text) :
    readString (unit '\\' :: e :: rest) = (readString rest).map fun read => (u :: read.1, read.2) := by
  have hquote : unit '\\' ≠ unit '"' := by decide
  conv_lhs => rw [readString.eq_def]
  simp only [if_neg hquote, if_true, if_neg hletter, h, Option.bind_some]

/-- Hexadecimal digits are read as their code unit. -/
theorem readString_escaped (u : CodeUnit) (rest : Text) :
    readString (escaped u ++ rest) = (readString rest).map fun read => (u :: read.1, read.2) := by
  have hquote : unit '\\' ≠ unit '"' := by decide
  simp only [escaped, List.cons_append, List.nil_append]
  conv_lhs => rw [readString.eq_def]
  simp only [if_neg hquote, if_true, hexQuad?_escaped, Option.bind_some]

/-- A code unit is read back from its quoted form. -/
theorem readString_quoteUnit (u : CodeUnit) (rest : Text) :
    readString (quoteUnit u ++ rest) = (readString rest).map fun read => (u :: read.1, read.2) := by
  unfold quoteUnit
  split
  · rename_i h
    exact readString_escape (by decide) (by rw [h]; decide) rest
  split
  · rename_i h
    exact readString_escape (by decide) (by rw [h]; decide) rest
  split
  · rename_i h
    obtain rfl : u = 8 := Fin.ext h
    exact readString_escape (by decide) (by decide) rest
  split
  · rename_i h
    obtain rfl : u = 9 := Fin.ext h
    exact readString_escape (by decide) (by decide) rest
  split
  · rename_i h
    obtain rfl : u = 10 := Fin.ext h
    exact readString_escape (by decide) (by decide) rest
  split
  · rename_i h
    obtain rfl : u = 12 := Fin.ext h
    exact readString_escape (by decide) (by decide) rest
  split
  · rename_i h
    obtain rfl : u = 13 := Fin.ext h
    exact readString_escape (by decide) (by decide) rest
  split
  · exact readString_escaped u rest
  · rename_i hquote hslash _ _ _ _ _ hplain
    simp only [Bool.or_eq_true, decide_eq_true_eq, not_or] at hplain
    exact readString_plain hquote hslash (not_lt.mp hplain.1.1) rest

/-- Half of a pair is no quote, backslash or control character. -/
theorem surrogate_plain {u : CodeUnit} (h : 0xd800 ≤ u.val) : u ≠ unit '"' ∧ u ≠ unit '\\' ∧ 32 ≤ u.val := by
  have hquote : (unit '"').val = 34 := by decide
  have hslash : (unit '\\').val = 92 := by decide
  refine ⟨fun heq => ?_, fun heq => ?_, by omega⟩
  · rw [heq, hquote] at h
    omega
  · rw [heq, hslash] at h
    omega

/-- A quoted text is read back, up to its closing quote. -/
theorem readString_quoteUnits (s rest : Text) :
    readString (quoteUnits s ++ unit '"' :: rest) = some (s, rest) := by
  have hclose : readString (unit '"' :: rest) = some ([], rest) := by
    rw [readString.eq_def]
    simp only [if_true]
  induction s using quoteUnits.induct with
  | case1 => exact hclose
  | case2 u =>
    rw [quoteUnits, readString_quoteUnit, hclose]
    rfl
  | case3 u v tail hpair ih =>
    rw [quoteUnits, if_pos hpair]
    simp only [isHigh, isLow, Bool.and_eq_true, decide_eq_true_eq] at hpair
    obtain ⟨hu, hu', hu''⟩ := surrogate_plain hpair.1.1
    obtain ⟨hv, hv', hv''⟩ := surrogate_plain (Nat.le_trans (by decide) hpair.2.1)
    rw [List.cons_append, List.cons_append, readString_plain hu hu' hu'', readString_plain hv hv' hv'', ih]
    rfl
  | case4 u v tail hpair ih =>
    rw [quoteUnits, if_neg hpair, List.append_assoc, readString_quoteUnit, ih]
    rfl

end Strings

section Tokens

variable {N : Numerals ν} {fuel : ℕ} {u : CodeUnit} {t rest : Text}

/-- The text does not go on with a number. -/
def Ends (t : Text) : Prop := ∀ u ∈ t.head?, isNumberUnit u = false

/-- What a value may start with: no space and no closing bracket. -/
def Opens (t : Text) : Prop := ∃ u rest, t = u :: rest ∧ isSpace u = false ∧ u ≠ unit ']'

theorem skip_cons (h : isSpace u = false) (t : Text) : skip (u :: t) = u :: t :=
  List.dropWhile_cons_of_neg (by simp [h])

theorem after?_append (word t : Text) : after? word (word ++ t) = some t := by
  rw [after?, if_pos (List.prefix_append word t), List.drop_left]

/-- Fields with distinct keys all stay. -/
theorem latest_of_nodup {fields : List (Text × JsonTree ν)} (h : (fields.map Prod.fst).Nodup) :
    latest fields = fields := by
  induction fields with
  | nil => rfl
  | cons field fields ih =>
    rw [List.map_cons, List.nodup_cons] at h
    rw [latest, if_neg h.1, ih h.2]

/-- A code unit of a number is no space, and nothing else starts with it. -/
theorem numberUnit_ne (h : isNumberUnit u = true) : isSpace u = false ∧
    u ≠ unit '"' ∧ u ≠ unit '[' ∧ u ≠ unit '\x7b' ∧ u ≠ unit 'n' ∧ u ≠ unit 't' ∧ u ≠ unit 'f' ∧ u ≠ unit ']' := by
  have hspace : isSpace u = false := by
    by_contra hspace
    simp only [isSpace, Bool.not_eq_false, Bool.or_eq_true, decide_eq_true_eq] at hspace
    have hcases : u = 32 ∨ u = 9 ∨ u = 10 ∨ u = 13 := by
      rcases hspace with ((h | h) | h) | h
      · exact .inl (Fin.ext h)
      · exact .inr (.inl (Fin.ext h))
      · exact .inr (.inr (.inl (Fin.ext h)))
      · exact .inr (.inr (.inr (Fin.ext h)))
    rcases hcases with rfl | rfl | rfl | rfl <;> simp [isNumberUnit, unit] at h
  refine ⟨hspace, ?_, ?_, ?_, ?_, ?_, ?_, ?_⟩ <;> rintro rfl <;> exact absurd h (by decide)

/-- How a value is read whose text starts with no space. -/
theorem readValue_cons (N : Numerals ν) (fuel : ℕ) (h : isSpace u = false) (t : Text) :
    readValue N (fuel + 1) (u :: t) =
      if u = unit '"' then (readString t).map fun read => (.str read.1, read.2)
      else if u = unit '[' then
        if (skip t).head? = some (unit ']') then some (.arr [], (skip t).tail)
        else (readItems N fuel t).map fun read => (.arr read.1, read.2)
      else if u = unit '\x7b' then
        if (skip t).head? = some (unit '\x7d') then some (.obj [], (skip t).tail)
        else (readFields N fuel t).map fun read => (.obj (latest read.1), read.2)
      else if u = unit 'n' then (after? (ascii "ull") t).map fun more => (.null, more)
      else if u = unit 't' then (after? (ascii "rue") t).map fun more => (.bool true, more)
      else if u = unit 'f' then (after? (ascii "alse") t).map fun more => (.bool false, more)
      else (N.read ((u :: t).takeWhile isNumberUnit)).map fun x =>
        (.num x, (u :: t).dropWhile isNumberUnit) := by
  rw [readValue, skip_cons h]

/-- A number is read from its text. -/
theorem readValue_number (N : Numerals ν) (fuel : ℕ) (x : ν) (hrest : Ends rest) :
    readValue N (fuel + 1) (N.print x ++ rest) = some (.num (N.plain x), rest) := by
  have hunits := N.print_units x
  have hread := N.read_print x
  have hstop : rest.takeWhile isNumberUnit = [] ∧ rest.dropWhile isNumberUnit = rest := by
    cases rest with
    | nil => exact ⟨rfl, rfl⟩
    | cons v more =>
      have hv : ¬ isNumberUnit v = true := by simp [hrest v rfl]
      exact ⟨List.takeWhile_cons_of_neg hv, List.dropWhile_cons_of_neg hv⟩
  have htake : (N.print x ++ rest).takeWhile isNumberUnit = N.print x := by
    rw [List.takeWhile_append_of_pos hunits, hstop.1, List.append_nil]
  have hdrop : (N.print x ++ rest).dropWhile isNumberUnit = rest := by
    rw [List.dropWhile_append_of_pos hunits, hstop.2]
  obtain ⟨u, t, hprint⟩ := List.exists_cons_of_ne_nil (N.print_ne_nil x)
  have hu := numberUnit_ne (hunits u (by rw [hprint]; exact List.mem_cons_self))
  rw [hprint, List.cons_append] at htake hdrop ⊢
  rw [readValue_cons N fuel hu.1, htake, hdrop]
  simp only [if_neg hu.2.1, if_neg hu.2.2.1, if_neg hu.2.2.2.1, if_neg hu.2.2.2.2.1, if_neg hu.2.2.2.2.2.1,
    if_neg hu.2.2.2.2.2.2.1, ← hprint, hread, Option.map_some]

/-- The text of a value starts with no space and no closing bracket. -/
theorem text_opens (N : Numerals ν) (v : JsonTree ν) : Opens (text N v) := by
  cases v with
  | null => exact ⟨unit 'n', ascii "ull", rfl, by decide, by decide⟩
  | bool b =>
    cases b with
    | true => exact ⟨unit 't', ascii "rue", rfl, by decide, by decide⟩
    | false => exact ⟨unit 'f', ascii "alse", rfl, by decide, by decide⟩
  | num x =>
    obtain ⟨u, t, hprint⟩ := List.exists_cons_of_ne_nil (N.print_ne_nil x)
    have hu := numberUnit_ne (N.print_units x u (by rw [hprint]; exact List.mem_cons_self))
    exact ⟨u, t, hprint, hu.1, hu.2.2.2.2.2.2.2⟩
  | str s => exact ⟨_, _, rfl, by decide, by decide⟩
  | arr items =>
    rw [text]
    exact ⟨_, _, rfl, by decide, by decide⟩
  | obj fields =>
    rw [text]
    exact ⟨_, _, rfl, by decide, by decide⟩

end Tokens

section Reading

theorem ends_of_unit {u : CodeUnit} (h : isNumberUnit u = false) (t : Text) : Ends (u :: t) := fun _ hv =>
  Option.some.inj hv ▸ h

/-- Joined texts start with the first of them. -/
theorem joined_start (t : Text) (ts : List Text) : ∃ more, joined (t :: ts) = t ++ more := by
  cases ts with
  | nil => exact ⟨[], (List.append_nil t).symm⟩
  | cons t' ts => exact ⟨_, rfl⟩

/-- An item is read up to the comma or the bracket after it. -/
theorem readItems_item {N : Numerals ν} {fuel : ℕ} {t rest : Text} {item : JsonTree ν} {u : CodeUnit}
    (hread : readValue N fuel t = some (item, u :: rest)) (hu : isSpace u = false) :
    readItems N (fuel + 1) t =
      if u = unit ',' then (readItems N fuel rest).map fun read => (item :: read.1, read.2)
      else if u = unit ']' then some ([item], rest)
      else none := by
  rw [readItems, hread, Option.bind_some]
  simp only [skip_cons hu]

/-- A field is read up to the comma or the brace after it. -/
theorem readFields_field {N : Numerals ν} {fuel : ℕ} {key t rest : Text} {value : JsonTree ν} {u : CodeUnit}
    (hread : readValue N fuel t = some (value, u :: rest)) (hu : isSpace u = false) :
    readFields N (fuel + 1) (quote key ++ unit ':' :: t) =
      if u = unit ',' then (readFields N fuel rest).map fun read => ((key, value) :: read.1, read.2)
      else if u = unit '\x7d' then some ([(key, value)], rest)
      else none := by
  have hquote : after? [unit '"'] (skip (quote key ++ unit ':' :: t)) =
      some (quoteUnits key ++ unit '"' :: unit ':' :: t) := by
    rw [quote, List.cons_append, skip_cons (by decide), List.append_assoc]
    exact after?_append [unit '"'] _
  have hcolon : after? [unit ':'] (skip (unit ':' :: t)) = some t := by
    rw [skip_cons (by decide)]
    exact after?_append [unit ':'] t
  rw [readFields, hquote, Option.bind_some, readString_quoteUnits, Option.bind_some, hcolon, Option.bind_some,
    hread, Option.bind_some]
  simp only [skip_cons hu]

mutual

/-- A value is read back from its text, whatever comes after it. -/
theorem readValue_text (N : Numerals ν) : ∀ {v : JsonTree ν}, v.Keyed → ∀ {fuel : ℕ} {rest : Text},
    (text N v).length ≤ fuel → Ends rest → readValue N fuel (text N v ++ rest) = some (v.map N.plain, rest)
  | v, _, 0, rest, hfuel, _ => by
    obtain ⟨u, t, ht, -, -⟩ := text_opens N v
    rw [ht] at hfuel
    simp at hfuel
  | .null, _, fuel + 1, rest, _, _ => by
    have hnull : text N (.null : JsonTree ν) = unit 'n' :: ascii "ull" := rfl
    rw [hnull, List.cons_append, readValue_cons N fuel (by decide)]
    simp only [after?_append]
    rfl
  | .bool true, _, fuel + 1, rest, _, _ => by
    have htrue : text N (.bool true : JsonTree ν) = unit 't' :: ascii "rue" := rfl
    rw [htrue, List.cons_append, readValue_cons N fuel (by decide)]
    simp only [after?_append]
    rfl
  | .bool false, _, fuel + 1, rest, _, _ => by
    have hfalse : text N (.bool false : JsonTree ν) = unit 'f' :: ascii "alse" := rfl
    rw [hfalse, List.cons_append, readValue_cons N fuel (by decide)]
    simp only [after?_append]
    rfl
  | .num x, _, fuel + 1, rest, _, hrest => readValue_number N fuel x hrest
  | .str s, _, fuel + 1, rest, _, _ => by
    have hquote : text N (.str s : JsonTree ν) ++ rest = unit '"' :: (quoteUnits s ++ unit '"' :: rest) := by
      rw [text, quote, List.cons_append, List.append_assoc]
      rfl
    rw [hquote, readValue_cons N fuel (by decide), if_pos rfl, readString_quoteUnits]
    rfl
  | .arr [], _, fuel + 1, rest, _, _ => by
    have hempty : text N (.arr [] : JsonTree ν) ++ rest = unit '[' :: unit ']' :: rest := rfl
    rw [hempty, readValue_cons N fuel (by decide), if_neg (by decide), if_pos rfl, skip_cons (by decide),
      if_pos List.head?_cons]
    rfl
  | .arr (item :: items), hv, fuel + 1, rest, hfuel, _ => by
    rw [JsonTree.Keyed] at hv
    have htext : text N (.arr (item :: items)) ++ rest =
        unit '[' :: (joined (itemTexts N (item :: items)) ++ unit ']' :: rest) := by
      rw [text, List.cons_append, List.append_assoc]
      rfl
    have hlength : (joined (itemTexts N (item :: items))).length < fuel := by
      rw [text, List.length_cons, List.length_append, List.length_singleton] at hfuel
      omega
    have hfirst : (skip (joined (itemTexts N (item :: items)) ++ unit ']' :: rest)).head? ≠ some (unit ']') := by
      obtain ⟨u, t, ht, hspace, hbracket⟩ := text_opens N item
      obtain ⟨more, hmore⟩ := joined_start (text N item) (itemTexts N items)
      rw [itemTexts, hmore, ht, List.append_assoc, List.cons_append, skip_cons hspace]
      exact fun heq => hbracket (Option.some.inj heq)
    rw [htext, readValue_cons N fuel (by decide), if_neg (by decide), if_pos rfl, if_neg hfirst,
      readItems_texts N (List.cons_ne_nil _ _) hv hlength]
    rfl
  | .obj [], _, fuel + 1, rest, _, _ => by
    have hempty : text N (.obj [] : JsonTree ν) ++ rest = unit '\x7b' :: unit '\x7d' :: rest := rfl
    rw [hempty, readValue_cons N fuel (by decide), if_neg (by decide), if_neg (by decide), if_pos rfl,
      skip_cons (by decide), if_pos List.head?_cons]
    rfl
  | .obj ((key, value) :: fields), hv, fuel + 1, rest, hfuel, _ => by
    rw [JsonTree.Keyed] at hv
    have htext : text N (.obj ((key, value) :: fields)) ++ rest =
        unit '\x7b' :: (joined (fieldTexts N ((key, value) :: fields)) ++ unit '\x7d' :: rest) := by
      rw [text, List.cons_append, List.append_assoc]
      rfl
    have hlength : (joined (fieldTexts N ((key, value) :: fields))).length < fuel := by
      rw [text, List.length_cons, List.length_append, List.length_singleton] at hfuel
      omega
    have hfirst : (skip (joined (fieldTexts N ((key, value) :: fields)) ++ unit '\x7d' :: rest)).head? ≠
        some (unit '\x7d') := by
      obtain ⟨more, hmore⟩ := joined_start (quote key ++ unit ':' :: text N value) (fieldTexts N fields)
      rw [fieldTexts, hmore, quote, List.append_assoc, List.append_assoc, List.cons_append, skip_cons (by decide)]
      exact fun heq => absurd (Option.some.inj heq) (by decide)
    have hkeys : ((mapFields N.plain ((key, value) :: fields)).map Prod.fst).Nodup := by
      rw [mapFields_eq, List.map_map]
      exact hv.1
    rw [htext, readValue_cons N fuel (by decide), if_neg (by decide), if_neg (by decide), if_pos rfl, if_neg hfirst,
      readFields_texts N (List.cons_ne_nil _ _) hv.2 hlength, Option.map_some, latest_of_nodup hkeys]
    rfl

/-- Items are read back up to the closing bracket. -/
theorem readItems_texts (N : Numerals ν) : ∀ {items : List (JsonTree ν)}, items ≠ [] → KeyedItems items →
    ∀ {fuel : ℕ} {rest : Text}, (joined (itemTexts N items)).length < fuel →
      readItems N fuel (joined (itemTexts N items) ++ unit ']' :: rest) = some (mapItems N.plain items, rest)
  | [], hne, _, _, _, _ => absurd rfl hne
  | _ :: _, _, _, 0, _, hfuel => by simp at hfuel
  | [item], _, hv, fuel + 1, rest, hfuel => by
    rw [KeyedItems] at hv
    have hread := readValue_text N hv.1 (Nat.lt_succ_iff.mp hfuel)
      (ends_of_unit (by decide : isNumberUnit (unit ']') = false) rest)
    exact readItems_item hread (by decide)
  | item :: other :: items, _, hv, fuel + 1, rest, hfuel => by
    rw [KeyedItems] at hv
    have hsplit : joined (itemTexts N (item :: other :: items)) =
        text N item ++ unit ',' :: joined (itemTexts N (other :: items)) := rfl
    rw [hsplit, List.length_append, List.length_cons] at hfuel
    have hread := readValue_text N hv.1 (by omega : (text N item).length ≤ fuel)
      (ends_of_unit (by decide : isNumberUnit (unit ',') = false)
        (joined (itemTexts N (other :: items)) ++ unit ']' :: rest))
    have hrest := @readItems_texts N (other :: items) (List.cons_ne_nil _ _) hv.2 fuel rest (by omega)
    rw [hsplit, List.append_assoc, List.cons_append, readItems_item hread (by decide), if_pos rfl, hrest]
    rfl

/-- Fields are read back up to the closing brace. -/
theorem readFields_texts (N : Numerals ν) : ∀ {fields : List (Text × JsonTree ν)}, fields ≠ [] → KeyedFields fields →
    ∀ {fuel : ℕ} {rest : Text}, (joined (fieldTexts N fields)).length < fuel →
      readFields N fuel (joined (fieldTexts N fields) ++ unit '\x7d' :: rest) = some (mapFields N.plain fields, rest)
  | [], hne, _, _, _, _ => absurd rfl hne
  | _ :: _, _, _, 0, _, hfuel => by simp at hfuel
  | [(key, value)], _, hv, fuel + 1, rest, hfuel => by
    rw [KeyedFields] at hv
    have hsplit : joined (fieldTexts N [(key, value)]) = quote key ++ unit ':' :: text N value := rfl
    rw [hsplit, List.length_append, List.length_cons] at hfuel
    have hread := readValue_text N hv.1 (by omega : (text N value).length ≤ fuel)
      (ends_of_unit (by decide : isNumberUnit (unit '\x7d') = false) rest)
    rw [hsplit, List.append_assoc, List.cons_append]
    exact readFields_field hread (by decide)
  | (key, value) :: other :: fields, _, hv, fuel + 1, rest, hfuel => by
    rw [KeyedFields] at hv
    have hsplit : joined (fieldTexts N ((key, value) :: other :: fields)) =
        quote key ++ unit ':' :: text N value ++ unit ',' :: joined (fieldTexts N (other :: fields)) := rfl
    rw [hsplit, List.length_append, List.length_append, List.length_cons, List.length_cons] at hfuel
    have hread := readValue_text N hv.1 (by omega : (text N value).length ≤ fuel)
      (ends_of_unit (by decide : isNumberUnit (unit ',') = false)
        (joined (fieldTexts N (other :: fields)) ++ unit '\x7d' :: rest))
    have hrest := @readFields_texts N (other :: fields) (List.cons_ne_nil _ _) hv.2 fuel rest (by omega)
    rw [hsplit, List.append_assoc, List.append_assoc, List.cons_append, List.cons_append,
      readFields_field hread (by decide), if_pos rfl, hrest]
    rfl

end

/-- A value with distinct keys is read back from its text, up to what its
numbers lose. -/
theorem parse_text (N : Numerals ν) {v : JsonTree ν} (hv : v.Keyed) : parse N (text N v) = some (v.map N.plain) := by
  have hends : Ends [] := fun _ hu => by simp at hu
  have hread := readValue_text N hv (Nat.le_succ _) hends
  rw [List.append_nil] at hread
  rw [parse, hread]
  rfl

end Reading

end LpPlatform.JsonTexts
