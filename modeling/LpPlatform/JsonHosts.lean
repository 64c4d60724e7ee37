import LpPlatform.JsValues
import LpPlatform.JsonTexts

/-!
# Values as text and back

A text of characters is a text of code units in which no half of a pair stands
alone, so nothing is lost between the two. A value without numbers, and with
distinct keys in its objects, is printed and read back as it was.
-/

namespace LpPlatform.JsonHosts

open JsValues JsonTexts JsonTrees

theorem codeUnits_pos : 0 < 65536 := by decide

/-- A number as a code unit. -/
def codeUnit (n : ℕ) : CodeUnit := ⟨n % 65536, Nat.mod_lt n codeUnits_pos⟩

/-- The code units of a character. -/
def charUnits (c : Char) : Text :=
  if c.toNat < 0x10000 then [codeUnit c.toNat]
  else [codeUnit (0xd800 + (c.toNat - 0x10000) / 0x400), codeUnit (0xdc00 + (c.toNat - 0x10000) % 0x400)]

/-- The code units of a text. -/
def units (cs : List Char) : Text := cs.flatMap charUnits

/-- The character of a code point, or the replacement character. -/
def scalar (n : ℕ) : Char := if n.isValidChar then Char.ofNat n else Char.ofNat 0xfffd

/-- The characters of a text of code units. -/
def chars : Text → List Char
  | [] => []
  | [u] => [scalar u.val]
  | u :: v :: rest =>
    if isHigh u && isLow v then scalar (0x10000 + (u.val - 0xd800) * 0x400 + (v.val - 0xdc00)) :: chars rest
    else scalar u.val :: chars (v :: rest)

theorem scalar_toNat (c : Char) : scalar c.toNat = c := by
  have hvalid : c.toNat.isValidChar := c.valid
  rw [scalar, if_pos hvalid]
  exact Char.ofNat_toNat c

/-- A character is read from its code units, whatever comes after them. -/
theorem chars_charUnits (c : Char) (rest : Text) : chars (charUnits c ++ rest) = c :: chars rest := by
  have hvalid : c.toNat < 0xd800 ∨ (0xdfff < c.toNat ∧ c.toNat < 0x110000) := c.valid
  by_cases hsmall : c.toNat < 0x10000
  · have hval : (codeUnit c.toNat).val = c.toNat := Nat.mod_eq_of_lt hsmall
    have hhigh : isHigh (codeUnit c.toNat) = false := by
      simp only [isHigh, hval, Bool.and_eq_false_iff, decide_eq_false_iff_not]
      omega
    rw [charUnits, if_pos hsmall]
    cases rest with
    | nil => simp only [List.append_nil, chars, hval, scalar_toNat]
    | cons v rest =>
      simp only [List.cons_append, List.nil_append, chars, hhigh, Bool.false_and, Bool.false_eq_true,
        if_false, hval, scalar_toNat]
  · have hhigh : (codeUnit (0xd800 + (c.toNat - 0x10000) / 0x400)).val =
        0xd800 + (c.toNat - 0x10000) / 0x400 := Nat.mod_eq_of_lt (by omega)
    have hlow : (codeUnit (0xdc00 + (c.toNat - 0x10000) % 0x400)).val =
        0xdc00 + (c.toNat - 0x10000) % 0x400 := Nat.mod_eq_of_lt (by omega)
    have hpair : (isHigh (codeUnit (0xd800 + (c.toNat - 0x10000) / 0x400)) &&
        isLow (codeUnit (0xdc00 + (c.toNat - 0x10000) % 0x400))) = true := by
      simp only [isHigh, isLow, hhigh, hlow, Bool.and_eq_true, decide_eq_true_eq]
      omega
    have hpoint : 0x10000 + (0xd800 + (c.toNat - 0x10000) / 0x400 - 0xd800) * 0x400 +
        (0xdc00 + (c.toNat - 0x10000) % 0x400 - 0xdc00) = c.toNat := by omega
    rw [charUnits, if_neg hsmall]
    simp only [List.cons_append, List.nil_append, chars, hpair, if_true, hhigh, hlow, hpoint, scalar_toNat]

theorem chars_units (cs : List Char) : chars (units cs) = cs := by
  induction cs with
  | nil => rfl
  | cons c cs ih => rw [units, List.flatMap_cons, chars_charUnits, ← units, ih]

theorem units_inj {s t : String} (h : units s.toList = units t.toList) : s = t := by
  have hlists := congrArg chars h
  rw [chars_units, chars_units] at hlists
  exact String.toList_inj.mp hlists

mutual

/-- No numbers, and distinct keys. -/
def Plain : Json → Prop
  | .null | .bool _ | .str _ => True
  | .num _ => False
  | .arr items => PlainItems items
  | .obj fields => (fields.map Prod.fst).Nodup ∧ PlainFields fields

/-- So are all items. -/
def PlainItems : List Json → Prop
  | [] => True
  | item :: items => Plain item ∧ PlainItems items

/-- So are the values of all fields. -/
def PlainFields : List (String × Json) → Prop
  | [] => True
  | (_, value) :: fields => Plain value ∧ PlainFields fields

end

mutual

/-- The tree of a value, with null for a number. -/
def tree : Json → JsonTree Empty
  | .null | .num _ => .null
  | .bool b => .bool b
  | .str s => .str (units s.toList)
  | .arr items => .arr (itemTrees items)
  | .obj fields => .obj (fieldTrees fields)

/-- The trees of items. -/
def itemTrees : List Json → List (JsonTree Empty)
  | [] => []
  | item :: items => tree item :: itemTrees items

/-- The trees of fields. -/
def fieldTrees : List (String × Json) → List (Text × JsonTree Empty)
  | [] => []
  | (key, value) :: fields => (units key.toList, tree value) :: fieldTrees fields

end

mutual

/-- The value of a tree. -/
def value : JsonTree Empty → Json
  | .null => .null
  | .bool b => .bool b
  | .num x => nomatch x
  | .str s => .str (String.ofList (chars s))
  | .arr items => .arr (itemValues items)
  | .obj fields => .obj (fieldValues fields)

/-- The values of items. -/
def itemValues : List (JsonTree Empty) → List Json
  | [] => []
  | item :: items => value item :: itemValues items

/-- The values of fields. -/
def fieldValues : List (Text × JsonTree Empty) → List (String × Json)
  | [] => []
  | (key, field) :: fields => (String.ofList (chars key), value field) :: fieldValues fields

end

mutual

theorem value_tree : ∀ {v : Json}, Plain v → value (tree v) = v
  | .null, _ => rfl
  | .bool b, _ => rfl
  | .num n, h => h.elim
  | .str s, _ => by rw [tree, value, chars_units, String.ofList_toList]
  | .arr items, h => by rw [tree, value, itemValues_trees h]
  | .obj fields, h => by rw [tree, value, fieldValues_trees h.2]

theorem itemValues_trees : ∀ {items : List Json}, PlainItems items → itemValues (itemTrees items) = items
  | [], _ => rfl
  | item :: items, h => by rw [itemTrees, itemValues, value_tree h.1, itemValues_trees h.2]

theorem fieldValues_trees : ∀ {fields : List (String × Json)}, PlainFields fields →
    fieldValues (fieldTrees fields) = fields
  | [], _ => rfl
  | (key, field) :: fields, h => by
    rw [fieldTrees, fieldValues, value_tree h.1, fieldValues_trees h.2, chars_units, String.ofList_toList]

end

theorem keys_fieldTrees (fields : List (String × Json)) :
    (fieldTrees fields).map Prod.fst = (fields.map Prod.fst).map fun key => units key.toList := by
  induction fields with
  | nil => rfl
  | cons field fields ih => simp [fieldTrees, ih]

mutual

theorem keyed_tree : ∀ {v : Json}, Plain v → (tree v).Keyed
  | .null, _ | .bool _, _ | .str _, _ => by trivial
  | .num n, h => h.elim
  | .arr items, h => keyedItems_trees h
  | .obj fields, h => by
    refine ⟨?_, keyedFields_trees h.2⟩
    rw [keys_fieldTrees]
    exact h.1.map fun _ _ => units_inj

theorem keyedItems_trees : ∀ {items : List Json}, PlainItems items → KeyedItems (itemTrees items)
  | [], _ => trivial
  | _ :: _, h => ⟨keyed_tree h.1, keyedItems_trees h.2⟩

theorem keyedFields_trees : ∀ {fields : List (String × Json)}, PlainFields fields →
    KeyedFields (fieldTrees fields)
  | [], _ => trivial
  | _ :: _, h => ⟨keyed_tree h.1, keyedFields_trees h.2⟩

end

/-- A printer and a reader of values. -/
structure JsonHost where
  /-- `JSON.stringify`. -/
  stringify : Json → String
  /-- `JSON.parse`, none when it throws. -/
  parse : String → Option Json
  /-- Nothing is lost of a value without numbers. -/
  parse_stringify : ∀ v, Plain v → parse (stringify v) = some v
  stringify_ne : ∀ v, stringify v ≠ ""

/-- There are no numbers. -/
def noNumerals : Numerals Empty where
  print x := nomatch x
  read _ := none
  plain := id
  read_print x := nomatch x
  print_ne_nil x := nomatch x
  print_units x := nomatch x

mutual

theorem map_id_tree : ∀ v : JsonTree Empty, v.map id = v
  | .null | .bool _ | .str _ => rfl
  | .num x => nomatch x
  | .arr items => by rw [JsonTree.map, mapItems_id items]
  | .obj fields => by rw [JsonTree.map, mapFields_id fields]

theorem mapItems_id : ∀ items : List (JsonTree Empty), mapItems id items = items
  | [] => rfl
  | item :: items => by rw [mapItems, map_id_tree item, mapItems_id items]

theorem mapFields_id : ∀ fields : List (Text × JsonTree Empty), mapFields id fields = fields
  | [] => rfl
  | (key, field) :: fields => by rw [mapFields, map_id_tree field, mapFields_id fields]

end

theorem toNat_ofNat {n : ℕ} (h : n.isValidChar) : (Char.ofNat n).toNat = n := by
  have hofNat : Char.ofNat n = Char.ofNatAux n h := dif_pos h
  rw [hofNat]
  rfl

/-- The text of some characters. -/
def Whole (t : Text) : Prop := ∃ cs, t = units cs

theorem whole_nil : Whole [] := ⟨[], rfl⟩

theorem whole_append {s t : Text} (hs : Whole s) (ht : Whole t) : Whole (s ++ t) := by
  obtain ⟨cs, rfl⟩ := hs
  obtain ⟨ds, rfl⟩ := ht
  exact ⟨cs ++ ds, by simp [units]⟩

theorem whole_unit {u : CodeUnit} (hhigh : isHigh u = false) (hlow : isLow u = false) : Whole [u] := by
  have hvalid : u.val.isValidChar := by
    simp only [isHigh, isLow, Bool.and_eq_false_iff, decide_eq_false_iff_not] at hhigh hlow
    have hlt := u.isLt
    simp only [Nat.isValidChar]
    omega
  have hnat : (Char.ofNat u.val).toNat = u.val := toNat_ofNat hvalid
  refine ⟨[Char.ofNat u.val], ?_⟩
  simp [units, charUnits, hnat, codeUnit, Nat.mod_eq_of_lt u.isLt]

theorem whole_cons {u : CodeUnit} {t : Text} (hhigh : isHigh u = false) (hlow : isLow u = false)
    (ht : Whole t) : Whole (u :: t) := whole_append (s := [u]) (whole_unit hhigh hlow) ht

theorem whole_pair {u v : CodeUnit} (hu : isHigh u = true) (hv : isLow v = true) : Whole [u, v] := by
  simp only [isHigh, isLow, Bool.and_eq_true, decide_eq_true_eq] at hu hv
  have hvalid : (0x10000 + (u.val - 0xd800) * 0x400 + (v.val - 0xdc00)).isValidChar := by
    simp only [Nat.isValidChar]
    omega
  have hnat := toNat_ofNat hvalid
  refine ⟨[Char.ofNat (0x10000 + (u.val - 0xd800) * 0x400 + (v.val - 0xdc00))], ?_⟩
  have hlarge : ¬ 0x10000 + (u.val - 0xd800) * 0x400 + (v.val - 0xdc00) < 0x10000 := by omega
  have hhigh : 0xd800 + (0x10000 + (u.val - 0xd800) * 0x400 + (v.val - 0xdc00) - 0x10000) / 0x400 = u.val := by
    omega
  have hlow : 0xdc00 + (0x10000 + (u.val - 0xd800) * 0x400 + (v.val - 0xdc00) - 0x10000) % 0x400 = v.val := by
    omega
  simp only [units, List.flatMap_cons, List.flatMap_nil, List.append_nil, charUnits, hnat, if_neg hlarge,
    hhigh, hlow]
  simp [codeUnit, Nat.mod_eq_of_lt u.isLt, Nat.mod_eq_of_lt v.isLt]

/-- Words of ASCII. -/
theorem whole_ascii {s : String} (h : ∀ c ∈ s.toList, c.toNat < 0xd800) : Whole (ascii s) := by
  refine ⟨s.toList, ?_⟩
  rw [ascii, units]
  generalize s.toList = cs at h
  induction cs with
  | nil => rfl
  | cons c cs ih =>
    have hc := h c List.mem_cons_self
    rw [List.map_cons, List.flatMap_cons, ih fun x hx => h x (List.mem_cons_of_mem c hx), charUnits,
      if_pos (by omega), List.singleton_append]
    rfl

theorem whole_word {s : String} (h : s.toList.all (fun c => c.toNat < 0xd800) = true) : Whole (ascii s) :=
  whole_ascii fun c hc => of_decide_eq_true (List.all_eq_true.mp h c hc)

/-- A code unit inside quotes. -/
theorem whole_quoteUnit (u : CodeUnit) : Whole (quoteUnit u) := by
  have hhex : ∀ n, isHigh (hexUnit n) = false ∧ isLow (hexUnit n) = false := by
    intro n
    have hlt : n % 16 < 16 := Nat.mod_lt n (by omega)
    rw [hexUnit]
    generalize n % 16 = m at hlt
    interval_cases m <;> exact ⟨rfl, rfl⟩
  have hescaped : Whole (escaped u) := by
    refine whole_cons rfl rfl (whole_cons rfl rfl ?_)
    exact whole_cons (hhex _).1 (hhex _).2 (whole_cons (hhex _).1 (hhex _).2
      (whole_cons (hhex _).1 (hhex _).2 (whole_unit (hhex _).1 (hhex _).2)))
  unfold quoteUnit
  split
  · exact whole_word (s := "\\\"") (by decide)
  · split
    · exact whole_word (s := "\\\\") (by decide)
    · split
      · exact whole_word (s := "\\b") (by decide)
      · split
        · exact whole_word (s := "\\t") (by decide)
        · split
          · exact whole_word (s := "\\n") (by decide)
          · split
            · exact whole_word (s := "\\f") (by decide)
            · split
              · exact whole_word (s := "\\r") (by decide)
              · split
                · exact hescaped
                · rename_i hplain
                  simp only [Bool.or_eq_true, not_or, Bool.not_eq_true] at hplain
                  exact whole_unit hplain.1.2 hplain.2

/-- A text inside quotes. -/
theorem whole_quoteUnits (s : Text) : Whole (quoteUnits s) := by
  fun_induction quoteUnits s with
  | case1 => exact whole_nil
  | case2 u => exact whole_quoteUnit u
  | case3 u v rest hpair ih =>
    obtain ⟨hu, hv⟩ := Bool.and_eq_true_iff.mp hpair
    exact whole_append (s := [u, v]) (whole_pair hu hv) ih
  | case4 u v rest hpair ih => exact whole_append (whole_quoteUnit u) ih

theorem whole_quote (s : Text) : Whole (quote s) :=
  whole_cons rfl rfl (whole_append (whole_quoteUnits s) (whole_unit rfl rfl))

theorem whole_joined : ∀ {ts : List Text}, (∀ t ∈ ts, Whole t) → Whole (joined ts)
  | [], _ => whole_nil
  | [t], h => h t List.mem_cons_self
  | t :: _ :: _, h => whole_append (h t List.mem_cons_self)
    (whole_cons rfl rfl (whole_joined fun x hx => h x (List.mem_cons_of_mem t hx)))

mutual

/-- The text of a tree without numbers. -/
theorem whole_text : ∀ v : JsonTree Empty, Whole (text noNumerals v)
  | .null => whole_word (s := "null") (by decide)
  | .bool true => whole_word (s := "true") (by decide)
  | .bool false => whole_word (s := "false") (by decide)
  | .num x => nomatch x
  | .str s => whole_quote s
  | .arr items => whole_cons rfl rfl (whole_append (whole_joined (whole_itemTexts items))
    (whole_unit rfl rfl))
  | .obj fields => whole_cons rfl rfl (whole_append (whole_joined (whole_fieldTexts fields))
    (whole_unit rfl rfl))

theorem whole_itemTexts : ∀ items : List (JsonTree Empty), ∀ t ∈ itemTexts noNumerals items, Whole t
  | [], t, h => by simp [itemTexts] at h
  | item :: items, t, h => by
    rcases List.mem_cons.mp h with rfl | h
    · exact whole_text item
    · exact whole_itemTexts items t h

theorem whole_fieldTexts : ∀ fields : List (Text × JsonTree Empty),
    ∀ t ∈ fieldTexts noNumerals fields, Whole t
  | [], t, h => by simp [fieldTexts] at h
  | (key, field) :: fields, t, h => by
    rcases List.mem_cons.mp h with rfl | h
    · exact whole_append (whole_quote key) (whole_cons rfl rfl (whole_text field))
    · exact whole_fieldTexts fields t h

end

theorem chars_ne {t : Text} (h : t ≠ []) : chars t ≠ [] := by
  fun_cases chars t with
  | case1 => exact absurd rfl h
  | case2 => simp
  | case3 => simp
  | case4 => simp

/-- A host for values without numbers. -/
def plainHost : JsonHost where
  stringify v := String.ofList (chars (text noNumerals (tree v)))
  parse t := (parse noNumerals (units t.toList)).map value
  parse_stringify v hv := by
    obtain ⟨cs, hcs⟩ := whole_text (tree v)
    have hread : units (chars (text noNumerals (tree v))) = text noNumerals (tree v) := by
      rw [hcs, chars_units]
    have hplain : (tree v).map noNumerals.plain = tree v := map_id_tree (tree v)
    rw [String.toList_ofList, hread, parse_text noNumerals (keyed_tree hv), hplain, Option.map_some,
      value_tree hv]
  stringify_ne v hv := by
    obtain ⟨u, rest, htext, -⟩ := text_opens noNumerals (tree v)
    refine chars_ne (t := text noNumerals (tree v)) (by simp [htext]) ?_
    simpa using congrArg String.toList hv

end LpPlatform.JsonHosts
