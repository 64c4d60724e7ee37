import Mathlib.Data.List.Lex
import Mathlib.Data.List.Sort
import Mathlib.Order.Fin.Basic

/-!
# Trees of JSON

A JSON value over any kind of numbers, with texts of UTF-16 code units. An
object lists its fields in some order; two values are the same when they are
equal up to the order of the fields of every object in them. Sorting the fields
of every object by their keys gives each value its representative: where keys
are distinct, values are the same exactly when their representatives are equal.
-/

namespace LpPlatform.JsonTrees

/-- A UTF-16 code unit. -/
abbrev CodeUnit := Fin 65536

/-- A text, which need not be well-formed. -/
abbrev Text := List CodeUnit

/-- A JSON value. -/
inductive JsonTree (ν : Type) where
  | null
  | bool (b : Bool)
  | num (x : ν)
  | str (s : Text)
  | arr (items : List (JsonTree ν))
  | obj (fields : List (Text × JsonTree ν))

variable {ν μ : Type}

mutual

/-- Every object has distinct keys. -/
def JsonTree.Keyed : JsonTree ν → Prop
  | .arr items => KeyedItems items
  | .obj fields => (fields.map Prod.fst).Nodup ∧ KeyedFields fields
  | _ => True

/-- So it is in all items. -/
def KeyedItems : List (JsonTree ν) → Prop
  | [] => True
  | item :: items => item.Keyed ∧ KeyedItems items

/-- So it is in all fields. -/
def KeyedFields : List (Text × JsonTree ν) → Prop
  | [] => True
  | (_, value) :: fields => value.Keyed ∧ KeyedFields fields

end

mutual

/-- The values are equal up to the order of fields. -/
inductive Same : JsonTree ν → JsonTree ν → Prop where
  | null : Same .null .null
  | bool (b : Bool) : Same (.bool b) (.bool b)
  | num (x : ν) : Same (.num x) (.num x)
  | str (s : Text) : Same (.str s) (.str s)
  | arr {items others} (h : SameItems items others) : Same (.arr items) (.arr others)
  | obj {fields others} (h : SameFields fields others) : Same (.obj fields) (.obj others)

/-- The items are the same one by one. -/
inductive SameItems : List (JsonTree ν) → List (JsonTree ν) → Prop where
  | nil : SameItems [] []
  | cons {item other items others} (h : Same item other) (hrest : SameItems items others) :
      SameItems (item :: items) (other :: others)

/-- Every field has its counterpart, anywhere among the others. -/
inductive SameFields : List (Text × JsonTree ν) → List (Text × JsonTree ν) → Prop where
  | nil : SameFields [] []
  | cons {key value other fields front back} (h : Same value other) (hrest : SameFields fields (front ++ back)) :
      SameFields ((key, value) :: fields) (front ++ (key, other) :: back)

end

/-- The first field does not come after the second: keys are compared by their
first difference. -/
def keyLe {β : Type} (f g : Text × β) : Prop := f.1 ≤ g.1

instance {β : Type} : DecidableRel (keyLe (β := β)) := fun f g => inferInstanceAs (Decidable (f.1 ≤ g.1))

instance {β : Type} : Std.Total (keyLe (β := β)) := ⟨fun f g => le_total f.1 g.1⟩

instance {β : Type} : IsTrans (Text × β) keyLe := ⟨fun _ _ _ => le_trans⟩

mutual

/-- The fields of every object are sorted. -/
def JsonTree.sorted : JsonTree ν → JsonTree ν
  | .arr items => .arr (sortedItems items)
  | .obj fields => .obj ((sortedFields fields).insertionSort keyLe)
  | .null => .null
  | .bool b => .bool b
  | .num x => .num x
  | .str s => .str s

/-- In all items. -/
def sortedItems : List (JsonTree ν) → List (JsonTree ν)
  | [] => []
  | item :: items => item.sorted :: sortedItems items

/-- In the values of all fields, which stay in their order. -/
def sortedFields : List (Text × JsonTree ν) → List (Text × JsonTree ν)
  | [] => []
  | (key, value) :: fields => (key, value.sorted) :: sortedFields fields

end

mutual

/-- All numbers are replaced. -/
def JsonTree.map (f : ν → μ) : JsonTree ν → JsonTree μ
  | .null => .null
  | .bool b => .bool b
  | .num x => .num (f x)
  | .str s => .str s
  | .arr items => .arr (mapItems f items)
  | .obj fields => .obj (mapFields f fields)

/-- In all items. -/
def mapItems (f : ν → μ) : List (JsonTree ν) → List (JsonTree μ)
  | [] => []
  | item :: items => item.map f :: mapItems f items

/-- In the values of all fields. -/
def mapFields (f : ν → μ) : List (Text × JsonTree ν) → List (Text × JsonTree μ)
  | [] => []
  | (key, value) :: fields => (key, value.map f) :: mapFields f fields

end

section Lists

variable {f : ν → μ} {items : List (JsonTree ν)} {fields : List (Text × JsonTree ν)}

theorem keyedFields_iff : KeyedFields fields ↔ ∀ field ∈ fields, field.2.Keyed := by
  induction fields with
  | nil => simp [KeyedFields]
  | cons field fields ih => simp [KeyedFields, ih]

theorem sortedItems_eq (items : List (JsonTree ν)) : sortedItems items = items.map JsonTree.sorted := by
  induction items with
  | nil => rfl
  | cons item items ih => rw [sortedItems, ih, List.map_cons]

theorem sortedFields_eq (fields : List (Text × JsonTree ν)) :
    sortedFields fields = fields.map fun field => (field.1, field.2.sorted) := by
  induction fields with
  | nil => rfl
  | cons field fields ih => rw [sortedFields, ih, List.map_cons]

theorem mapItems_eq (f : ν → μ) (items : List (JsonTree ν)) : mapItems f items = items.map (JsonTree.map f) := by
  induction items with
  | nil => rfl
  | cons item items ih => rw [mapItems, ih, List.map_cons]

theorem mapFields_eq (f : ν → μ) (fields : List (Text × JsonTree ν)) :
    mapFields f fields = fields.map fun field => (field.1, field.2.map f) := by
  induction fields with
  | nil => rfl
  | cons field fields ih => rw [mapFields, ih, List.map_cons]

theorem keys_sortedFields (fields : List (Text × JsonTree ν)) :
    (sortedFields fields).map Prod.fst = fields.map Prod.fst := by
  rw [sortedFields_eq, List.map_map]
  rfl

/-- Lists with the same fields, of distinct keys, are sorted alike. -/
theorem insertionSort_eq {β : Type} {fields others : List (Text × β)} (hkeys : (fields.map Prod.fst).Nodup)
    (h : fields.Perm others) : fields.insertionSort keyLe = others.insertionSort keyLe := by
  have hperm := (List.perm_insertionSort keyLe fields).trans (h.trans (List.perm_insertionSort keyLe others).symm)
  refine hperm.eq_of_pairwise (fun f g hf hg hfg hgf => ?_) (List.pairwise_insertionSort keyLe fields)
    (List.pairwise_insertionSort keyLe others)
  have hf := (List.mem_insertionSort keyLe).mp hf
  have hg := h.mem_iff.mpr ((List.mem_insertionSort keyLe).mp hg)
  exact List.inj_on_of_nodup_map hkeys hf hg (le_antisymm hfg hgf)

/-- Lists that are sorted alike have the same fields. -/
theorem perm_of_insertionSort {β : Type} {fields others : List (Text × β)}
    (h : fields.insertionSort keyLe = others.insertionSort keyLe) : fields.Perm others := by
  have hperm := List.perm_insertionSort keyLe fields
  rw [h] at hperm
  exact hperm.symm.trans (List.perm_insertionSort keyLe others)

/-- Sorting does not look at the values of fields. -/
theorem insertionSort_values {β γ : Type} (g : β → γ) (fields : List (Text × β)) :
    (fields.map fun field => (field.1, g field.2)).insertionSort keyLe =
      (fields.insertionSort keyLe).map fun field => (field.1, g field.2) := by
  have hmap := List.map_insertionSort keyLe keyLe (fun field : Text × β => (field.1, g field.2)) fields
    fun _ _ _ _ => Iff.rfl
  exact hmap.symm

end Lists

section Fields

/-- Fields of distinct keys are the same exactly when each has a counterpart
of its key and no other keys are there. -/
theorem sameFields_iff {fields others : List (Text × JsonTree ν)} (hkeys : (fields.map Prod.fst).Nodup)
    (hothers : (others.map Prod.fst).Nodup) : SameFields fields others ↔
      (∀ field ∈ fields, ∃ other, (field.1, other) ∈ others ∧ Same field.2 other) ∧
        ∀ other ∈ others, other.1 ∈ fields.map Prod.fst := by
  induction fields generalizing others with
  | nil =>
    constructor
    · intro h
      cases h
      simp
    · rintro ⟨-, hnone⟩
      cases others with
      | nil => exact .nil
      | cons other others => simpa using hnone other List.mem_cons_self
  | cons field fields ih =>
    obtain ⟨key, value⟩ := field
    obtain ⟨hkey, hrest⟩ := List.nodup_cons.mp hkeys
    -- the counterpart stands somewhere among the others, and no other field has its key
    have hsplit : ∀ (front back : List (Text × JsonTree ν)) (other : JsonTree ν),
        others = front ++ (key, other) :: back → ((front ++ back).map Prod.fst).Nodup ∧
          key ∉ (front ++ back).map Prod.fst := by
      rintro front back other rfl
      rw [List.map_append, List.map_cons] at hothers
      rw [List.map_append]
      obtain ⟨hfresh, hnodup⟩ := List.nodup_cons.mp (List.nodup_middle.mp hothers)
      exact ⟨hnodup, hfresh⟩
    have hmem : ∀ (front back : List (Text × JsonTree ν)) (other : JsonTree ν) (field : Text × JsonTree ν),
        field ∈ front ++ (key, other) :: back ↔ field = (key, other) ∨ field ∈ front ++ back := by
      intro front back other field
      simp only [List.mem_append, List.mem_cons]
      tauto
    constructor
    · intro h
      cases h with
      | @cons _ _ other _ front back h hfields =>
        obtain ⟨hnodup, -⟩ := hsplit front back other rfl
        obtain ⟨hfound, hno⟩ := (ih hrest hnodup).mp hfields
        refine ⟨fun field hfield => ?_, fun field hfield => ?_⟩
        · rcases List.mem_cons.mp hfield with rfl | hfield
          · exact ⟨other, (hmem front back other _).mpr (Or.inl rfl), h⟩
          · obtain ⟨found, hin, hsame⟩ := hfound field hfield
            exact ⟨found, (hmem front back other _).mpr (Or.inr hin), hsame⟩
        · rcases (hmem front back other field).mp hfield with rfl | hin
          · exact List.mem_cons_self
          · exact List.mem_cons_of_mem key (hno field hin)
    · rintro ⟨hfound, hno⟩
      obtain ⟨other, hin, hsame⟩ := hfound (key, value) List.mem_cons_self
      obtain ⟨front, back, rfl⟩ := List.append_of_mem hin
      obtain ⟨hnodup, hfresh⟩ := hsplit front back other rfl
      refine .cons hsame ((ih hrest hnodup).mpr ⟨fun field hfield => ?_, fun field hfield => ?_⟩)
      · obtain ⟨found, hin, hfound⟩ := hfound field (List.mem_cons_of_mem _ hfield)
        refine ⟨found, ((hmem front back other _).mp hin).resolve_left fun heq => ?_, hfound⟩
        have hin := List.mem_map_of_mem (f := Prod.fst) hfield
        rw [(Prod.mk.inj heq).1] at hin
        exact hkey hin
      · have hcons := hno field ((hmem front back other field).mpr (Or.inr hfield))
        refine (List.mem_cons.mp hcons).resolve_left fun heq => ?_
        have hin := List.mem_map_of_mem (f := Prod.fst) hfield
        rw [heq] at hin
        exact hfresh hin

/-- A field and its counterpart may be put anywhere. -/
theorem sameFields_insert {key : Text} {value other : JsonTree ν} (h : Same value other) :
    ∀ {front back fields : List (Text × JsonTree ν)}, SameFields (front ++ back) fields →
      SameFields (front ++ (key, value) :: back) ((key, other) :: fields)
  | [], _, _, hrest => @SameFields.cons _ _ _ _ _ [] _ h hrest
  | field :: front, back, _, hrest => by
    cases hrest with
    | @cons _ _ found _ left right hfound hfields =>
      exact @SameFields.cons _ _ _ found _ ((key, other) :: left) right hfound (sameFields_insert h hfields)

mutual

/-- Being the same goes both ways. -/
theorem same_symm : ∀ {v w : JsonTree ν}, Same v w → Same w v
  | _, _, .null => .null
  | _, _, .bool b => .bool b
  | _, _, .num x => .num x
  | _, _, .str s => .str s
  | _, _, .arr h => .arr (sameItems_symm h)
  | _, _, .obj h => .obj (sameFields_symm h)

/-- For items. -/
theorem sameItems_symm : ∀ {items others : List (JsonTree ν)}, SameItems items others → SameItems others items
  | _, _, .nil => .nil
  | _, _, .cons h hrest => .cons (same_symm h) (sameItems_symm hrest)

/-- For fields. -/
theorem sameFields_symm : ∀ {fields others : List (Text × JsonTree ν)}, SameFields fields others →
    SameFields others fields
  | _, _, .nil => .nil
  | _, _, .cons h hrest => sameFields_insert (same_symm h) (sameFields_symm hrest)

end

end Fields

section Representatives

mutual

/-- The same values have one representative. -/
theorem sorted_of_same : ∀ {v w : JsonTree ν}, Same v w → v.Keyed → w.Keyed → v.sorted = w.sorted
  | _, _, .null, _, _ => rfl
  | _, _, .bool _, _, _ => rfl
  | _, _, .num _, _, _ => rfl
  | _, _, .str _, _, _ => rfl
  | _, _, .arr h, hv, hw => by
    rw [JsonTree.Keyed] at hv hw
    rw [JsonTree.sorted, JsonTree.sorted, sortedItems_of_same h hv hw]
  | _, _, .obj h, hv, hw => by
    rw [JsonTree.Keyed] at hv hw
    have hkeys : ((sortedFields _).map Prod.fst).Nodup := (keys_sortedFields _).symm ▸ hv.1
    rw [JsonTree.sorted, JsonTree.sorted, insertionSort_eq hkeys (sortedFields_of_same h hv.2 hw.2)]

/-- Item by item. -/
theorem sortedItems_of_same : ∀ {items others : List (JsonTree ν)}, SameItems items others → KeyedItems items →
    KeyedItems others → sortedItems items = sortedItems others
  | _, _, .nil, _, _ => rfl
  | _, _, .cons h hrest, hv, hw => by
    rw [KeyedItems] at hv hw
    rw [sortedItems, sortedItems, sorted_of_same h hv.1 hw.1, sortedItems_of_same hrest hv.2 hw.2]

/-- Field by field, in another order. -/
theorem sortedFields_of_same : ∀ {fields others : List (Text × JsonTree ν)}, SameFields fields others →
    KeyedFields fields → KeyedFields others → (sortedFields fields).Perm (sortedFields others)
  | _, _, .nil, _, _ => .nil
  | _, _, @SameFields.cons _ key value other fields front back h hrest, hv, hw => by
    rw [KeyedFields] at hv
    rw [keyedFields_iff] at hw
    have hother := hw (key, other) (by simp)
    have hothers : KeyedFields (front ++ back) := keyedFields_iff.mpr fun field hfield => by
      refine hw field ?_
      rcases List.mem_append.mp hfield with hfront | hback
      · exact List.mem_append_left _ hfront
      · exact List.mem_append_right _ (List.mem_cons_of_mem _ hback)
    have hperm := sortedFields_of_same hrest hv.2 hothers
    rw [sortedFields_eq (front ++ back), List.map_append] at hperm
    rw [sortedFields, sorted_of_same h hv.1 hother, sortedFields_eq (front ++ _), List.map_append, List.map_cons]
    exact (hperm.cons _).trans List.perm_middle.symm

end

mutual

/-- Values with one representative are the same. -/
theorem same_of_sorted : ∀ {v w : JsonTree ν}, v.sorted = w.sorted → Same v w
  | .null, w, h => by
    cases w <;> simp [JsonTree.sorted] at h
    exact .null
  | .bool b, w, h => by
    cases w <;> simp [JsonTree.sorted] at h
    exact h ▸ .bool b
  | .num x, w, h => by
    cases w <;> simp [JsonTree.sorted] at h
    exact h ▸ .num x
  | .str s, w, h => by
    cases w <;> simp [JsonTree.sorted] at h
    exact h ▸ .str s
  | .arr items, w, h => by
    cases w <;> simp [JsonTree.sorted] at h
    exact .arr (sameItems_of_sorted h)
  | .obj fields, w, h => by
    cases w <;> simp [JsonTree.sorted] at h
    exact .obj (sameFields_of_sorted (perm_of_insertionSort h))

/-- Item by item. -/
theorem sameItems_of_sorted : ∀ {items others : List (JsonTree ν)}, sortedItems items = sortedItems others →
    SameItems items others
  | [], [], _ => .nil
  | [], _ :: _, h => by simp [sortedItems] at h
  | _ :: _, [], h => by simp [sortedItems] at h
  | item :: items, other :: others, h => by
    obtain ⟨hitem, hrest⟩ := List.cons.inj h
    exact .cons (same_of_sorted hitem) (sameItems_of_sorted hrest)

/-- Field by field, wherever the counterparts are. -/
theorem sameFields_of_sorted : ∀ {fields others : List (Text × JsonTree ν)},
    (sortedFields fields).Perm (sortedFields others) → SameFields fields others
  | [], others, h => by
    rw [sortedFields_eq others] at h
    obtain rfl := List.map_eq_nil_iff.mp h.nil_eq.symm
    exact .nil
  | (key, value) :: fields, others, h => by
    have hmem : (key, value.sorted) ∈ sortedFields others := h.mem_iff.mp List.mem_cons_self
    rw [sortedFields_eq] at hmem
    obtain ⟨⟨key', other⟩, hother, heq⟩ := List.mem_map.mp hmem
    obtain ⟨rfl, hvalue⟩ := Prod.mk.inj heq
    obtain ⟨front, back, rfl⟩ := List.append_of_mem hother
    refine .cons (same_of_sorted hvalue.symm) (sameFields_of_sorted ?_)
    -- what is left on both sides are the same fields
    rw [sortedFields_eq (front ++ _), List.map_append, List.map_cons, hvalue] at h
    have hrest := h.trans List.perm_middle
    rw [sortedFields_eq (front ++ back), List.map_append]
    exact hrest.cons_inv

end

/-- Values with distinct keys are the same exactly when they have one
representative. -/
theorem same_iff {v w : JsonTree ν} (hv : v.Keyed) (hw : w.Keyed) : Same v w ↔ v.sorted = w.sorted :=
  ⟨fun h => sorted_of_same h hv hw, same_of_sorted⟩

mutual

/-- A representative represents itself. -/
theorem sorted_sorted : ∀ v : JsonTree ν, v.sorted.sorted = v.sorted
  | .null => rfl
  | .bool _ => rfl
  | .num _ => rfl
  | .str _ => rfl
  | .arr items => by
    rw [JsonTree.sorted, JsonTree.sorted, sortedItems_sorted items]
  | .obj fields => by
    have hvalues : sortedFields ((sortedFields fields).insertionSort keyLe) =
        (sortedFields fields).insertionSort keyLe := by
      rw [sortedFields_eq ((sortedFields fields).insertionSort keyLe)]
      refine (List.map_congr_left fun field hfield => ?_).trans (List.map_id _)
      have hvalue := sortedFields_sorted fields field ((List.mem_insertionSort keyLe).mp hfield)
      rw [hvalue]
      rfl
    rw [JsonTree.sorted, JsonTree.sorted, hvalues,
      (List.pairwise_insertionSort keyLe (sortedFields fields)).insertionSort_eq]

/-- So do the items of one. -/
theorem sortedItems_sorted : ∀ items : List (JsonTree ν), sortedItems (sortedItems items) = sortedItems items
  | [] => rfl
  | item :: items => by
    rw [sortedItems, sortedItems, sorted_sorted item, sortedItems_sorted items]

/-- And the values of its fields. -/
theorem sortedFields_sorted : ∀ (fields : List (Text × JsonTree ν)) (field), field ∈ sortedFields fields →
    field.2.sorted = field.2
  | [], _, h => by simp [sortedFields] at h
  | (key, value) :: fields, field, h => by
    rw [sortedFields] at h
    rcases List.mem_cons.mp h with rfl | hrest
    · exact sorted_sorted value
    · exact sortedFields_sorted fields field hrest

end

/-- A value is the same as its representative. -/
theorem same_sorted (v : JsonTree ν) : Same v.sorted v := same_of_sorted (sorted_sorted v)

mutual

/-- Sorting does not look at numbers. -/
theorem map_sorted (f : ν → μ) : ∀ v : JsonTree ν, (v.map f).sorted = v.sorted.map f
  | .null => rfl
  | .bool _ => rfl
  | .num _ => rfl
  | .str _ => rfl
  | .arr items => by rw [JsonTree.map, JsonTree.sorted, JsonTree.sorted, JsonTree.map, mapItems_sorted f items]
  | .obj fields => by
    rw [JsonTree.map, JsonTree.sorted, JsonTree.sorted, JsonTree.map, mapFields_sorted f fields, mapFields_eq, mapFields_eq,
      insertionSort_values]

/-- In items. -/
theorem mapItems_sorted (f : ν → μ) : ∀ items : List (JsonTree ν),
    sortedItems (mapItems f items) = mapItems f (sortedItems items)
  | [] => rfl
  | item :: items => by
    rw [mapItems, sortedItems, sortedItems, mapItems, map_sorted f item, mapItems_sorted f items]

/-- In the values of fields. -/
theorem mapFields_sorted (f : ν → μ) : ∀ fields : List (Text × JsonTree ν),
    sortedFields (mapFields f fields) = mapFields f (sortedFields fields)
  | [] => rfl
  | (key, value) :: fields => by
    rw [mapFields, sortedFields, sortedFields, mapFields, map_sorted f value, mapFields_sorted f fields]

end

mutual

/-- Other numbers leave the keys distinct. -/
theorem keyed_map (f : ν → μ) : ∀ {v : JsonTree ν}, v.Keyed → (v.map f).Keyed
  | .null, _ => trivial
  | .bool _, _ => trivial
  | .num _, _ => trivial
  | .str _, _ => trivial
  | .arr items, h => by
    rw [JsonTree.Keyed] at h
    rw [JsonTree.map, JsonTree.Keyed]
    exact keyedItems_map f h
  | .obj fields, h => by
    rw [JsonTree.Keyed] at h
    have hkeys : (mapFields f fields).map Prod.fst = fields.map Prod.fst := by
      rw [mapFields_eq, List.map_map]
      rfl
    rw [JsonTree.map, JsonTree.Keyed, hkeys]
    exact ⟨h.1, keyedFields_map f h.2⟩

/-- In items. -/
theorem keyedItems_map (f : ν → μ) : ∀ {items : List (JsonTree ν)}, KeyedItems items → KeyedItems (mapItems f items)
  | [], _ => trivial
  | _ :: _, h => ⟨keyed_map f h.1, keyedItems_map f h.2⟩

/-- In the values of fields. -/
theorem keyedFields_map (f : ν → μ) : ∀ {fields : List (Text × JsonTree ν)}, KeyedFields fields →
    KeyedFields (mapFields f fields)
  | [], _ => trivial
  | _ :: _, h => ⟨keyed_map f h.1, keyedFields_map f h.2⟩

end

mutual

/-- The keys of a representative are distinct. -/
theorem keyed_sorted : ∀ {v : JsonTree ν}, v.Keyed → v.sorted.Keyed
  | .null, _ => trivial
  | .bool _, _ => trivial
  | .num _, _ => trivial
  | .str _, _ => trivial
  | .arr items, h => by
    rw [JsonTree.Keyed] at h
    rw [JsonTree.sorted, JsonTree.Keyed]
    exact keyedItems_sorted h
  | .obj fields, h => by
    rw [JsonTree.Keyed] at h
    have hperm := List.perm_insertionSort keyLe (sortedFields fields)
    have hkeys : ((sortedFields fields).map Prod.fst).Nodup := (keys_sortedFields fields).symm ▸ h.1
    rw [JsonTree.sorted, JsonTree.Keyed, keyedFields_iff]
    exact ⟨(hperm.map Prod.fst).nodup_iff.mpr hkeys, fun field hfield =>
      keyedFields_iff.mp (keyedFields_sorted h.2) field (hperm.mem_iff.mp hfield)⟩

/-- In items. -/
theorem keyedItems_sorted : ∀ {items : List (JsonTree ν)}, KeyedItems items → KeyedItems (sortedItems items)
  | [], _ => trivial
  | _ :: _, h => ⟨keyed_sorted h.1, keyedItems_sorted h.2⟩

/-- In the values of fields. -/
theorem keyedFields_sorted : ∀ {fields : List (Text × JsonTree ν)}, KeyedFields fields →
    KeyedFields (sortedFields fields)
  | [], _ => trivial
  | _ :: _, h => ⟨keyed_sorted h.1, keyedFields_sorted h.2⟩

end

end Representatives

end LpPlatform.JsonTrees
