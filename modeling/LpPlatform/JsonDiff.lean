import LpPlatform.CanonicalJson
import LpPlatform.SolidTrees

/-!
# The diff of an audit row

The state before a change and the state after it are shown in two panes, each
compared with the other. A value that is no container is marked when it
differs, a key when the other side does not have it. Containers are not marked
themselves: items are compared index by index and a missing counterpart counts
as empty. So what is hollow may be missing, or be another kind of container, and
nothing is marked. Members that every object inherits are left out; they are
read only below a key that is marked already.
-/

namespace LpPlatform.JsonDiff

open BinaryDoubles CanonicalJson JsonTexts JsonTrees SolidTrees

variable {ν : Type}

/-- A rendered node. -/
inductive Element where
  | text (t : Text)
  | node (tag : String) (className : Option String) (children : List Element)

/-- The pane that is rendered. -/
inductive Side where
  | before
  | after
  deriving DecidableEq

/-- A value that is no container. -/
inductive Primitive (ν : Type) where
  | null
  | bool (b : Bool)
  | num (x : ν)
  | str (s : Text)

/-- The value. -/
def Primitive.tree : Primitive ν → JsonTree ν
  | .null => .null
  | .bool b => .bool b
  | .num x => .num x
  | .str s => .str s

/-- `indent`. -/
def indent (n : ℕ) : Text := (List.replicate n (ascii "  ")).flatten

/-- The items of an array, and none of anything else. -/
def otherArr : Option (JsonTree ν) → List (JsonTree ν)
  | some (.arr items) => items
  | _ => []

/-- The fields of an object, and none of anything else. -/
def otherObj : Option (JsonTree ν) → List (Text × JsonTree ν)
  | some (.obj fields) => fields
  | _ => []

/-- `hasOther`: a field has the key. -/
def hasOwn (key : Text) (fields : List (Text × JsonTree ν)) : Bool := fields.any fun field => field.1 = key

/-- The value under a key. -/
def member (key : Text) (fields : List (Text × JsonTree ν)) : Option (JsonTree ν) :=
  (fields.find? fun field => field.1 = key).map Prod.snd

/-- The class of what the other side does not have. -/
def Side.missing (side : Side) : String := if side = .after then "text-emerald-700" else "text-rose-700"

/-- The class of what is otherwise on the other side. -/
def Side.changed (side : Side) : String :=
  if side = .after then "bg-emerald-100 text-emerald-900" else "bg-rose-100 text-rose-900"

section Rendering

variable [DecidableEq ν] (N : Numerals ν) (side : Side)

/-- `deepEqual`, which is asked about values that are no containers only. -/
def deepEqual : Primitive ν → Option (JsonTree ν) → Bool
  | .null, some .null => true
  | .bool a, some (.bool b) => a = b
  | .num a, some (.num b) => a = b
  | .str a, some (.str b) => a = b
  | _, _ => false

/-- A value that is no container. -/
def renderPrimitive (self : Primitive ν) (other : Option (JsonTree ν)) : Element :=
  .node "span" (some (if deepEqual self other then "text-foreground" else side.changed)) [.text (text N self.tree)]

mutual

/-- `renderTree` of a value. -/
def renderValue : JsonTree ν → Option (JsonTree ν) → ℕ → Element
  | .arr items, other, depth =>
    .node "span" none (.text (ascii "[") :: (renderItems items (otherArr other) (depth + 1) ++
      [.text (ascii "\n"), .text (indent depth), .text (ascii "]")]))
  | .obj fields, other, depth =>
    .node "span" none (.text (ascii "\x7b") :: (renderFields fields (otherObj other) (depth + 1) ++
      [.text (ascii "\n"), .text (indent depth), .text (ascii "\x7d")]))
  | .null, other, _ => renderPrimitive N side .null other
  | .bool b, other, _ => renderPrimitive N side (.bool b) other
  | .num x, other, _ => renderPrimitive N side (.num x) other
  | .str s, other, _ => renderPrimitive N side (.str s) other

/-- The items of an array, each against the one at its index. -/
def renderItems : List (JsonTree ν) → List (JsonTree ν) → ℕ → List Element
  | [], _, _ => []
  | item :: items, others, depth =>
    .text (ascii "\n") :: .text (indent depth) :: renderValue item others.head? depth ::
      .text (if items.isEmpty then [] else ascii ",") :: renderItems items others.tail depth

/-- The fields of an object, each against the one of its key. -/
def renderFields : List (Text × JsonTree ν) → List (Text × JsonTree ν) → ℕ → List Element
  | [], _, _ => []
  | (key, value) :: fields, others, depth =>
    .text (ascii "\n") :: .text (indent depth) ::
      .node "span" (some (if hasOwn key others then "text-muted-foreground" else side.missing))
        [.text (quote key)] ::
      .text (ascii ": ") :: renderValue value (member key others) depth ::
      .text (if fields.isEmpty then [] else ascii ",") :: renderFields fields others depth

end

/-- `renderTree`. -/
def renderTree (self other : Option (JsonTree ν)) : Element :=
  match self with
  | none => .node "span" (some side.missing) [.text (ascii (if side = .after then "(added)" else "(removed)"))]
  | some value => renderValue N side value other 0

/-- A pane with its title. -/
def pane (title : String) (tree : Element) : Element :=
  .node "div" none
    [.node "h4" (some "mb-2 text-[10px] uppercase tracking-wide text-muted-foreground") [.text (ascii title)],
      .node "pre" (some "overflow-x-auto rounded border bg-muted/40 p-2") [tree]]

/-- `JsonDiff`. -/
def jsonDiff (before after : Option (JsonTree ν)) : Element :=
  .node "div" (some "grid grid-cols-2 gap-3 font-mono text-xs")
    [pane "before" (renderTree N .before before after), pane "after" (renderTree N .after after before)]

end Rendering

/-- The classes of what is added, removed or changed. -/
def isHighlight (className : String) : Bool :=
  className ∈ ["text-emerald-700", "text-rose-700", "bg-emerald-100 text-emerald-900", "bg-rose-100 text-rose-900"]

mutual

/-- Some node is highlighted. -/
def highlighted : Element → Bool
  | .text _ => false
  | .node _ className children => className.any isHighlight || anyHighlighted children

/-- So it is for one of some nodes. -/
def anyHighlighted : List Element → Bool
  | [] => false
  | element :: elements => highlighted element || anyHighlighted elements

end

section Parts

theorem same_primitive (self : Primitive ν) (v : JsonTree ν) : Same self.tree (solid v) ↔ v = self.tree := by
  constructor
  · intro h
    cases v with
    | obj fields =>
      rw [solid] at h
      cases self <;> split at h <;> cases h
    | _ =>
      rw [solid] at h
      cases self <;> cases h <;> rfl
  · rintro rfl
    cases self with
    | null => exact .null
    | bool b => exact .bool b
    | num x => exact .num x
    | str s => exact .str s

theorem hasOwn_iff (key : Text) (fields : List (Text × JsonTree ν)) :
    hasOwn key fields = true ↔ ∃ value, (key, value) ∈ fields := by
  rw [hasOwn, List.any_eq_true]
  constructor
  · rintro ⟨⟨name, value⟩, hmem, hkey⟩
    obtain rfl : name = key := of_decide_eq_true hkey
    exact ⟨value, hmem⟩
  · rintro ⟨value, hmem⟩
    exact ⟨_, hmem, decide_eq_true rfl⟩

/-- The value under a key of distinct keys. -/
theorem member_iff {fields : List (Text × JsonTree ν)} (hkeys : (fields.map Prod.fst).Nodup) {key : Text}
    {value : JsonTree ν} : member key fields = some value ↔ (key, value) ∈ fields := by
  rw [member, Option.map_eq_some_iff]
  constructor
  · rintro ⟨field, hfound, rfl⟩
    have hkey : field.1 = key := by simpa using List.find?_some hfound
    exact hkey ▸ List.mem_of_find?_eq_some hfound
  · intro hmem
    have hsome : (fields.find? fun field => field.1 = key).isSome = true :=
      List.find?_isSome.mpr ⟨(key, value), hmem, decide_eq_true rfl⟩
    obtain ⟨field, hfound⟩ := Option.isSome_iff_exists.mp hsome
    have hkey : field.1 = key := by simpa using List.find?_some hfound
    have hsame := List.inj_on_of_nodup_map hkeys (List.mem_of_find?_eq_some hfound) hmem hkey
    exact ⟨field, hfound, congrArg Prod.snd hsame⟩

end Parts

variable [DecidableEq ν]

mutual

/-- Whether a value shows a highlight against another. -/
def lit : JsonTree ν → Option (JsonTree ν) → Bool
  | .arr items, other => litItems items (otherArr other)
  | .obj fields, other => litFields fields (otherObj other)
  | .null, other => !deepEqual .null other
  | .bool b, other => !deepEqual (.bool b) other
  | .num x, other => !deepEqual (.num x) other
  | .str s, other => !deepEqual (.str s) other

/-- Whether some item does. -/
def litItems : List (JsonTree ν) → List (JsonTree ν) → Bool
  | [], _ => false
  | item :: items, others => lit item others.head? || litItems items others.tail

/-- Whether some key or value does. -/
def litFields : List (Text × JsonTree ν) → List (Text × JsonTree ν) → Bool
  | [], _ => false
  | (key, value) :: fields, others =>
    !hasOwn key others || lit value (member key others) || litFields fields others

end

section Highlights

variable (N : Numerals ν) (side : Side)

theorem anyHighlighted_append (elements others : List Element) :
    anyHighlighted (elements ++ others) = (anyHighlighted elements || anyHighlighted others) := by
  induction elements with
  | nil => simp [anyHighlighted]
  | cons element elements ih => simp [anyHighlighted, ih, Bool.or_assoc]

theorem isHighlight_missing : isHighlight side.missing = true := by cases side <;> decide

theorem isHighlight_changed : isHighlight side.changed = true := by cases side <;> decide

theorem highlighted_renderPrimitive (self : Primitive ν) (other : Option (JsonTree ν)) :
    highlighted (renderPrimitive N side self other) = !deepEqual self other := by
  have hplain : isHighlight "text-foreground" = false := by decide
  rw [renderPrimitive]
  cases deepEqual self other <;> simp [highlighted, anyHighlighted, hplain, isHighlight_changed]

mutual

/-- A rendered value is highlighted somewhere when the value shows it. -/
theorem highlighted_renderValue : ∀ (v : JsonTree ν) (other : Option (JsonTree ν)) (depth : ℕ),
    highlighted (renderValue N side v other depth) = lit v other
  | .null, other, _ => highlighted_renderPrimitive N side .null other
  | .bool b, other, _ => highlighted_renderPrimitive N side (.bool b) other
  | .num x, other, _ => highlighted_renderPrimitive N side (.num x) other
  | .str s, other, _ => highlighted_renderPrimitive N side (.str s) other
  | .arr items, other, depth => by
    have hitems := anyHighlighted_renderItems items (otherArr other) (depth + 1)
    simp [renderValue, lit, highlighted, anyHighlighted, anyHighlighted_append, hitems]
  | .obj fields, other, depth => by
    have hfields := anyHighlighted_renderFields fields (otherObj other) (depth + 1)
    simp [renderValue, lit, highlighted, anyHighlighted, anyHighlighted_append, hfields]

/-- So are rendered items. -/
theorem anyHighlighted_renderItems : ∀ (items others : List (JsonTree ν)) (depth : ℕ),
    anyHighlighted (renderItems N side items others depth) = litItems items others
  | [], _, _ => rfl
  | item :: items, others, depth => by
    have hitem := highlighted_renderValue item others.head? depth
    have hitems := anyHighlighted_renderItems items others.tail depth
    simp [renderItems, litItems, highlighted, anyHighlighted, hitem, hitems]

/-- And rendered fields. -/
theorem anyHighlighted_renderFields : ∀ (fields others : List (Text × JsonTree ν)) (depth : ℕ),
    anyHighlighted (renderFields N side fields others depth) = litFields fields others
  | [], _, _ => rfl
  | (key, value) :: fields, others, depth => by
    have hvalue := highlighted_renderValue value (member key others) depth
    have hfields := anyHighlighted_renderFields fields others depth
    have hmuted : isHighlight "text-muted-foreground" = false := by decide
    have hclass : isHighlight (if hasOwn key others then "text-muted-foreground" else side.missing) =
        !hasOwn key others := by
      cases hasOwn key others
      · exact isHighlight_missing side
      · exact hmuted
    simp only [renderFields, litFields, highlighted, anyHighlighted, Option.any_some, hclass, hvalue, hfields,
      Bool.false_or, Bool.or_false, Bool.or_assoc]

end

/-- The panes of two values. -/
theorem highlighted_jsonDiff (v w : JsonTree ν) :
    highlighted (jsonDiff N (some v) (some w)) = (lit v (some w) || lit w (some v)) := by
  have hgrid : isHighlight "grid grid-cols-2 gap-3 font-mono text-xs" = false := by decide
  have htitle : isHighlight "mb-2 text-[10px] uppercase tracking-wide text-muted-foreground" = false := by decide
  have hframe : isHighlight "overflow-x-auto rounded border bg-muted/40 p-2" = false := by decide
  simp [jsonDiff, pane, renderTree, highlighted, anyHighlighted, highlighted_renderValue, hgrid, htitle, hframe]

end Highlights

section Hollow

theorem litFields_nil (fields : List (Text × JsonTree ν)) : litFields fields [] = !fields.isEmpty := by
  cases fields with
  | nil => rfl
  | cons field fields => simp [litFields, hasOwn]

mutual

/-- Without a counterpart everything is marked but what is hollow. -/
theorem lit_none : ∀ v : JsonTree ν, lit v none = !hollow v
  | .null => rfl
  | .bool _ => rfl
  | .num _ => rfl
  | .str _ => rfl
  | .arr items => by rw [lit, hollow, otherArr, litItems_nil items]; simp
  | .obj fields => by rw [lit, hollow, otherObj, litFields_nil]; simp

/-- So it is for items past the end of the others. -/
theorem litItems_nil : ∀ items : List (JsonTree ν), litItems items [] = !hollowItems items
  | [] => rfl
  | item :: items => by
    rw [litItems, hollowItems, List.head?_nil, List.tail_nil, lit_none item, litItems_nil items, Bool.not_and]

end

end Hollow

section Comparison

theorem deepEqual_iff (self : Primitive ν) (v : JsonTree ν) : deepEqual self (some v) = true ↔ v = self.tree := by
  cases self <;> cases v <;> simp [deepEqual, Primitive.tree, eq_comm]

theorem lit_primitive (self : Primitive ν) (other : Option (JsonTree ν)) : lit self.tree other = !deepEqual self other := by
  cases self <;> rfl

/-- A primitive shows nothing against itself only, and nor does it the other
way round. -/
theorem plain_primitive (self : Primitive ν) (v : JsonTree ν) :
    lit self.tree (some v) = false ∧ lit v (some self.tree) = false ↔ Same self.tree (solid v) := by
  rw [same_primitive, lit_primitive, Bool.not_eq_false', deepEqual_iff]
  constructor
  · exact And.left
  · rintro rfl
    exact ⟨rfl, by rw [lit_primitive, Bool.not_eq_false', deepEqual_iff]⟩

/-- Fields show nothing when each has its key on the other side, and shows
nothing there. -/
theorem litFields_iff {fields others : List (Text × JsonTree ν)} (hothers : (others.map Prod.fst).Nodup) :
    litFields fields others = false ↔
      ∀ field ∈ fields, ∃ other, (field.1, other) ∈ others ∧ lit field.2 (some other) = false := by
  induction fields with
  | nil => simp [litFields]
  | cons field fields ih =>
    obtain ⟨key, value⟩ := field
    have hfirst : (!hasOwn key others || lit value (member key others)) = false ↔
        ∃ other, (key, other) ∈ others ∧ lit value (some other) = false := by
      rw [Bool.or_eq_false_iff, Bool.not_eq_false', hasOwn_iff]
      constructor
      · rintro ⟨⟨other, hother⟩, hlit⟩
        rw [(member_iff hothers).mpr hother] at hlit
        exact ⟨other, hother, hlit⟩
      · rintro ⟨other, hother, hlit⟩
        rw [(member_iff hothers).mpr hother]
        exact ⟨⟨other, hother⟩, hlit⟩
    rw [litFields, Bool.or_eq_false_iff, hfirst, ih, List.forall_mem_cons]

/-- What is the same both ways may be turned around. -/
theorem plain_swap {v w : JsonTree ν}
    (h : lit v (some w) = false ∧ lit w (some v) = false ↔ Same (solid v) (solid w)) :
    lit w (some v) = false ∧ lit v (some w) = false ↔ Same (solid w) (solid v) :=
  and_comm.trans (h.trans ⟨same_symm, same_symm⟩)

/-- An array shows nothing against an object when both are hollow. -/
theorem plain_arr_obj (items : List (JsonTree ν)) (fields : List (Text × JsonTree ν)) :
    lit (.arr items) (some (.obj fields)) = false ∧ lit (.obj fields) (some (.arr items)) = false ↔
      Same (solid (.arr items)) (solid (.obj fields)) := by
  rw [lit, lit, otherArr, otherObj, litItems_nil, litFields_nil, Bool.not_eq_false', Bool.not_eq_false', solid, solid]
  · by_cases hempty : fields.isEmpty = true
    · rw [if_pos hempty, ← solidItems_eq_nil]
      constructor
      · rintro ⟨hitems, -⟩
        rw [hitems]
        exact .arr .nil
      · intro h
        exact ⟨JsonTree.arr.inj (same_arr_nil.mp (same_symm h)), hempty⟩
    · rw [if_neg hempty]
      exact iff_of_false (fun h => hempty h.2) fun h => by cases h
  · simp
  · simp

/-- Fields show nothing against each other when each has a counterpart, and
neither value shows anything. -/
theorem plainFields_iff {fields others : List (Text × JsonTree ν)} (hkeys : (fields.map Prod.fst).Nodup)
    (hothers : (others.map Prod.fst).Nodup)
    (hvalues : ∀ field ∈ fields, ∀ other ∈ others,
      (lit field.2 (some other.2) = false ∧ lit other.2 (some field.2) = false ↔
        Same (solid field.2) (solid other.2))) :
    litFields fields others = false ∧ litFields others fields = false ↔
      SameFields (solidFields fields) (solidFields others) := by
  have hone : ∀ {list : List (Text × JsonTree ν)}, (list.map Prod.fst).Nodup → ∀ {key : Text} {v w : JsonTree ν},
      (key, v) ∈ list → (key, w) ∈ list → v = w := fun hlist _ _ _ hv hw =>
    congrArg Prod.snd (List.inj_on_of_nodup_map hlist hv hw rfl)
  rw [litFields_iff hothers, litFields_iff hkeys, sameFields_solid_iff hkeys hothers]
  constructor
  · rintro ⟨hfields, hback⟩
    refine ⟨fun field hfield => ?_, fun other hother => ?_⟩
    · obtain ⟨other, hother, hplain⟩ := hfields field hfield
      obtain ⟨value, hvalue, hreturn⟩ := hback _ hother
      obtain rfl : value = field.2 := hone hkeys hvalue hfield
      exact ⟨other, hother, (hvalues field hfield _ hother).mp ⟨hplain, hreturn⟩⟩
    · obtain ⟨value, hvalue, -⟩ := hback other hother
      exact List.mem_map.mpr ⟨_, hvalue, rfl⟩
  · rintro ⟨hfields, hno⟩
    refine ⟨fun field hfield => ?_, fun other hother => ?_⟩
    · obtain ⟨other, hother, hsame⟩ := hfields field hfield
      exact ⟨other, hother, ((hvalues field hfield _ hother).mpr hsame).1⟩
    · obtain ⟨⟨_, value⟩, hvalue, rfl⟩ := List.mem_map.mp (hno other hother)
      obtain ⟨found, hfound, hsame⟩ := hfields _ hvalue
      obtain rfl : found = other.2 := hone hothers hfound hother
      exact ⟨value, hvalue, ((hvalues _ hvalue other hother).mpr hsame).2⟩

mutual

/-- Neither value shows anything against the other exactly when they are the
same once they are solid. -/
theorem plain_iff : ∀ {v w : JsonTree ν}, v.Keyed → w.Keyed →
    (lit v (some w) = false ∧ lit w (some v) = false ↔ Same (solid v) (solid w))
  | .null, w, _, _ => plain_primitive .null w
  | .bool b, w, _, _ => plain_primitive (.bool b) w
  | .num x, w, _, _ => plain_primitive (.num x) w
  | .str s, w, _, _ => plain_primitive (.str s) w
  | .arr items, .null, _, _ => plain_swap (plain_primitive .null (.arr items))
  | .arr items, .bool b, _, _ => plain_swap (plain_primitive (.bool b) (.arr items))
  | .arr items, .num x, _, _ => plain_swap (plain_primitive (.num x) (.arr items))
  | .arr items, .str s, _, _ => plain_swap (plain_primitive (.str s) (.arr items))
  | .arr items, .obj fields, _, _ => plain_arr_obj items fields
  | .arr items, .arr others, hv, hw => by
    rw [JsonTree.Keyed] at hv hw
    rw [lit, lit, otherArr, otherArr, plainItems_iff hv hw, solid, solid]
    constructor
    · exact .arr
    · intro h
      cases h with
      | arr h => exact h
  | .obj fields, .null, _, _ => plain_swap (plain_primitive .null (.obj fields))
  | .obj fields, .bool b, _, _ => plain_swap (plain_primitive (.bool b) (.obj fields))
  | .obj fields, .num x, _, _ => plain_swap (plain_primitive (.num x) (.obj fields))
  | .obj fields, .str s, _, _ => plain_swap (plain_primitive (.str s) (.obj fields))
  | .obj fields, .arr items, _, _ => plain_swap (plain_arr_obj items fields)
  | .obj fields, .obj others, hv, hw => by
    rw [JsonTree.Keyed] at hv hw
    rw [lit, lit, otherObj, otherObj, same_solid_obj]
    exact plainFields_iff hv.1 hw.1 fun field hfield other hother =>
      plainValues_iff hv.2 field hfield (keyedFields_iff.mp hw.2 other hother)

/-- Item by item, and past the end of either side. -/
theorem plainItems_iff : ∀ {items others : List (JsonTree ν)}, KeyedItems items → KeyedItems others →
    (litItems items others = false ∧ litItems others items = false ↔
      SameItems (solidItems items) (solidItems others))
  | [], others, _, _ => by
    rw [litItems, litItems_nil, Bool.not_eq_false', solidItems, sameItems_nil, solidItems_eq_nil]
    exact and_iff_right rfl
  | items, [], _, _ => by
    rw [litItems, litItems_nil, Bool.not_eq_false', solidItems, ← solidItems_eq_nil]
    exact (and_iff_left rfl).trans ⟨fun h => h ▸ .nil, fun h => sameItems_nil.mp (sameItems_symm h)⟩
  | item :: items, other :: others, hv, hw => by
    rw [KeyedItems] at hv hw
    rw [sameItems_solid_cons, ← plain_iff hv.1 hw.1, ← plainItems_iff hv.2 hw.2, litItems, litItems, List.head?_cons,
      List.head?_cons, List.tail_cons, List.tail_cons, Bool.or_eq_false_iff, Bool.or_eq_false_iff]
    exact and_and_and_comm

/-- For the value of every field. -/
theorem plainValues_iff : ∀ {fields : List (Text × JsonTree ν)}, KeyedFields fields → ∀ field ∈ fields,
    ∀ {w : JsonTree ν}, w.Keyed →
      (lit field.2 (some w) = false ∧ lit w (some field.2) = false ↔ Same (solid field.2) (solid w))
  | (_, _) :: _, hv, field, hfield, _, hw => by
    rw [KeyedFields] at hv
    rcases List.mem_cons.mp hfield with rfl | hrest
    · exact plain_iff hv.1 hw
    · exact plainValues_iff hv.2 field hrest hw

end

end Comparison

/-- The panes show a highlight exactly when the values differ once they are
solid. -/
theorem highlighted_iff (N : Numerals ν) {v w : JsonTree ν} (hv : v.Keyed) (hw : w.Keyed) :
    highlighted (jsonDiff N (some v) (some w)) = true ↔ ¬ Same (solid v) (solid w) := by
  rw [highlighted_jsonDiff, ← plain_iff hv hw, ← Bool.or_eq_false_iff, Bool.not_eq_false]

/-- A highlight tells exactly the values that differ, unless they differ in
hollow parts only: where reading every object without fields as an empty array,
and dropping hollow items from the ends of arrays, makes them the same, they have
to be the same already. -/
theorem diff_hides_nothing_iff (before after : JsonValue) :
    (highlighted (jsonDiff doubles (some before.tree) (some after.tree)) = true ↔ ¬ Same before.tree after.tree) ↔
      (Same (solid before.tree) (solid after.tree) → Same before.tree after.tree) := by
  rw [highlighted_iff doubles before.keyed after.keyed, not_iff_not]
  exact ⟨Iff.mp, fun h => ⟨h, solid_same⟩⟩

/-- Tiers with one empty tier. -/
def emptyTier : JsonValue := ⟨.obj [(ascii "tiers", .arr [.arr []])], by simp [JsonTree.Keyed, KeyedFields, KeyedItems]⟩

/-- No tiers. -/
def noTiers : JsonValue := ⟨.obj [(ascii "tiers", .arr [])], by simp [JsonTree.Keyed, KeyedFields, KeyedItems]⟩

/-- An item that one side is missing is not marked when it is empty. -/
theorem missing_item_hidden :
    ¬ (highlighted (jsonDiff doubles (some emptyTier.tree) (some noTiers.tree)) = true ↔
      ¬ Same emptyTier.tree noTiers.tree) := by
  have hhidden : highlighted (jsonDiff doubles (some emptyTier.tree) (some noTiers.tree)) = false := by decide +kernel
  rw [hhidden]
  intro h
  refine Bool.false_ne_true (h.mpr fun hsame => ?_)
  cases hsame with
  | obj hfields =>
    have hvalue := (sameFields_iff (by simp) (by simp)).mp hfields
    obtain ⟨other, hother, hsame⟩ := hvalue.1 _ List.mem_cons_self
    obtain rfl := congrArg Prod.snd (List.mem_singleton.mp hother)
    cases hsame with
    | arr hitems => cases hitems

end LpPlatform.JsonDiff
