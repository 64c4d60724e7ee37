import LpPlatform.JsonTrees

/-!
# Solid trees

A JSON value is hollow when nothing but arrays and objects without fields are
in it. A value is made solid by reading every object without fields as an array
without items, and dropping hollow items from the ends of all arrays. Values
that are the same have the same solid values; fields are compared key by key.
-/

namespace LpPlatform.SolidTrees

open JsonTrees

variable {ν : Type}

mutual

/-- Nothing but empty containers are in the value. -/
def hollow : JsonTree ν → Bool
  | .arr items => hollowItems items
  | .obj fields => fields.isEmpty
  | .null => false
  | .bool _ => false
  | .num _ => false
  | .str _ => false

/-- So it is for all items. -/
def hollowItems : List (JsonTree ν) → Bool
  | [] => true
  | item :: items => hollow item && hollowItems items

end

mutual

/-- The value without hollow ends. -/
def solid : JsonTree ν → JsonTree ν
  | .arr items => .arr (solidItems items)
  | .obj fields => if fields.isEmpty then .arr [] else .obj (solidFields fields)
  | .null => .null
  | .bool b => .bool b
  | .num x => .num x
  | .str s => .str s

/-- The items up to the last that is not hollow. -/
def solidItems : List (JsonTree ν) → List (JsonTree ν)
  | [] => []
  | item :: items => if hollow item && hollowItems items then [] else solid item :: solidItems items

/-- The values of all fields. -/
def solidFields : List (Text × JsonTree ν) → List (Text × JsonTree ν)
  | [] => []
  | (key, value) :: fields => (key, solid value) :: solidFields fields

end

section Ends

theorem solidFields_eq (fields : List (Text × JsonTree ν)) :
    solidFields fields = fields.map fun field => (field.1, solid field.2) := by
  induction fields with
  | nil => rfl
  | cons field fields ih => rw [solidFields, ih, List.map_cons]

/-- Hollow items leave nothing. -/
theorem solidItems_eq_nil (items : List (JsonTree ν)) : solidItems items = [] ↔ hollowItems items = true := by
  cases items with
  | nil => exact iff_of_true rfl rfl
  | cons item items =>
    rw [solidItems, hollowItems]
    split <;> simp_all

theorem sameItems_nil {items : List (JsonTree ν)} : SameItems [] items ↔ items = [] := by
  constructor
  · intro h
    cases h
    rfl
  · rintro rfl
    exact .nil

theorem same_arr_nil {v : JsonTree ν} : Same (.arr []) v ↔ v = .arr [] := by
  constructor
  · intro h
    cases h with
    | arr hitems => rw [sameItems_nil.mp hitems]
  · rintro rfl
    exact .arr .nil

/-- The hollow values are those that are empty arrays when they are solid. -/
theorem solid_eq_nil (v : JsonTree ν) : solid v = .arr [] ↔ hollow v = true := by
  cases v with
  | arr items => rw [solid, hollow, JsonTree.arr.injEq, solidItems_eq_nil]
  | obj fields =>
    rw [solid, hollow]
    split <;> simp_all
  | _ => simp [solid, hollow]

/-- Solid items are compared one by one, hollow ends included. -/
theorem sameItems_solid_cons (item other : JsonTree ν) (items others : List (JsonTree ν)) :
    SameItems (solidItems (item :: items)) (solidItems (other :: others)) ↔
      Same (solid item) (solid other) ∧ SameItems (solidItems items) (solidItems others) := by
  by_cases hleft : hollow item = true ∧ hollowItems items = true
  · -- the left side ends here: the right side does too, or both statements fail
    have hitems := (solidItems_eq_nil items).mpr hleft.2
    have hall : solidItems (item :: items) = [] := by
      rw [solidItems_eq_nil, hollowItems, hleft.1, hleft.2]
      rfl
    rw [hall, hitems, (solid_eq_nil item).mpr hleft.1, sameItems_nil, sameItems_nil, same_arr_nil, solid_eq_nil,
      solidItems_eq_nil, solidItems_eq_nil, hollowItems, Bool.and_eq_true]
  · have hcons : solidItems (item :: items) = solid item :: solidItems items := by
      rw [solidItems, if_neg (by rwa [Bool.and_eq_true])]
    rw [hcons, solidItems]
    split
    · rename_i hright
      obtain ⟨hother, hothers⟩ := Bool.and_eq_true_iff.mp hright
      refine iff_of_false (fun h => by cases h) ?_
      rintro ⟨hsame, hrest⟩
      rw [(solid_eq_nil other).mpr hother] at hsame
      rw [(solidItems_eq_nil others).mpr hothers] at hrest
      have hitem := same_arr_nil.mp (same_symm hsame)
      have hitems := sameItems_nil.mp (sameItems_symm hrest)
      exact hleft ⟨(solid_eq_nil item).mp hitem, (solidItems_eq_nil items).mp hitems⟩
    · constructor
      · intro h
        cases h with
        | cons hsame hrest => exact ⟨hsame, hrest⟩
      · rintro ⟨hsame, hrest⟩
        exact .cons hsame hrest

end Ends

section Congruence

mutual

/-- Hollow values are the same as hollow values only. -/
theorem hollow_same : ∀ {v w : JsonTree ν}, Same v w → hollow v = hollow w
  | _, _, .null => rfl
  | _, _, .bool _ => rfl
  | _, _, .num _ => rfl
  | _, _, .str _ => rfl
  | _, _, .arr h => by rw [hollow, hollow, hollowItems_same h]
  | _, _, .obj h => by
    rw [hollow, hollow]
    cases h <;> simp

/-- Item by item. -/
theorem hollowItems_same : ∀ {items others : List (JsonTree ν)}, SameItems items others →
    hollowItems items = hollowItems others
  | _, _, .nil => rfl
  | _, _, .cons h hrest => by rw [hollowItems, hollowItems, hollow_same h, hollowItems_same hrest]

end

mutual

/-- Values that are the same are the same when they are solid. -/
theorem solid_same : ∀ {v w : JsonTree ν}, Same v w → Same (solid v) (solid w)
  | _, _, .null => .null
  | _, _, .bool b => .bool b
  | _, _, .num x => .num x
  | _, _, .str s => .str s
  | _, _, .arr h => .arr (solidItems_same h)
  | _, _, @Same.obj _ fields others h => by
    have hempty : fields.isEmpty = others.isEmpty := by cases h <;> simp
    rw [solid, solid, hempty]
    split
    · exact .arr .nil
    · exact .obj (solidFields_same h)

/-- Item by item. -/
theorem solidItems_same : ∀ {items others : List (JsonTree ν)}, SameItems items others →
    SameItems (solidItems items) (solidItems others)
  | _, _, .nil => .nil
  | _, _, .cons h hrest => (sameItems_solid_cons _ _ _ _).mpr ⟨solid_same h, solidItems_same hrest⟩

/-- Field by field, in another order. -/
theorem solidFields_same : ∀ {fields others : List (Text × JsonTree ν)}, SameFields fields others →
    SameFields (solidFields fields) (solidFields others)
  | _, _, .nil => .nil
  | _, _, @SameFields.cons _ key value other fields front back h hrest => by
    have hfields := solidFields_same hrest
    rw [solidFields_eq (front ++ back), List.map_append] at hfields
    rw [solidFields, solidFields_eq (front ++ _), List.map_append, List.map_cons]
    exact .cons (solid_same h) hfields

end

/-- Solid fields of distinct keys are compared key by key. -/
theorem sameFields_solid_iff {fields others : List (Text × JsonTree ν)} (hkeys : (fields.map Prod.fst).Nodup)
    (hothers : (others.map Prod.fst).Nodup) : SameFields (solidFields fields) (solidFields others) ↔
      (∀ field ∈ fields, ∃ other, (field.1, other) ∈ others ∧ Same (solid field.2) (solid other)) ∧
        ∀ other ∈ others, other.1 ∈ fields.map Prod.fst := by
  have hmap : ∀ list : List (Text × JsonTree ν), (solidFields list).map Prod.fst = list.map Prod.fst := by
    intro list
    rw [solidFields_eq, List.map_map]
    rfl
  rw [sameFields_iff (by rwa [hmap]) (by rwa [hmap]), hmap, solidFields_eq, solidFields_eq, List.forall_mem_map,
    List.forall_mem_map]
  refine and_congr (forall₂_congr fun field _ => ?_) Iff.rfl
  constructor
  · rintro ⟨_, hmem, hsame⟩
    obtain ⟨other, hother, heq⟩ := List.mem_map.mp hmem
    obtain ⟨hkey, rfl⟩ := Prod.mk.inj heq
    exact ⟨other.2, hkey ▸ hother, hsame⟩
  · rintro ⟨other, hother, hsame⟩
    exact ⟨solid other, List.mem_map_of_mem hother, hsame⟩

/-- Objects are the same when they are solid as their fields are. -/
theorem same_solid_obj {fields others : List (Text × JsonTree ν)} :
    Same (solid (.obj fields)) (solid (.obj others)) ↔ SameFields (solidFields fields) (solidFields others) := by
  have hobj : ∀ {front back : List (Text × JsonTree ν)}, Same (.obj front) (.obj back) ↔ SameFields front back := by
    intro front back
    constructor
    · intro h
      cases h with
      | obj h => exact h
    · exact .obj
  cases fields with
  | nil =>
    cases others with
    | nil => exact iff_of_true (.arr .nil) .nil
    | cons other others => exact iff_of_false (fun h => by cases h) fun h => by cases h
  | cons field fields =>
    cases others with
    | nil =>
      refine iff_of_false (fun h => by cases h) fun h => ?_
      have hswap := sameFields_symm h
      cases hswap
    | cons other others => exact hobj

end Congruence

end LpPlatform.SolidTrees
