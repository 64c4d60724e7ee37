import Mathlib.Data.List.Sort

/-!
# Sorting keeps the order of equals

Insertion sort keeps rows in their order unless one of them must go first, so
dropping rows before or after it makes no difference.
-/

namespace LpPlatform.StableSorts

variable {ρ : Type} {r : ρ → ρ → Prop} [DecidableRel r]

theorem orderedInsert_least {a : ρ} {rows : List ρ} (h : ∀ b ∈ rows, r a b) :
    rows.orderedInsert r a = a :: rows := by
  cases rows with
  | nil => rfl
  | cons b rows => exact List.orderedInsert_cons_of_le r rows (h b List.mem_cons_self)

/-- A row is inserted among the rows that pass, or not at all. -/
theorem filter_orderedInsert (htrans : ∀ a b c, r a b → r b c → r a c) (p : ρ → Bool) {a : ρ}
    {rows : List ρ} (hrows : rows.Pairwise r) : (rows.orderedInsert r a).filter p =
      if p a then (rows.filter p).orderedInsert r a else rows.filter p := by
  induction rows with
  | nil => by_cases ha : p a <;> simp [ha]
  | cons b rows ih =>
    obtain ⟨hb, hrest⟩ := List.pairwise_cons.mp hrows
    by_cases hab : r a b
    · have hleast : ∀ c ∈ (b :: rows).filter p, r a c := fun c hc => by
        rcases List.mem_cons.mp (List.mem_filter.mp hc).1 with rfl | hc
        · exact hab
        · exact htrans a b c hab (hb c hc)
      rw [List.orderedInsert_cons_of_le r rows hab, List.filter_cons, orderedInsert_least hleast]
    · rw [List.orderedInsert_cons, if_neg hab, List.filter_cons, ih hrest]
      by_cases ha : p a <;> by_cases hpb : p b <;>
        simp [ha, hpb, hab]

/-- Sorting keeps the rows that pass in their order. -/
theorem filter_insertionSort (htotal : ∀ a b, r a b ∨ r b a) (htrans : ∀ a b c, r a b → r b c → r a c)
    (p : ρ → Bool) (rows : List ρ) :
    (rows.insertionSort r).filter p = (rows.filter p).insertionSort r := by
  have : Std.Total r := ⟨htotal⟩
  have : IsTrans ρ r := ⟨htrans⟩
  induction rows with
  | nil => rfl
  | cons a rows ih =>
    rw [List.insertionSort_cons, filter_orderedInsert htrans p (List.pairwise_insertionSort r rows), ih]
    by_cases ha : p a <;> simp [ha]

end LpPlatform.StableSorts
