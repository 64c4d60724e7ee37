import Mathlib.Computability.RegularExpressions

/-!
# Texts of regular expressions

Character classes, repetition and options over any alphabet, as the regular
expressions of programs write them. Each has one lemma that says which texts
it matches, so that a text of an expression is taken apart from the front.
-/

namespace LpPlatform.RegularTexts

open RegularExpression

variable {α : Type*} {P Q : RegularExpression α} {letters text : List α}

/-- One letter of a class. -/
def oneOf (letters : List α) : RegularExpression α := letters.foldr (fun a P => char a + P) 0

/-- One or more texts of an expression. -/
def many (P : RegularExpression α) : RegularExpression α := P * P.star

/-- At most one text of an expression. -/
def atMostOne (P : RegularExpression α) : RegularExpression α := 1 + P

/-- A class matches its letters. -/
theorem mem_oneOf : text ∈ (oneOf letters).matches' ↔ ∃ a ∈ letters, text = [a] := by
  induction letters with
  | nil => simp [oneOf, Language.notMem_zero]
  | cons a letters ih =>
    have hsplit : oneOf (a :: letters) = char a + oneOf letters := rfl
    have hletter : text ∈ (char a).matches' ↔ text = [a] := Iff.rfl
    rw [hsplit, matches'_add, Language.mem_add, ih, hletter]
    simp

/-- A sum matches the texts of both expressions. -/
theorem mem_add : text ∈ (P + Q).matches' ↔ text ∈ P.matches' ∨ text ∈ Q.matches' := by
  rw [matches'_add, Language.mem_add]

/-- A product matches a text of the one before a text of the other. -/
theorem mem_mul : text ∈ (P * Q).matches' ↔ ∃ front ∈ P.matches', ∃ back ∈ Q.matches', text = front ++ back := by
  rw [matches'_mul, Language.mem_mul]
  simp only [eq_comm]

/-- A letter in front. -/
theorem mem_char_mul {a : α} : text ∈ (char a * P).matches' ↔ ∃ rest ∈ P.matches', text = a :: rest := by
  rw [mem_mul, matches'_char]
  constructor
  · rintro ⟨front, rfl, rest, hrest, rfl⟩
    exact ⟨rest, hrest, rfl⟩
  · rintro ⟨rest, hrest, rfl⟩
    exact ⟨[a], rfl, rest, hrest, rfl⟩

/-- A letter of a class in front. -/
theorem mem_oneOf_mul : text ∈ (oneOf letters * P).matches' ↔
    ∃ a ∈ letters, ∃ rest ∈ P.matches', text = a :: rest := by
  rw [mem_mul]
  constructor
  · rintro ⟨front, hfront, rest, hrest, rfl⟩
    obtain ⟨a, ha, rfl⟩ := mem_oneOf.mp hfront
    exact ⟨a, ha, rest, hrest, rfl⟩
  · rintro ⟨a, ha, rest, hrest, rfl⟩
    exact ⟨[a], mem_oneOf.mpr ⟨a, ha, rfl⟩, rest, hrest, rfl⟩

/-- Letters of a class, any number of times. -/
theorem mem_star_oneOf : text ∈ (oneOf letters).star.matches' ↔ ∀ a ∈ text, a ∈ letters := by
  rw [matches'_star, Language.mem_kstar]
  constructor
  · rintro ⟨parts, rfl, hparts⟩ a ha
    obtain ⟨part, hpart, hmem⟩ := List.mem_flatten.mp ha
    obtain ⟨b, hb, rfl⟩ := mem_oneOf.mp (hparts part hpart)
    exact List.mem_singleton.mp hmem ▸ hb
  · intro h
    refine ⟨text.map fun a => [a], by rw [← List.flatMap_def, List.flatMap_singleton'], fun part hpart => ?_⟩
    obtain ⟨a, ha, rfl⟩ := List.mem_map.mp hpart
    exact mem_oneOf.mpr ⟨a, h a ha, rfl⟩

/-- Letters of a class, at least one. -/
theorem mem_many_oneOf : text ∈ (many (oneOf letters)).matches' ↔ text ≠ [] ∧ ∀ a ∈ text, a ∈ letters := by
  rw [many, mem_oneOf_mul]
  constructor
  · rintro ⟨a, ha, rest, hrest, rfl⟩
    exact ⟨List.cons_ne_nil a rest, List.forall_mem_cons.mpr ⟨ha, mem_star_oneOf.mp hrest⟩⟩
  · rintro ⟨hne, hall⟩
    obtain ⟨a, rest, rfl⟩ := List.exists_cons_of_ne_nil hne
    exact ⟨a, hall a List.mem_cons_self, rest,
      mem_star_oneOf.mpr fun b hb => hall b (List.mem_cons_of_mem a hb), rfl⟩

/-- Nothing, or a text of the expression. -/
theorem mem_atMostOne : text ∈ (atMostOne P).matches' ↔ text = [] ∨ text ∈ P.matches' := by
  rw [atMostOne, mem_add, matches'_epsilon, Language.mem_one]

end LpPlatform.RegularTexts
