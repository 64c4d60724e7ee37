import Mathlib.Data.List.Basic
import Mathlib.Data.Int.Order.Basic
import Mathlib.Tactic.Linarith

/-!
# Reading rows page by page

Rows in decreasing order of a key are read in pages of a fixed size. A full
page is followed by the page of the rows below its last key; a page that is
not full is the last one. The pages that are read one after the other are all
the rows, even if rows with larger keys arrive in between.
-/

namespace LpPlatform.KeysetPages

variable {ρ : Type} (key : ρ → ℕ)

/-- Every row has a smaller key than the rows before it. -/
def Descending (rows : List ρ) : Prop := rows.Pairwise fun a b => key b < key a

/-- The rows up to a cursor; without a cursor all of them. -/
def upTo (cursor : Option ℤ) (rows : List ρ) : List ρ :=
  rows.filter fun r => cursor.all ((key r : ℤ) ≤ ·)

/-- The cursor of the page that follows a full page. -/
def next (limit : ℕ) (page : List ρ) : Option ℤ :=
  if page.length = limit then page.getLast?.map fun r => (key r : ℤ) - 1 else none

/-- The pages that are read from a call on, each at its own time. -/
inductive Pages (limit : ℕ) (fetch : ℕ → Option ℤ → List ρ) :
    ℕ → Option ℤ → List (List ρ) → Prop where
  | last {k cursor} (hend : next key limit (fetch k cursor) = none) :
    Pages limit fetch k cursor [fetch k cursor]
  | more {k cursor cursor' pages} (hnext : next key limit (fetch k cursor) = some cursor')
      (hrest : Pages limit fetch (k + 1) (some cursor') pages) :
    Pages limit fetch k cursor (fetch k cursor :: pages)

section Rules

variable {key}
variable {rows front back : List ρ} {r : ρ} {limit m : ℕ} {cursor : ℤ}

/-- The rows below a row are those after it. -/
theorem upTo_below (h : Descending key (front ++ r :: back)) :
    upTo key (some ((key r : ℤ) - 1)) (front ++ r :: back) = back := by
  obtain ⟨-, hrest, hfront⟩ := List.pairwise_append.mp h
  have hback := (List.pairwise_cons.mp hrest).1
  have hbefore : upTo key (some ((key r : ℤ) - 1)) front = [] := by
    refine List.filter_eq_nil_iff.mpr fun a ha => ?_
    have hlt := hfront a ha r List.mem_cons_self
    simp only [Option.all_some, decide_eq_true_eq]
    omega
  have hafter : upTo key (some ((key r : ℤ) - 1)) back = back := by
    refine List.filter_eq_self.mpr fun b hb => ?_
    have hlt := hback b hb
    simp only [Option.all_some, decide_eq_true_eq]
    omega
  have hcons : upTo key (some ((key r : ℤ) - 1)) (front ++ r :: back) =
      upTo key (some ((key r : ℤ) - 1)) front ++ upTo key (some ((key r : ℤ) - 1)) (r :: back) :=
    List.filter_append ..
  rw [hcons, hbefore, List.nil_append]
  have hdrop : upTo key (some ((key r : ℤ) - 1)) (r :: back) =
      upTo key (some ((key r : ℤ) - 1)) back := List.filter_cons_of_neg (by simp)
  rw [hdrop, hafter]

/-- A cursor is below the key of the last row of a full page, and the rows up
to it are those after the page. -/
theorem upTo_next (hlimit : 0 < limit) (hrows : Descending key rows)
    (h : next key limit ((rows.drop m).take limit) = some cursor) :
    (∃ r ∈ rows, cursor = (key r : ℤ) - 1) ∧ m + limit ≤ rows.length ∧
      upTo key (some cursor) rows = rows.drop (m + limit) := by
  simp only [next, Option.ite_none_right_eq_some, List.length_take, List.length_drop] at h
  obtain ⟨hfull, hlast⟩ := h
  obtain ⟨r, hr, rfl⟩ := Option.map_eq_some_iff.mp hlast
  have hlen : m + limit ≤ rows.length := by omega
  have hindex : m + (limit - 1) < rows.length := by omega
  have hrow : r = rows[m + (limit - 1)] := by
    rw [List.getLast?_eq_getElem?, List.length_take, List.length_drop, hfull,
      List.getElem?_take_of_lt (by omega), List.getElem?_drop, List.getElem?_eq_getElem hindex] at hr
    exact (Option.some.inj hr).symm
  have hsplit : rows.take (m + (limit - 1)) ++ r :: rows.drop (m + limit) = rows := by
    have hafter : m + limit = m + (limit - 1) + 1 := by omega
    rw [hafter, hrow, ← List.drop_eq_getElem_cons hindex, List.take_append_drop]
  refine ⟨⟨r, hrow ▸ List.getElem_mem hindex, rfl⟩, hlen, ?_⟩
  have hdescending : Descending key (rows.take (m + (limit - 1)) ++ r :: rows.drop (m + limit)) := by
    rw [hsplit]
    exact hrows
  have hbelow := upTo_below hdescending
  rwa [hsplit] at hbelow

/-- Pages are read until one is not full, and together they are all the rows,
as long as every call finds the rows up to its cursor. -/
theorem pages_complete {fetch : ℕ → Option ℤ → List ρ} (hlimit : 0 < limit)
    (hrows : Descending key rows) (hfirst : fetch 0 none = rows.take limit)
    (hlater : ∀ k, ∀ r ∈ rows, fetch k (some ((key r : ℤ) - 1)) =
      (upTo key (some ((key r : ℤ) - 1)) rows).take limit) :
    ∃ pages, Pages key limit fetch 0 none pages ∧ pages.flatten = rows := by
  have hfrom : ∀ left m k cursor, rows.length - m = left →
      fetch k cursor = (rows.drop m).take limit →
      ∃ pages, Pages key limit fetch k cursor pages ∧ pages.flatten = rows.drop m := by
    intro left
    induction left using Nat.strongRecOn with
    | ind left ih =>
      intro m k cursor hleft hfetch
      cases hnext : next key limit (fetch k cursor) with
      | none =>
        refine ⟨_, .last hnext, ?_⟩
        have hshort : (rows.drop m).length ≤ limit := by
          by_contra hlong
          have hfull : ((rows.drop m).take limit).length = limit := by
            rw [List.length_take]
            omega
          rw [hfetch, next, if_pos hfull, Option.map_eq_none_iff, List.getLast?_eq_none_iff] at hnext
          rw [hnext] at hfull
          simp only [List.length_nil] at hfull
          omega
        rw [List.flatten_singleton, hfetch, List.take_of_length_le hshort]
      | some cursor' =>
        have hstep := hnext
        rw [hfetch] at hstep
        obtain ⟨⟨r, hr, rfl⟩, hlen, hrest⟩ := upTo_next hlimit hrows hstep
        obtain ⟨pages, hpages, hflatten⟩ := ih (rows.length - (m + limit)) (by omega) (m + limit)
          (k + 1) (some ((key r : ℤ) - 1)) rfl (by rw [hlater (k + 1) r hr, hrest])
        refine ⟨_, .more hnext hpages, ?_⟩
        rw [List.flatten_cons, hflatten, hfetch, ← List.drop_drop, List.take_append_drop]
  obtain ⟨pages, hpages, hflatten⟩ := hfrom _ 0 0 none rfl (by rw [hfirst, List.drop_zero])
  exact ⟨pages, hpages, by rw [hflatten, List.drop_zero]⟩

end Rules

end LpPlatform.KeysetPages
