import Mathlib.Data.List.Basic

/-!
# Pages of a list

A list is cut into pages of one size, all full but the last. There is at least
one page, and the pages put together are the list.
-/

namespace LpPlatform.ListPages

variable {α : Type*} (size : ℕ)

/-- The number of pages, of which an empty list has one. -/
def pageCount (length : ℕ) : ℕ := max 1 ((length + size - 1) / size)

/-- `slice` from a page before the end to the end of the page. -/
def page (xs : List α) (number : ℕ) : List α := (xs.take (number * size)).drop ((number - 1) * size)

/-- The page of an item, by its index. -/
def pageOf (index : ℕ) : ℕ := index / size + 1

section Pages

variable {size} {xs : List α} {number length : ℕ}

theorem pageCount_pos (length : ℕ) : 0 < pageCount size length := Nat.lt_of_lt_of_le Nat.one_pos (Nat.le_max_left _ _)

theorem length_page_le : (page size xs number).length ≤ size := by
  rw [page, List.length_drop, List.length_take, Nat.sub_mul]
  omega

/-- The last page ends where the list ends. -/
theorem length_le_pages (hsize : 0 < size) (length : ℕ) : length ≤ pageCount size length * size := by
  have hceil : length ≤ (length + size - 1) / size * size := by
    have hdiv := Nat.div_add_mod (length + size - 1) size
    have hmod := Nat.mod_lt (length + size - 1) hsize
    rw [Nat.mul_comm] at hdiv
    omega
  exact Nat.le_trans hceil (Nat.mul_le_mul_right _ (Nat.le_max_right _ _))

theorem pageOf_le (hsize : 0 < size) {index : ℕ} (h : index < length) :
    pageOf size index ≤ pageCount size length := by
  have hceil : index / size + 1 ≤ (length + size - 1) / size := by
    rw [← Nat.add_div_right index hsize]
    exact Nat.div_le_div_right (by omega)
  exact Nat.le_trans hceil (Nat.le_max_right _ _)

/-- An item is on its page. -/
theorem mem_page (hsize : 0 < size) {index : ℕ} (h : index < xs.length) :
    xs.get ⟨index, h⟩ ∈ page size xs (pageOf size index) := by
  have hlow : index / size * size ≤ index := Nat.div_mul_le_self index size
  have hhigh : index < (index / size + 1) * size := Nat.lt_mul_of_div_lt (Nat.lt_succ_self _) hsize
  have hindex : index - index / size * size < (page size xs (pageOf size index)).length := by
    rw [page, pageOf, List.length_drop, List.length_take, Nat.add_sub_cancel]
    omega
  refine List.mem_iff_getElem.mpr ⟨index - index / size * size, hindex, ?_⟩
  simp only [page, pageOf, Nat.add_sub_cancel, List.getElem_drop, List.getElem_take, List.get_eq_getElem,
    Nat.add_sub_cancel' hlow]

/-- No page is empty unless the list is. -/
theorem eq_nil_of_page (hsize : 0 < size) (hpos : 0 < number) (hle : number ≤ pageCount size xs.length)
    (h : page size xs number = []) : xs = [] := by
  refine List.length_eq_zero_iff.mp (Nat.eq_zero_of_not_pos fun hlength => ?_)
  have hceil : 1 ≤ (xs.length + size - 1) / size := (Nat.one_le_div_iff hsize).mpr (by omega)
  have hcount : number ≤ (xs.length + size - 1) / size := Nat.le_trans hle (Nat.max_le.mpr ⟨hceil, Nat.le_refl _⟩)
  have hend : number * size ≤ xs.length + size - 1 := (Nat.le_div_iff_mul_le hsize).mp hcount
  have hstart : number * size = (number - 1) * size + size := by
    rw [← Nat.succ_mul, Nat.succ_eq_add_one, Nat.sub_add_cancel hpos]
  have hnone := congrArg List.length h
  rw [page, List.length_drop, List.length_take, List.length_nil] at hnone
  omega

/-- The first pages put together are the first items. -/
theorem pages_take (xs : List α) (count : ℕ) :
    (List.range count).flatMap (fun k => page size xs (k + 1)) = xs.take (count * size) := by
  induction count with
  | zero => simp
  | succ count ih =>
    have hle : count * size ≤ (count + 1) * size := Nat.mul_le_mul_right _ (Nat.le_succ count)
    have hfirst : xs.take (count * size) = (xs.take ((count + 1) * size)).take (count * size) := by
      rw [List.take_take, Nat.min_eq_left hle]
    rw [List.range_succ, List.flatMap_append, ih, List.flatMap_singleton, page, Nat.add_sub_cancel, hfirst,
      List.take_append_drop]

/-- All pages put together are the list. -/
theorem pages_all (hsize : 0 < size) (xs : List α) :
    (List.range (pageCount size xs.length)).flatMap (fun k => page size xs (k + 1)) = xs := by
  rw [pages_take, List.take_of_length_le (length_le_pages hsize xs.length)]

end Pages

end LpPlatform.ListPages
