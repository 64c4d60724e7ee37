import Mathlib.Data.Finset.Card

/-!
# Rounds over a window of a queue

Every round tries the elements of a window of bounded size, fills the window as
far as elements are left, and takes off those that succeed. What fails stays
and may fill the window again. When few enough elements fail, enough rounds
have tried every element; when the same elements fill every window, each round
after the first tries only as many others as they leave room for.
-/

namespace LpPlatform.WindowedRounds

variable {α : Type} [DecidableEq α]

/-- One round tries a window of what is left and takes off what succeeds. -/
structure Round (size : ℕ) (left window failed left' : Finset α) : Prop where
  among : window ⊆ left
  /-- The window is full as far as elements are left. -/
  full : window.card = min size left.card
  fails : failed ⊆ window
  rest : left' = left \ (window \ failed)

/-- Rounds one after the other, on windows that meet a condition, with all
elements tried and all that failed in some round. -/
inductive Rounds (size : ℕ) (cond : Finset α → Prop) (start : Finset α) :
    ℕ → Finset α → Finset α → Finset α → Prop where
  | none : Rounds size cond start 0 ∅ ∅ start
  | round {m tried failed left window failures left'} (h : Rounds size cond start m tried failed left)
      (hround : Round size left window failures left') (hcond : cond window) :
      Rounds size cond start (m + 1) (tried ∪ window) (failed ∪ failures) left'

section Coverage

variable {size f m : ℕ} {cond : Finset α → Prop} {start tried failed left : Finset α}

/-- What is left was there at the start, holds everything untried, and was
tried only if it failed. -/
theorem rounds_left (h : Rounds size cond start m tried failed left) :
    tried ⊆ start ∧ start \ tried ⊆ left ∧ left ⊆ start ∧ left ∩ tried ⊆ failed := by
  induction h with
  | none => simp
  | @round m tried failed left window failures left' h hround hcond ih =>
    obtain ⟨htried, huntried, hleft, hagain⟩ := ih
    obtain ⟨hwindow, -, hfailed, rfl⟩ := hround
    refine ⟨Finset.union_subset htried (hwindow.trans hleft), fun x hx => ?_,
      Finset.sdiff_subset.trans hleft, fun x hx => ?_⟩
    · simp only [Finset.mem_sdiff, Finset.mem_union, not_or] at hx ⊢
      exact ⟨huntried (Finset.mem_sdiff.mpr ⟨hx.1, hx.2.1⟩), fun hmem => hx.2.2 hmem.1⟩
    · simp only [Finset.mem_inter, Finset.mem_sdiff, Finset.mem_union, not_and, not_not] at hx ⊢
      rcases hx with ⟨⟨hx, hkept⟩, htried | hwindow⟩
      · exact Or.inl (hagain (Finset.mem_inter.mpr ⟨hx, htried⟩))
      · exact Or.inr (hkept hwindow)

/-- Few failures leave room for new elements in every round. -/
theorem tried_card_ge (h : Rounds size cond start m tried failed left) (hf : failed.card ≤ f) :
    m = 0 ∨ min start.card (size + (m - 1) * (size - f)) ≤ tried.card := by
  induction h with
  | none => exact Or.inl rfl
  | @round m tried failed left window failures left' h hround hcond ih =>
    refine Or.inr ?_
    obtain ⟨htried, huntried, hleft, hagain⟩ := rounds_left h
    have hsplit : (tried ∪ window).card = tried.card + (window \ tried).card := by
      rw [← Finset.card_union_of_disjoint Finset.disjoint_sdiff, Finset.union_sdiff_self_eq_union]
    rcases le_or_gt left.card size with hall | hmore
    · -- the window is all that is left, so nothing stays untried
      have hwindow : window = left := Finset.eq_of_subset_of_card_le hround.among
        (by rw [hround.full, min_eq_right hall])
      have heverything : start ⊆ tried ∪ window := by
        intro x hx
        by_cases hxt : x ∈ tried
        · exact Finset.mem_union_left _ hxt
        · rw [hwindow]
          exact Finset.mem_union_right _ (huntried (Finset.mem_sdiff.mpr ⟨hx, hxt⟩))
      exact (min_le_left _ _).trans (Finset.card_le_card heverything)
    · have hsize : window.card = size := by rw [hround.full, min_eq_left hmore.le]
      have hold : (window ∩ tried).card ≤ f :=
        (Finset.card_le_card ((Finset.inter_subset_inter_right hround.among).trans hagain)).trans
          ((Finset.card_le_card Finset.subset_union_left).trans hf)
      have hnew : size - f ≤ (window \ tried).card := by
        rw [Finset.card_sdiff, Finset.inter_comm]
        omega
      cases m with
      | zero =>
        cases h with
        | none => simp [hsize]
      | succ k =>
        have hbefore := (ih ((Finset.card_le_card Finset.subset_union_left).trans hf)).resolve_left
          k.succ_ne_zero
        have hstep : (k + 1) * (size - f) = k * (size - f) + (size - f) := Nat.succ_mul k _
        simp only [Nat.add_sub_cancel] at hbefore ⊢
        omega

/-- Enough rounds with few failures try everything. -/
theorem rounds_cover (h : Rounds size cond start m tried failed left) (hf : failed.card ≤ f)
    (hsize : start.card ≤ m * size) (hroom : f * (m - 1) ≤ m * size - start.card) : tried = start := by
  refine Finset.eq_of_subset_of_card_le (rounds_left h).1 ?_
  rcases tried_card_ge h hf with rfl | hge
  · omega
  · cases m with
    | zero => omega
    | succ k =>
      simp only [Nat.add_sub_cancel] at hge hroom
      have henough : start.card ≤ size + k * (size - f) := by
        have hsplit : (k + 1) * size = k * size + size := Nat.succ_mul k size
        rcases le_or_gt f size with hle | hgt
        · have hmul : k * (size - f) + f * k = k * size := by
            rw [Nat.mul_comm f k, ← Nat.mul_add, Nat.sub_add_cancel hle]
          omega
        · have hmul : k * size ≤ f * k := by
            rw [Nat.mul_comm f k]
            exact Nat.mul_le_mul_left k hgt.le
          omega
      omega

/-- Elements that fill every window leave room only for the others. -/
theorem tried_card_le {stuck : Finset α} (h : Rounds size (stuck ⊆ ·) start m tried failed left) :
    m = 0 ∨ (stuck ⊆ tried ∧ tried.card ≤ size + (m - 1) * (size - stuck.card)) := by
  induction h with
  | none => exact Or.inl rfl
  | @round m tried failed left window failures left' h hround hcond ih =>
    refine Or.inr ⟨hcond.trans Finset.subset_union_right, ?_⟩
    have hsize : window.card ≤ size := hround.full.trans_le (min_le_left _ _)
    cases m with
    | zero =>
      cases h with
      | none => simpa using hsize
    | succ k =>
      obtain ⟨hstuck, hbefore⟩ := ih.resolve_left k.succ_ne_zero
      have hunion : tried ∪ window = tried ∪ (window \ stuck) := by
        ext x
        simp only [Finset.mem_union, Finset.mem_sdiff]
        by_cases hx : x ∈ stuck
        · simp [hstuck hx]
        · simp [hx]
      have hnew : (window \ stuck).card ≤ size - stuck.card := by
        rw [Finset.card_sdiff_of_subset hcond]
        omega
      have hcard := Finset.card_union_le tried (window \ stuck)
      rw [hunion]
      have hstep : (k + 1) * (size - stuck.card) = k * (size - stuck.card) + (size - stuck.card) :=
        Nat.succ_mul k _
      simp only [Nat.add_sub_cancel] at hbefore ⊢
      omega

end Coverage

end LpPlatform.WindowedRounds
