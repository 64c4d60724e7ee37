import Mathlib.Data.List.Nodup
import Mathlib.Data.List.Basic

/-!
# Stores made of keyed rows

A store is changed by single writes, and every write names the rows it
touches by their keys. A slice is what the store holds under one key. The
laws say that a write changes no other slice, that the slices it leaves
depend only on the slices it found, and that whether it violates a
constraint depends only on them too. They are what row locks rely on.
-/

namespace LpPlatform.RowStore

/-- A store, its single writes and the rows each write touches. -/
structure KeyedRows (δ ω κ : Type) where
  /-- What a store holds under one key. -/
  Slice : Type
  /-- The rows stored under a key. -/
  slice : δ → κ → Slice
  /-- The store after one write. -/
  apply : δ → ω → δ
  /-- Keys of the rows a write inserts or changes. -/
  keys : ω → List κ
  /-- The write violates no uniqueness constraint. -/
  valid : δ → ω → Bool
  /-- Serializable transactions holding these two writes cannot both commit
  when neither saw the other's. The first write is the committed one. -/
  clash : ω → ω → Bool
  /-- No other slice changes. -/
  slice_other : ∀ d w k, k ∉ keys w → slice (apply d w) k = slice d k
  /-- The slices left depend on the slices found. -/
  slice_congr : ∀ d d' w, (∀ k ∈ keys w, slice d k = slice d' k) →
    ∀ k ∈ keys w, slice (apply d w) k = slice (apply d' w) k
  /-- Validity depends on the slices found. -/
  valid_congr : ∀ d d' w, (∀ k ∈ keys w, slice d k = slice d' k) → valid d w = valid d' w

variable {δ ω κ : Type} (S : KeyedRows δ ω κ)

/-- The store after a list of writes, in order. -/
def KeyedRows.applyAll (d : δ) (ws : List ω) : δ := ws.foldl S.apply d

/-- Every write is valid where it is applied. -/
def KeyedRows.validAll : δ → List ω → Bool
  | _, [] => true
  | d, w :: ws => S.valid d w && KeyedRows.validAll (S.apply d w) ws

/-- All keys of a list of writes. -/
def KeyedRows.keysOf (ws : List ω) : List κ := ws.flatMap S.keys

/-- The two lists of writes touch no common row. -/
def KeyedRows.Apart (us ws : List ω) : Prop := ∀ k ∈ S.keysOf us, k ∉ S.keysOf ws

@[simp] theorem applyAll_nil (d : δ) : S.applyAll d [] = d := rfl

@[simp] theorem applyAll_cons (d : δ) (w : ω) (ws : List ω) :
    S.applyAll d (w :: ws) = S.applyAll (S.apply d w) ws := rfl

theorem applyAll_append (d : δ) (us ws : List ω) :
    S.applyAll d (us ++ ws) = S.applyAll (S.applyAll d us) ws := by
  simp [KeyedRows.applyAll, List.foldl_append]

@[simp] theorem validAll_nil (d : δ) : S.validAll d [] = true := rfl

@[simp] theorem validAll_cons (d : δ) (w : ω) (ws : List ω) :
    S.validAll d (w :: ws) = (S.valid d w && S.validAll (S.apply d w) ws) := rfl

theorem validAll_append (d : δ) (us ws : List ω) :
    S.validAll d (us ++ ws) = (S.validAll d us && S.validAll (S.applyAll d us) ws) := by
  induction us generalizing d with
  | nil => rfl
  | cons u us ih => simp [ih, Bool.and_assoc]

theorem mem_keysOf {ws : List ω} {k : κ} : k ∈ S.keysOf ws ↔ ∃ w ∈ ws, k ∈ S.keys w := by
  simp [KeyedRows.keysOf]

/-- Writes leave every slice they do not touch. -/
theorem slice_applyAll (ws : List ω) (d : δ) {k : κ} (hk : k ∉ S.keysOf ws) :
    S.slice (S.applyAll d ws) k = S.slice d k := by
  induction ws generalizing d with
  | nil => rfl
  | cons w ws ih =>
    simp only [mem_keysOf, List.mem_cons, exists_eq_or_imp, not_or] at hk ih
    rw [applyAll_cons, ih _ hk.2, S.slice_other d w k hk.1]

/-- Stores that agree on the rows of a write list agree on them afterwards,
and on every other row they agreed on. -/
theorem slice_applyAll_congr (ws : List ω) {d d' : δ} (K : κ → Prop)
    (hK : ∀ k, K k → S.slice d k = S.slice d' k) (hws : ∀ k ∈ S.keysOf ws, K k) :
    ∀ k, K k → S.slice (S.applyAll d ws) k = S.slice (S.applyAll d' ws) k := by
  induction ws generalizing d d' with
  | nil => exact hK
  | cons w ws ih =>
    simp only [mem_keysOf, List.mem_cons, exists_eq_or_imp, or_imp, forall_and] at hws
    refine ih (fun k hk => ?_) fun k hk => hws.2 k ((mem_keysOf S).mp hk)
    by_cases hm : k ∈ S.keys w
    · exact S.slice_congr d d' w (fun k' hk' => hK k' (hws.1 k' hk')) k hm
    · rw [S.slice_other d w k hm, S.slice_other d' w k hm]
      exact hK k hk

/-- Validity of a write list depends only on the rows it touches. -/
theorem validAll_congr (ws : List ω) {d d' : δ}
    (h : ∀ k ∈ S.keysOf ws, S.slice d k = S.slice d' k) :
    S.validAll d ws = S.validAll d' ws := by
  induction ws generalizing d d' with
  | nil => rfl
  | cons w ws ih =>
    have hw : ∀ k ∈ S.keys w, S.slice d k = S.slice d' k := fun k hk =>
      h k ((mem_keysOf S).mpr ⟨w, by simp, hk⟩)
    have hone : ∀ k ∈ S.keysOf (w :: ws),
        S.slice (S.applyAll d [w]) k = S.slice (S.applyAll d' [w]) k :=
      slice_applyAll_congr S [w] (fun k => k ∈ S.keysOf (w :: ws)) h fun k hk => by
        obtain ⟨x, hx, hkx⟩ := (mem_keysOf S).mp hk
        obtain rfl : x = w := by simpa using hx
        exact (mem_keysOf S).mpr ⟨x, by simp, hkx⟩
    rw [validAll_cons, validAll_cons, S.valid_congr d d' w hw]
    congr 1
    refine ih fun k hk => hone k ?_
    obtain ⟨x, hx, hkx⟩ := (mem_keysOf S).mp hk
    exact (mem_keysOf S).mpr ⟨x, List.mem_cons_of_mem w hx, hkx⟩

/-- Writes that touch none of the rows of a list do not change its validity. -/
theorem validAll_apart {us ws : List ω} (d : δ) (h : S.Apart us ws) :
    S.validAll (S.applyAll d us) ws = S.validAll d ws :=
  validAll_congr S ws fun k hk => slice_applyAll S us d fun hu => h k hu hk

/-- A property kept by every valid write is kept by a valid list of them. -/
theorem applyAll_invariant {P : δ → Prop}
    (hstep : ∀ d w, P d → S.valid d w = true → P (S.apply d w)) {d : δ} {ws : List ω}
    (hd : P d) (hv : S.validAll d ws = true) : P (S.applyAll d ws) := by
  induction ws generalizing d with
  | nil => exact hd
  | cons w ws ih =>
    obtain ⟨hw, hrest⟩ := Bool.and_eq_true_iff.mp hv
    exact ih (hstep d w hd hw) hrest

/-- A property that no write of the list can change holds after the list. -/
theorem applyAll_stable {P : δ → Prop} {ws : List ω}
    (hstep : ∀ d w, w ∈ ws → P d → P (S.apply d w)) {d : δ} (hd : P d) :
    P (S.applyAll d ws) := by
  induction ws generalizing d with
  | nil => exact hd
  | cons w ws ih =>
    exact ih (fun d' w' hw' => hstep d' w' (List.mem_cons_of_mem w hw'))
      (hstep d w (by simp) hd)

section Table

variable {ρ : Type} [DecidableEq κ]

/-- The rows of a table stored under a key. -/
def rowsAt (key : ρ → κ) (k : κ) (rows : List ρ) : List ρ := rows.filter fun r => key r = k

/-- The table after the rows under a key are changed. -/
def updateAt (key : ρ → κ) (k : κ) (f : ρ → ρ) (rows : List ρ) : List ρ :=
  rows.map fun r => if key r = k then f r else r

@[simp] theorem mem_rowsAt {key : ρ → κ} {k : κ} {rows : List ρ} {r : ρ} :
    r ∈ rowsAt key k rows ↔ r ∈ rows ∧ key r = k := by simp [rowsAt]

theorem rowsAt_insert_other {key : ρ → κ} {k : κ} (rows : List ρ) {r : ρ} (h : key r ≠ k) :
    rowsAt key k (rows ++ [r]) = rowsAt key k rows := by
  simp [rowsAt, h]

theorem rowsAt_insert {key : ρ → κ} (rows : List ρ) (r : ρ) (k : κ) :
    rowsAt key k (rows ++ [r]) = rowsAt key k rows ++ rowsAt key k [r] := by
  simp [rowsAt]

theorem rowsAt_updateAt_other {key : ρ → κ} {k k' : κ} {f : ρ → ρ} (rows : List ρ)
    (hf : ∀ r, key (f r) = key r) (h : k ≠ k') :
    rowsAt key k' (updateAt key k f rows) = rowsAt key k' rows := by
  induction rows with
  | nil => rfl
  | cons r rows ih =>
    simp only [rowsAt, updateAt, List.map_cons, List.filter_cons] at ih ⊢
    by_cases hr : key r = k
    · have hne : key r ≠ k' := fun he => h (hr.symm.trans he)
      simp [hr, hf, h, ih]
    · simp [hr, ih]

theorem rowsAt_updateAt_self {key : ρ → κ} {k : κ} {f : ρ → ρ} (rows : List ρ)
    (hf : ∀ r, key (f r) = key r) :
    rowsAt key k (updateAt key k f rows) = (rowsAt key k rows).map f := by
  induction rows with
  | nil => rfl
  | cons r rows ih =>
    simp only [rowsAt, updateAt, List.map_cons, List.filter_cons] at ih ⊢
    by_cases hr : key r = k
    · simp [hr, hf, ih]
    · simp [hr, ih]

/-- Changing the rows under a key only looks at those rows. -/
theorem updateAt_congr {key : ρ → κ} {k : κ} {f : ρ → ρ} {rows rows' : List ρ}
    (hf : ∀ r, key (f r) = key r) (h : rowsAt key k rows = rowsAt key k rows') :
    rowsAt key k (updateAt key k f rows) = rowsAt key k (updateAt key k f rows') := by
  rw [rowsAt_updateAt_self rows hf, rowsAt_updateAt_self rows' hf, h]

theorem mem_updateAt {key : ρ → κ} {k : κ} {f : ρ → ρ} {rows : List ρ} {r : ρ} :
    r ∈ updateAt key k f rows ↔
      ∃ r₀ ∈ rows, (key r₀ = k ∧ r = f r₀) ∨ (key r₀ ≠ k ∧ r = r₀) := by
  simp only [updateAt, List.mem_map]
  refine exists_congr fun r₀ => and_congr_right fun _ => ?_
  by_cases hk : key r₀ = k
  · simp [hk, eq_comm]
  · simp [hk, eq_comm]

/-- A row keeps every part that the change keeps. -/
theorem updateAt_keeps {θ : Type} {key : ρ → κ} {k : κ} {f : ρ → ρ} (part : ρ → θ)
    (hf : ∀ r, part (f r) = part r) (rows : List ρ) :
    (updateAt key k f rows).map part = rows.map part := by
  simp only [updateAt, List.map_map]
  refine List.map_congr_left fun r _ => ?_
  by_cases hk : key r = k <;> simp [hk, hf]

/-- A key that no row has yet stays unique. -/
theorem nodup_insert {ρ : Type} {key : ρ → κ} {rows : List ρ} {row : ρ}
    (h : (rows.map key).Nodup) (hnew : (rowsAt key (key row) rows).isEmpty = true) :
    ((rows ++ [row]).map key).Nodup := by
  rw [List.map_append, List.nodup_append]
  refine ⟨h, by simp, ?_⟩
  intro a ha b hb hab
  obtain ⟨r, hr, rfl⟩ := List.mem_map.mp ha
  obtain rfl : b = key row := by simpa using hb
  have hmem : r ∈ rowsAt key (key row) rows := mem_rowsAt.mpr ⟨hr, hab⟩
  simp [List.isEmpty_iff.mp hnew] at hmem

/-- The owner of the row under a unique key. -/
theorem any_owner {ρ θ : Type} [DecidableEq θ] {key : ρ → κ} {owner : ρ → θ} {rows : List ρ}
    (h : (rows.map key).Nodup) {r : ρ} (hr : r ∈ rows) (b : θ) :
    (rows.any fun x => key x = key r ∧ owner x = b) = decide (owner r = b) := by
  rw [Bool.eq_iff_iff, List.any_eq_true, decide_eq_true_eq]
  constructor
  · rintro ⟨x, hx, hsame⟩
    obtain ⟨hkey, hb⟩ := of_decide_eq_true hsame
    rw [← List.inj_on_of_nodup_map h hx hr hkey]
    exact hb
  · exact fun hb => ⟨r, hr, decide_eq_true ⟨rfl, hb⟩⟩

/-- Only the row under a unique key is found there. -/
theorem filter_owner {ρ θ : Type} [DecidableEq θ] {key : ρ → κ} {owner : ρ → θ} {rows : List ρ}
    (h : (rows.map key).Nodup) {r : ρ} (hr : r ∈ rows) (b : θ) :
    (rows.filter fun x => key x = key r ∧ owner x = b) = if owner r = b then [r] else [] := by
  induction rows with
  | nil => simp at hr
  | cons x rows ih =>
    rw [List.map_cons, List.nodup_cons] at h
    have hother : ∀ y ∈ rows, key y ≠ key x := fun y hy hsame => h.1 (hsame ▸ List.mem_map_of_mem hy)
    rcases List.mem_cons.mp hr with rfl | hr
    · have hnone : rows.filter (fun y => decide (key y = key r ∧ owner y = b)) = [] :=
        List.filter_eq_nil_iff.mpr fun y hy => by simp [hother y hy]
      rw [List.filter_cons, hnone]
      by_cases hb : owner r = b <;> simp [hb]
    · have hne : key x ≠ key r := fun hsame => hother r hr hsame.symm
      rw [List.filter_cons, ih h.2 hr]
      simp [hne]

end Table

end LpPlatform.RowStore
