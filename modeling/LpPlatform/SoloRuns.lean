import LpPlatform.SessionTrails

/-!
# Programs run alone inside a transaction

A program that opens no transaction is run inside one that is open already:
it draws its inputs, adds its writes to those the transaction holds and ends
with a result or an exception. What it leaves is what the code after it starts
from, so a run of a sequence of programs is a sequence of runs, and a run of a
transaction is a run of its body and then its end.
-/

namespace LpPlatform.SoloRuns

open RowStore SessionTrails StatementProgram

variable {δ ω κ ι ε α β : Type}

/-- What a transaction that runs alone goes on with. -/
structure Held (ω ι : Type) where
  /-- The inputs not drawn yet. -/
  inputs : List ι
  /-- The next identity value. -/
  seq : ℕ
  /-- The writes it holds. -/
  writes : List ω

/-- The view of a statement in a transaction that runs alone. -/
def Held.view (S : KeyedRows δ ω κ) (d : δ) (s : Held ω ι) : View δ :=
  ⟨d, S.applyAll d s.writes, s.seq, 0, fun t => t = 0⟩

/-- Run a program inside an open transaction. -/
def within (S : KeyedRows δ ω κ) (p : Prog δ ω ι ε α) (d : δ) (s : Held ω ι) :
    Option (Except ε α × Held ω ι) :=
  match p with
  | .done a => some (.ok a, s)
  | .throw e => some (.error e, s)
  | .begin _ _ _ => none
  | .stmt ws k _ =>
    match s.inputs with
    | [] => none
    | i :: is =>
      let new := ws (s.view S d) i
      if S.validAll (S.applyAll d s.writes) new then
        within S (k (s.view S d) i) d ⟨is, s.seq + new.length, s.writes ++ new⟩
      else none
  | .commit _ _ => none
  | .rollback _ => none

variable {S : KeyedRows δ ω κ} {d : δ} {s s' : Held ω ι} {n n' : ℕ}

section Steps

theorem within_query {f : View δ → ι → α} {r : Except ε α}
    (h : within S (query f : Prog δ ω ι ε α) d s = some (r, s')) :
    ∃ i is, s.inputs = i :: is ∧ r = .ok (f (s.view S d) i) ∧ s' = ⟨is, s.seq, s.writes⟩ := by
  cases hs : s.inputs with
  | nil => simp [within, query, hs] at h
  | cons i is =>
    obtain ⟨rfl, rfl⟩ : Except.ok (f (s.view S d) i) = r ∧ ⟨is, s.seq, s.writes⟩ = s' := by
      simpa [within, query, hs] using h
    exact ⟨i, is, rfl, rfl, rfl⟩

theorem within_exec {ws : View δ → ι → List ω} {f : View δ → ι → α} {r : Except ε α}
    (h : within S (exec ws f : Prog δ ω ι ε α) d s = some (r, s')) :
    ∃ i is, s.inputs = i :: is ∧ r = .ok (f (s.view S d) i) ∧
      s' = ⟨is, s.seq + (ws (s.view S d) i).length, s.writes ++ ws (s.view S d) i⟩ := by
  cases hs : s.inputs with
  | nil => simp [within, exec, hs] at h
  | cons i is =>
    simp only [within, exec, hs, Option.ite_none_right_eq_some, Option.some.injEq,
      Prod.mk.injEq] at h
    exact ⟨i, is, rfl, h.2.1.symm, h.2.2.symm⟩

/-- A program and the code that uses its result: the code runs with what the
program leaves, or the program has thrown. -/
theorem within_bind {p : Prog δ ω ι ε α} {f : α → Prog δ ω ι ε β} {r : Except ε β}
    (h : within S (p.bind f) d s = some (r, s')) :
    (∃ a mid, within S p d s = some (.ok a, mid) ∧ within S (f a) d mid = some (r, s')) ∨
      ∃ e, within S p d s = some (.error e, s') ∧ r = .error e := by
  induction p generalizing s with
  | done a => exact Or.inl ⟨a, s, rfl, h⟩
  | throw e =>
    obtain ⟨rfl, rfl⟩ : Except.error e = r ∧ s = s' := by simpa [within, Prog.bind] using h
    exact Or.inr ⟨e, rfl, rfl⟩
  | begin ser k err ihk ihe => simp [within, Prog.bind] at h
  | stmt ws k err ihk ihe =>
    cases hs : s.inputs with
    | nil => simp [within, Prog.bind, hs] at h
    | cons i is =>
      simp only [within, Prog.bind, hs, Option.ite_none_right_eq_some] at h ⊢
      obtain ⟨hvalid, hrest⟩ := h
      simp only [hvalid, true_and]
      exact ihk _ _ hrest
  | commit k err ihk ihe => simp [within, Prog.bind] at h
  | rollback k ihk => simp [within, Prog.bind] at h

/-- A query, and the code that uses what it found. -/
theorem within_query_bind {f : View δ → ι → α} {g : α → Prog δ ω ι ε β} {r : Except ε β}
    (h : within S ((query f).bind g) d s = some (r, s')) :
    ∃ i is, s.inputs = i :: is ∧
      within S (g (f (s.view S d) i)) d ⟨is, s.seq, s.writes⟩ = some (r, s') := by
  rcases within_bind h with ⟨a, mid, hquery, hrest⟩ | ⟨e, hquery, -⟩
  · obtain ⟨i, is, his, ha, rfl⟩ := within_query hquery
    obtain rfl := Except.ok.inj ha
    exact ⟨i, is, his, hrest⟩
  · obtain ⟨i, is, -, he, -⟩ := within_query hquery
    simp at he

/-- A statement that writes, and the code after it. -/
theorem within_exec_bind {ws : View δ → ι → List ω} {f : View δ → ι → α} {g : α → Prog δ ω ι ε β}
    {r : Except ε β} (h : within S ((exec ws f).bind g) d s = some (r, s')) :
    ∃ i is, s.inputs = i :: is ∧
      within S (g (f (s.view S d) i)) d ⟨is, s.seq + (ws (s.view S d) i).length,
        s.writes ++ ws (s.view S d) i⟩ = some (r, s') := by
  rcases within_bind h with ⟨a, mid, hexec, hrest⟩ | ⟨e, hexec, -⟩
  · obtain ⟨i, is, his, ha, rfl⟩ := within_exec hexec
    obtain rfl := Except.ok.inj ha
    exact ⟨i, is, his, hrest⟩
  · obtain ⟨i, is, -, he, -⟩ := within_exec hexec
    simp at he

/-- A program whose result is only transformed. -/
theorem within_map {p : Prog δ ω ι ε α} {g : α → β} {r : Except ε β}
    (h : within S (p.bind fun a => .done (g a)) d s = some (r, s')) :
    ∃ r₀, within S p d s = some (r₀, s') ∧ r = r₀.map g := by
  rcases within_bind h with ⟨a, mid, hp, hdone⟩ | ⟨e, hp, rfl⟩
  · obtain ⟨rfl, rfl⟩ := Prod.mk.inj (Option.some.inj hdone)
    exact ⟨.ok a, hp, rfl⟩
  · exact ⟨.error e, hp, rfl⟩

/-- A program with a handler: it has returned, or the handler runs with what
it leaves. -/
theorem within_tryCatch {p : Prog δ ω ι ε α} {g : ε → Prog δ ω ι ε α} {r : Except ε α}
    (h : within S (p.tryCatch g) d s = some (r, s')) :
    (∃ a, within S p d s = some (.ok a, s') ∧ r = .ok a) ∨
      ∃ e mid, within S p d s = some (.error e, mid) ∧ within S (g e) d mid = some (r, s') := by
  induction p generalizing s with
  | done a =>
    obtain ⟨rfl, rfl⟩ := Prod.mk.inj (Option.some.inj h)
    exact Or.inl ⟨a, rfl, rfl⟩
  | throw e => exact Or.inr ⟨e, s, rfl, h⟩
  | begin ser k err ihk ihe => simp [within, Prog.tryCatch] at h
  | stmt ws k err ihk ihe =>
    cases hs : s.inputs with
    | nil => simp [within, Prog.tryCatch, hs] at h
    | cons i is =>
      simp only [within, Prog.tryCatch, hs, Option.ite_none_right_eq_some] at h ⊢
      obtain ⟨hvalid, hrest⟩ := h
      simp only [hvalid, true_and]
      exact ihk _ _ hrest
  | commit k err ihk ihe => simp [within, Prog.tryCatch] at h
  | rollback k ihk => simp [within, Prog.tryCatch] at h

end Steps

/-- Inside a transaction a program runs alone, then the code that uses its
result or the handler of its exception. -/
theorem solo_bind_tryCatch {p : Prog δ ω ι ε α} {f : α → Prog δ ω ι ε β} {g : ε → Prog δ ω ι ε β}
    {r : Except ε β × δ × ℕ} (hauto : AutoCommits p)
    (h : ((p.bind f).tryCatch g).solo S s.inputs d s.seq (some s.writes) = some r) :
    ∃ mid, (∃ a, within S p d s = some (.ok a, mid) ∧
        ((f a).tryCatch g).solo S mid.inputs d mid.seq (some mid.writes) = some r) ∨
      ∃ e, within S p d s = some (.error e, mid) ∧
        (g e).solo S mid.inputs d mid.seq (some mid.writes) = some r := by
  induction p generalizing s with
  | done a => exact ⟨s, Or.inl ⟨a, rfl, h⟩⟩
  | throw e => exact ⟨s, Or.inr ⟨e, rfl, h⟩⟩
  | begin ser k err ihk ihe => exact hauto.elim
  | stmt ws k err ihk ihe =>
    obtain ⟨inputs, seq, writes⟩ := s
    cases inputs with
    | nil => simp [Prog.solo, Prog.bind, Prog.tryCatch] at h
    | cons i is =>
      simp only [Prog.solo, Prog.bind, Prog.tryCatch, Option.getD_some,
        Option.ite_none_right_eq_some] at h
      obtain ⟨hvalid, hrest⟩ := h
      have hnext := ihk _ i (s := ⟨is, _, _⟩) (hauto.1 _ i) hrest
      simpa [within, Held.view, hvalid] using hnext
  | commit k err ihk ihe => exact hauto.elim
  | rollback k ihk => exact hauto.elim

/-- A transaction run alone commits what its body wrote, or changes nothing. -/
theorem solo_transaction {p : Prog δ ω ι ε α} {is : List ι} {d' : δ} {r : Except ε α}
    (hauto : AutoCommits p)
    (h : (transaction false p).solo S is d n none = some (r, d', n')) :
    ∃ mid, within S p d ⟨is, n, []⟩ = some (r, mid) ∧
      ((∃ a, r = .ok a ∧ d' = S.applyAll d mid.writes) ∨ ∃ e, r = .error e ∧ d' = d) := by
  obtain ⟨mid, ⟨a, hin, hend⟩ | ⟨e, hin, hend⟩⟩ :=
    solo_bind_tryCatch (s := ⟨is, n, []⟩) hauto (show ((p.bind _).tryCatch _).solo S is d n (some []) =
      some (r, d', n') from h)
  · obtain ⟨rfl, rfl, -⟩ : Except.ok a = r ∧ S.applyAll d mid.writes = d' ∧ _ := by
      simpa [Prog.solo, Prog.tryCatch] using hend
    exact ⟨mid, hin, Or.inl ⟨a, rfl, rfl⟩⟩
  · obtain ⟨rfl, rfl, -⟩ : Except.error e = r ∧ d = d' ∧ _ := by simpa [Prog.solo] using hend
    exact ⟨mid, hin, Or.inr ⟨e, rfl, rfl⟩⟩

end LpPlatform.SoloRuns
