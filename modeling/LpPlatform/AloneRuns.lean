import LpPlatform.SessionTrails

/-!
# Runs alone and what they leave

A run of a program alone, with what it leaves for the code after it: the store,
the inputs not drawn yet and the writes of an open transaction. A run of a
sequence of programs is a run of the first and then of the second, and a run
with a handler is a run and then, after an exception, one of the handler.
-/

namespace LpPlatform.AloneRuns

open RowStore SessionTrails StatementProgram StatementWrites

variable {δ ω κ ι ε α β : Type}

/-- What a program that runs alone starts from, and what it leaves. -/
structure Rest (δ ω ι : Type) where
  db : δ
  /-- The inputs not drawn yet. -/
  inputs : List ι
  /-- The next identity value. -/
  seq : ℕ
  /-- The writes of the open transaction. -/
  txn : Option (List ω)

variable (S : KeyedRows δ ω κ)

/-- The rows that a statement reads. -/
def Rest.own (s : Rest δ ω ι) : δ := S.applyAll s.db (s.txn.getD [])

/-- The view of a statement that runs alone. -/
def Rest.view (s : Rest δ ω ι) : View δ := ⟨s.db, s.own S, s.seq, 0, fun t => t = 0⟩

/-- What a statement leaves. -/
def Rest.write (s : Rest δ ω ι) (is : List ι) (ws : List ω) : Rest δ ω ι :=
  match s.txn with
  | none => ⟨S.applyAll s.db ws, is, s.seq + ws.length, none⟩
  | some held => ⟨s.db, is, s.seq + ws.length, some (held ++ ws)⟩

/-- Run a program alone, and keep what it leaves. -/
def alone (p : Prog δ ω ι ε α) (s : Rest δ ω ι) : Option (Except ε α × Rest δ ω ι) :=
  match p with
  | .done a => some (.ok a, s)
  | .throw e => some (.error e, s)
  | .begin _ k _ =>
    match s.txn with
    | none => alone k { s with txn := some [] }
    | some _ => none
  | .stmt ws k _ =>
    match s.inputs with
    | [] => none
    | i :: is =>
      if S.validAll (s.own S) (ws (s.view S) i) then
        alone (k (s.view S) i) (s.write S is (ws (s.view S) i))
      else none
  | .commit k _ =>
    alone k ⟨s.own S, s.inputs, s.seq + (s.txn.getD []).length, none⟩
  | .rollback k => alone k { s with txn := none }

variable {S}

/-- A run alone is a run that keeps nothing. -/
theorem solo_eq (p : Prog δ ω ι ε α) (s : Rest δ ω ι) :
    p.solo S s.inputs s.db s.seq s.txn = (alone S p s).map fun x => (x.1, x.2.db, x.2.seq) := by
  induction p generalizing s with
  | done a => rfl
  | throw e => rfl
  | begin ser k err ihk ihe =>
    obtain ⟨d, is, n, txn⟩ := s
    cases txn with
    | none => exact ihk ⟨d, is, n, some []⟩
    | some held => rfl
  | stmt ws k err ihk ihe =>
    obtain ⟨d, inputs, n, txn⟩ := s
    cases inputs with
    | nil => rfl
    | cons i is =>
      generalize hs : (⟨d, i :: is, n, txn⟩ : Rest δ ω ι) = s
      by_cases hvalid : S.validAll (s.own S) (ws (s.view S) i) = true
      · have halone : alone S (.stmt ws k err) s = alone S (k (s.view S) i) (s.write S is (ws (s.view S) i)) := by
          subst hs
          exact if_pos hvalid
        rw [halone, ← ihk]
        subst hs
        cases txn <;> exact if_pos hvalid
      · have halone : alone S (.stmt ws k err) s = none := by
          subst hs
          exact if_neg hvalid
        rw [halone]
        subst hs
        exact if_neg hvalid
  | commit k err ihk ihe => exact ihk ⟨s.own S, s.inputs, s.seq + (s.txn.getD []).length, none⟩
  | rollback k ihk => exact ihk { s with txn := none }

/-- A run of one program and then of another. -/
theorem alone_bind (p : Prog δ ω ι ε α) (f : α → Prog δ ω ι ε β) (s : Rest δ ω ι) :
    alone S (p.bind f) s = (alone S p s).bind fun x =>
      match x.1 with
      | .ok a => alone S (f a) x.2
      | .error e => some (.error e, x.2) := by
  induction p generalizing s with
  | done a => rfl
  | throw e => rfl
  | begin ser k err ihk ihe =>
    obtain ⟨d, is, n, txn⟩ := s
    cases txn with
    | none => exact ihk _
    | some held => rfl
  | stmt ws k err ihk ihe =>
    obtain ⟨d, inputs, n, txn⟩ := s
    cases inputs with
    | nil => rfl
    | cons i is =>
      simp only [Prog.bind, alone]
      split
      · exact ihk _ _ _
      · rfl
  | commit k err ihk ihe => exact ihk _
  | rollback k ihk => exact ihk _

/-- A run of a program with a handler. -/
theorem alone_tryCatch (p : Prog δ ω ι ε α) (h : ε → Prog δ ω ι ε α) (s : Rest δ ω ι) :
    alone S (p.tryCatch h) s = (alone S p s).bind fun x =>
      match x.1 with
      | .ok a => some (.ok a, x.2)
      | .error e => alone S (h e) x.2 := by
  induction p generalizing s with
  | done a => rfl
  | throw e => rfl
  | begin ser k err ihk ihe =>
    obtain ⟨d, is, n, txn⟩ := s
    cases txn with
    | none => exact ihk _
    | some held => rfl
  | stmt ws k err ihk ihe =>
    obtain ⟨d, inputs, n, txn⟩ := s
    cases inputs with
    | nil => rfl
    | cons i is =>
      simp only [Prog.tryCatch, alone]
      split
      · exact ihk _ _ _
      · rfl
  | commit k err ihk ihe => exact ihk _
  | rollback k ihk => exact ihk _

/-- A program and the code that uses its result: the code has run with what
the program left, or the program has thrown. -/
theorem bind_inv {p : Prog δ ω ι ε α} {f : α → Prog δ ω ι ε β} {s s' : Rest δ ω ι} {r : Except ε β}
    (h : alone S (p.bind f) s = some (r, s')) :
    (∃ a mid, alone S p s = some (.ok a, mid) ∧ alone S (f a) mid = some (r, s')) ∨
      ∃ e, alone S p s = some (.error e, s') ∧ r = .error e := by
  rw [alone_bind] at h
  obtain ⟨⟨r₁, mid⟩, hp, h⟩ := Option.bind_eq_some_iff.mp h
  cases r₁ with
  | ok a => exact Or.inl ⟨a, mid, hp, h⟩
  | error e =>
    obtain ⟨rfl, rfl⟩ := Prod.mk.inj (Option.some.inj h)
    exact Or.inr ⟨e, hp, rfl⟩

/-- A program with a handler: it has returned, or the handler has run with what
it left. -/
theorem tryCatch_inv {p : Prog δ ω ι ε α} {g : ε → Prog δ ω ι ε α} {s s' : Rest δ ω ι} {r : Except ε α}
    (h : alone S (p.tryCatch g) s = some (r, s')) :
    (∃ a, alone S p s = some (.ok a, s') ∧ r = .ok a) ∨
      ∃ e mid, alone S p s = some (.error e, mid) ∧ alone S (g e) mid = some (r, s') := by
  rw [alone_tryCatch] at h
  obtain ⟨⟨r₁, mid⟩, hp, h⟩ := Option.bind_eq_some_iff.mp h
  cases r₁ with
  | ok a =>
    obtain ⟨rfl, rfl⟩ := Prod.mk.inj (Option.some.inj h)
    exact Or.inl ⟨a, hp, rfl⟩
  | error e => exact Or.inr ⟨e, mid, hp, h⟩

theorem alone_query {f : View δ → ι → α} {s s' : Rest δ ω ι} {r : Except ε α}
    (h : alone S (query f : Prog δ ω ι ε α) s = some (r, s')) :
    ∃ i is, s.inputs = i :: is ∧ r = .ok (f (s.view S) i) ∧ s' = s.write S is [] := by
  cases hs : s.inputs with
  | nil => simp [alone, query, hs] at h
  | cons i is =>
    simp only [alone, query, hs, Option.ite_none_right_eq_some, Option.some.injEq,
      Prod.mk.injEq] at h
    exact ⟨i, is, rfl, h.2.1.symm, h.2.2.symm⟩

theorem alone_exec {ws : View δ → ι → List ω} {f : View δ → ι → α} {s s' : Rest δ ω ι}
    {r : Except ε α} (h : alone S (exec ws f : Prog δ ω ι ε α) s = some (r, s')) :
    ∃ i is, s.inputs = i :: is ∧ r = .ok (f (s.view S) i) ∧ s' = s.write S is (ws (s.view S) i) := by
  cases hs : s.inputs with
  | nil => simp [alone, exec, hs] at h
  | cons i is =>
    simp only [alone, exec, hs, Option.ite_none_right_eq_some, Option.some.injEq,
      Prod.mk.injEq] at h
    exact ⟨i, is, rfl, h.2.1.symm, h.2.2.symm⟩

/-- A query, and the code that uses what it found. -/
theorem query_bind_inv {f : View δ → ι → α} {g : α → Prog δ ω ι ε β} {s s' : Rest δ ω ι} {r : Except ε β}
    (h : alone S ((query f).bind g) s = some (r, s')) :
    ∃ i is, s.inputs = i :: is ∧ alone S (g (f (s.view S) i)) (s.write S is []) = some (r, s') := by
  rcases bind_inv h with ⟨a, mid, hquery, hrest⟩ | ⟨e, hquery, -⟩
  · obtain ⟨i, is, his, ha, rfl⟩ := alone_query hquery
    obtain rfl := Except.ok.inj ha
    exact ⟨i, is, his, hrest⟩
  · obtain ⟨i, is, -, he, -⟩ := alone_query hquery
    simp at he

/-- A statement that writes, and the code after it. -/
theorem exec_bind_inv {ws : View δ → ι → List ω} {f : View δ → ι → α} {g : α → Prog δ ω ι ε β}
    {s s' : Rest δ ω ι} {r : Except ε β} (h : alone S ((exec ws f).bind g) s = some (r, s')) :
    ∃ i is, s.inputs = i :: is ∧
      alone S (g (f (s.view S) i)) (s.write S is (ws (s.view S) i)) = some (r, s') := by
  rcases bind_inv h with ⟨a, mid, hexec, hrest⟩ | ⟨e, hexec, -⟩
  · obtain ⟨i, is, his, ha, rfl⟩ := alone_exec hexec
    obtain rfl := Except.ok.inj ha
    exact ⟨i, is, his, hrest⟩
  · obtain ⟨i, is, -, he, -⟩ := alone_exec hexec
    simp at he

/-- A query runs whatever is stored. -/
theorem query_bind_run (f : View δ → ι → α) (g : α → Prog δ ω ι ε β) {d : δ} {i : ι} {is : List ι} {n : ℕ}
    {txn : Option (List ω)} : alone S ((query f).bind g) ⟨d, i :: is, n, txn⟩ =
      alone S (g (f (Rest.view S (⟨d, i :: is, n, txn⟩ : Rest δ ω ι)) i)) ⟨d, is, n, txn⟩ := by
  cases txn with
  | none => rfl
  | some held => simp [alone, query, Prog.bind, Rest.write, KeyedRows.validAll]

/-- Inside a transaction, a program that opens none adds allowed writes. -/
theorem alone_emits {ok : ω → Prop} {p : Prog δ ω ι ε α} (hp : Emits ok p) {d : δ} {is : List ι}
    {n : ℕ} {held : List ω} {r : Except ε α} {s' : Rest δ ω ι}
    (h : alone S p ⟨d, is, n, some held⟩ = some (r, s')) :
    ∃ is' n' new, s' = ⟨d, is', n', some (held ++ new)⟩ ∧ ∀ x ∈ new, ok x := by
  obtain ⟨hauto, hwrites⟩ := hp
  induction p generalizing is n held with
  | done a =>
    obtain ⟨-, rfl⟩ := Prod.mk.inj (Option.some.inj h)
    exact ⟨is, n, [], by rw [List.append_nil], by simp⟩
  | throw e =>
    obtain ⟨-, rfl⟩ := Prod.mk.inj (Option.some.inj h)
    exact ⟨is, n, [], by rw [List.append_nil], by simp⟩
  | begin ser k err ihk ihe => exact hauto.elim
  | stmt ws k err ihk ihe =>
    cases is with
    | nil => simp [alone] at h
    | cons i is =>
      simp only [alone, Option.ite_none_right_eq_some] at h
      obtain ⟨hok, hrest⟩ := hwrites.1 _ i trivial
      obtain ⟨is', n', new, rfl, hnew⟩ := ihk _ i h.2 (hauto.1 _ i) hrest
      exact ⟨is', n', _, by rw [List.append_assoc], List.forall_mem_append.mpr ⟨hok, hnew⟩⟩
  | commit k err ihk ihe => exact hauto.elim
  | rollback k ihk => exact hauto.elim

end LpPlatform.AloneRuns
