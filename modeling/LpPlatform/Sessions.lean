import Mathlib.Logic.Function.Basic
import LpPlatform.StatementProgram

/-!
# Concurrent sessions over one store

Every session runs one program. Outside a transaction a statement takes
effect at once. Inside one its writes wait in the transaction, hold the locks
of their rows, and become visible to the others when the transaction commits.
A READ COMMITTED statement reads the latest committed rows under the session's
own writes, and a serializable one reads the snapshot its transaction opened
with. A serializable transaction that clashes with a write committed since its
snapshot cannot commit: only the store's error is left to it. The store may
also fail any statement, and a process may die between any two.
-/

namespace LpPlatform.Sessions

open RowStore StatementProgram

variable {δ ω κ ι ε α γ : Type}

/-- An open transaction. -/
structure Txn (δ ω : Type) where
  /-- Its writes so far, in order. -/
  writes : List ω
  /-- The store it was opened on, when it is serializable. -/
  snapshot : Option δ
  /-- What the others have committed since it was opened. -/
  since : List ω
  /-- A statement of it has failed, so nothing but its end is accepted. -/
  aborted : Bool

/-- The transaction after one of its statements failed. -/
def Txn.abort (T : Txn δ ω) : Txn δ ω := { T with aborted := true }

/-- The transaction after one more statement. -/
def Txn.add (T : Txn δ ω) (ws : List ω) : Txn δ ω := { T with writes := T.writes ++ ws }

@[simp] theorem add_nil (T : Txn δ ω) : T.add [] = T := by simp [Txn.add]

@[simp] theorem add_add (T : Txn δ ω) (us ws : List ω) : (T.add us).add ws = T.add (us ++ ws) := by
  simp [Txn.add]

@[simp] theorem add_writes (T : Txn δ ω) (ws : List ω) : (T.add ws).writes = T.writes ++ ws := rfl

@[simp] theorem add_snapshot (T : Txn δ ω) (ws : List ω) : (T.add ws).snapshot = T.snapshot := rfl

/-- A transaction opened on a store. -/
def Txn.opened (serializable : Bool) (d : δ) : Txn δ ω :=
  ⟨[], if serializable then some d else none, [], false⟩

/-- One running program and its open transaction, if any. -/
structure Session (δ ω ι ε α : Type) where
  /-- What is left to run. -/
  prog : Prog δ ω ι ε α
  /-- The open transaction. -/
  txn : Option (Txn δ ω)
  /-- The process that runs it has not died. -/
  alive : Bool

/-- The committed store, its sequence, the row locks and the sessions. -/
structure World (δ ω κ ι ε α : Type) where
  /-- Committed rows. -/
  db : δ
  /-- The next identity value, drawn when a statement runs. -/
  seq : ℕ
  /-- The session that holds the lock of a row. -/
  locks : κ → Option ℕ
  /-- Every session ever started. -/
  sessions : ℕ → Option (Session δ ω ι ε α)

/-- What can happen next. -/
inductive Event (γ ι ε : Type) where
  /-- A new session starts a call. -/
  | start (t : ℕ) (call : γ)
  /-- A session runs its next statement. -/
  | step (t : ℕ) (input : ι)
  /-- The next statement of a session fails. -/
  | fail (t : ℕ) (error : ε)
  /-- The process that runs a session dies. -/
  | crash (t : ℕ)

/-- The world before any session has started. -/
def World.initial (d : δ) (seq : ℕ) : World δ ω κ ι ε α := ⟨d, seq, fun _ => none, fun _ => none⟩

/-- Replace a session. -/
def World.put (w : World δ ω κ ι ε α) (t : ℕ) (ses : Session δ ω ι ε α) : World δ ω κ ι ε α :=
  { w with sessions := Function.update w.sessions t (some ses) }

/-- The session exists and its process runs. -/
def World.alive (w : World δ ω κ ι ε α) (t : ℕ) : Bool :=
  match w.sessions t with
  | none => false
  | some ses => ses.alive

variable (S : KeyedRows δ ω κ)

/-- The rows a transaction reads. -/
def Txn.own (T : Txn δ ω) (d : δ) : δ := S.applyAll (T.snapshot.getD d) T.writes

/-- The view of a session's next statement. -/
def World.view (w : World δ ω κ ι ε α) (t : ℕ) (txn : Option (Txn δ ω)) : View δ :=
  ⟨w.db, match txn with | none => w.db | some T => T.own S w.db, w.seq, t, w.alive⟩

/-- Remember what another session committed. -/
def Session.note (ws : List ω) (ses : Session δ ω ι ε α) : Session δ ω ι ε α :=
  { ses with txn := ses.txn.map fun T => { T with since := T.since ++ ws } }

/-- Make writes visible to every session. -/
def World.publish (w : World δ ω κ ι ε α) (ws : List ω) : World δ ω κ ι ε α :=
  { w with
    db := S.applyAll w.db ws
    seq := w.seq + ws.length
    sessions := fun u => (w.sessions u).map (Session.note ws) }

/-- A serializable transaction holds a write that clashes with one committed
since its snapshot. -/
def Txn.clashes (T : Txn δ ω) : Bool :=
  T.snapshot.isSome && T.since.any fun a => T.writes.any fun b => S.clash a b

@[simp] theorem put_db (w : World δ ω κ ι ε α) (t : ℕ) (ses : Session δ ω ι ε α) :
    (w.put t ses).db = w.db := rfl

@[simp] theorem put_seq (w : World δ ω κ ι ε α) (t : ℕ) (ses : Session δ ω ι ε α) :
    (w.put t ses).seq = w.seq := rfl

@[simp] theorem put_locks (w : World δ ω κ ι ε α) (t : ℕ) (ses : Session δ ω ι ε α) :
    (w.put t ses).locks = w.locks := rfl

@[simp] theorem put_sessions (w : World δ ω κ ι ε α) (t : ℕ) (ses : Session δ ω ι ε α) :
    (w.put t ses).sessions = Function.update w.sessions t (some ses) := rfl

@[simp] theorem publish_db (w : World δ ω κ ι ε α) (ws : List ω) :
    (w.publish S ws).db = S.applyAll w.db ws := rfl

@[simp] theorem publish_seq (w : World δ ω κ ι ε α) (ws : List ω) :
    (w.publish S ws).seq = w.seq + ws.length := rfl

@[simp] theorem publish_locks (w : World δ ω κ ι ε α) (ws : List ω) :
    (w.publish S ws).locks = w.locks := rfl

@[simp] theorem publish_sessions (w : World δ ω κ ι ε α) (ws : List ω) (u : ℕ) :
    (w.publish S ws).sessions u = (w.sessions u).map (Session.note ws) := rfl

/-- Give up every lock of a session. -/
def World.release (w : World δ ω κ ι ε α) (t : ℕ) : World δ ω κ ι ε α :=
  { w with locks := fun k => if w.locks k = some t then none else w.locks k }

@[simp] theorem release_db (w : World δ ω κ ι ε α) (t : ℕ) : (w.release t).db = w.db := rfl

@[simp] theorem release_seq (w : World δ ω κ ι ε α) (t : ℕ) : (w.release t).seq = w.seq := rfl

@[simp] theorem release_sessions (w : World δ ω κ ι ε α) (t : ℕ) :
    (w.release t).sessions = w.sessions := rfl

/-- Fail the next statement of a session. A failed commit ends its
transaction, any other failed statement leaves it aborted. -/
def World.raise (w : World δ ω κ ι ε α) (t : ℕ) (ses : Session δ ω ι ε α) (e : ε) :
    Option (World δ ω κ ι ε α) :=
  match ses.prog with
  | .begin _ _ err => some (w.put t { ses with prog := err e })
  | .stmt _ _ err => some (w.put t { ses with prog := err e, txn := ses.txn.map Txn.abort })
  | .commit _ err => some ((w.release t).put t { ses with prog := err e, txn := none })
  | _ => none

/-- What failing the next statement of a session can do, case by case. -/
inductive Raise (w : World δ ω κ ι ε α) (t : ℕ) (e : ε) :
    Session δ ω ι ε α → World δ ω κ ι ε α → Prop where
  | begin {ser k err txn a} : Raise w t e ⟨.begin ser k err, txn, a⟩ (w.put t ⟨err e, txn, a⟩)
  | stmt {ws k err txn a} :
    Raise w t e ⟨.stmt ws k err, txn, a⟩ (w.put t ⟨err e, txn.map Txn.abort, a⟩)
  | commit {k err txn a} :
    Raise w t e ⟨.commit k err, txn, a⟩ ((w.release t).put t ⟨err e, none, a⟩)

theorem raise_cases {w w' : World δ ω κ ι ε α} {t : ℕ} {ses : Session δ ω ι ε α} {e : ε}
    (h : w.raise t ses e = some w') : Raise w t e ses w' := by
  obtain ⟨prog, txn, a⟩ := ses
  cases prog with
  | done result => simp [World.raise] at h
  | throw error => simp [World.raise] at h
  | begin ser k err =>
    obtain rfl := Option.some.inj h
    exact .begin
  | stmt ws k err =>
    obtain rfl := Option.some.inj h
    exact .stmt
  | commit k err =>
    obtain rfl := Option.some.inj h
    exact .commit
  | rollback k => simp [World.raise] at h

variable [DecidableEq κ]

/-- Take the locks of some rows. -/
def World.acquire (w : World δ ω κ ι ε α) (t : ℕ) (ks : List κ) : World δ ω κ ι ε α :=
  { w with locks := fun k => if k ∈ ks then some t else w.locks k }

/-- No other session holds a lock on these rows. -/
def World.free (w : World δ ω κ ι ε α) (t : ℕ) (ks : List κ) : Bool :=
  ks.all fun k => w.locks k = none ∨ w.locks k = some t

/-- Run the next statement of a session. -/
def World.advance (w : World δ ω κ ι ε α) (t : ℕ) (ses : Session δ ω ι ε α) (i : ι) :
    Option (World δ ω κ ι ε α) :=
  match ses.prog, ses.txn with
  | .done _, _ => none
  | .throw _, _ => none
  | .begin ser k _, none => some (w.put t { ses with prog := k, txn := some (.opened ser w.db) })
  | .begin _ _ _, some _ => none
  | .stmt ws k _, none =>
    let v := w.view S t none
    if S.validAll w.db (ws v i) && w.free t (S.keysOf (ws v i)) then
      some ((w.publish S (ws v i)).put t { ses with prog := k v i })
    else none
  | .stmt ws k _, some T =>
    let v := w.view S t (some T)
    if !T.aborted && (S.validAll (S.applyAll w.db T.writes) (ws v i) &&
        w.free t (S.keysOf (ws v i))) then
      some (({ w.acquire t (S.keysOf (ws v i)) with seq := w.seq + (ws v i).length }).put t
        { ses with prog := k v i, txn := some (T.add (ws v i)) })
    else none
  | .commit k _, none => some (w.put t { ses with prog := k })
  | .commit k _, some T =>
    if T.aborted then some ((w.release t).put t { ses with prog := k, txn := none })
    else if T.clashes S then none
    else some (((w.release t).publish S T.writes).put t { ses with prog := k, txn := none })
  | .rollback k, _ => some ((w.release t).put t { ses with prog := k, txn := none })

/-- One event of the world, when it is enabled. -/
def World.step (program : γ → Prog δ ω ι ε α) (w : World δ ω κ ι ε α) :
    Event γ ι ε → Option (World δ ω κ ι ε α)
  | .start t call =>
    match w.sessions t with
    | none => some (w.put t ⟨program call, none, true⟩)
    | some _ => none
  | .step t i =>
    match w.sessions t with
    | none => none
    | some ses => if ses.alive then w.advance S t ses i else none
  | .fail t e =>
    match w.sessions t with
    | none => none
    | some ses => if ses.alive then w.raise t ses e else none
  | .crash t =>
    match w.sessions t with
    | none => none
    | some ses =>
      if ses.alive then some ((w.release t).put t { ses with txn := none, alive := false })
      else none

/-- The writes that running its next statement makes a session commit. -/
def World.commits (w : World δ ω κ ι ε α) (t : ℕ) (ses : Session δ ω ι ε α) (i : ι) : List ω :=
  match ses.prog, ses.txn with
  | .stmt ws _ _, none => ws (w.view S t none) i
  | .commit _ _, some T => if T.aborted then [] else T.writes
  | _, _ => []

/-- The session and the writes it commits, when the event commits any. -/
def World.commit? (w : World δ ω κ ι ε α) : Event γ ι ε → Option (ℕ × List ω)
  | .step t i =>
    match w.sessions t with
    | none => none
    | some ses => if w.commits S t ses i = [] then none else some (t, w.commits S t ses i)
  | _ => none

/-- Every write that the event commits passes a check. -/
def World.commitsAll (w : World δ ω κ ι ε α) (e : Event γ ι ε) (check : ω → Bool) : Bool :=
  match w.commit? S e with
  | none => true
  | some (_, ws) => ws.all check

@[simp] theorem acquire_db (w : World δ ω κ ι ε α) (t : ℕ) (ks : List κ) :
    (w.acquire t ks).db = w.db := rfl

@[simp] theorem acquire_sessions (w : World δ ω κ ι ε α) (t : ℕ) (ks : List κ) :
    (w.acquire t ks).sessions = w.sessions := rfl

/-- What running the next statement of a session can do, case by case. -/
inductive Advance (w : World δ ω κ ι ε α) (t : ℕ) (i : ι) :
    Session δ ω ι ε α → World δ ω κ ι ε α → Prop where
  | opened {ser k err a} :
    Advance w t i ⟨.begin ser k err, none, a⟩ (w.put t ⟨k, some (.opened ser w.db), a⟩)
  | auto {ws k err a} (hvalid : S.validAll w.db (ws (w.view S t none) i) = true)
      (hfree : w.free t (S.keysOf (ws (w.view S t none) i)) = true) :
    Advance w t i ⟨.stmt ws k err, none, a⟩
      ((w.publish S (ws (w.view S t none) i)).put t ⟨k (w.view S t none) i, none, a⟩)
  | held {ws k err T a} (halive : T.aborted = false)
      (hvalid : S.validAll (S.applyAll w.db T.writes) (ws (w.view S t (some T)) i) = true)
      (hfree : w.free t (S.keysOf (ws (w.view S t (some T)) i)) = true) :
    Advance w t i ⟨.stmt ws k err, some T, a⟩
      (({ w.acquire t (S.keysOf (ws (w.view S t (some T)) i)) with
          seq := w.seq + (ws (w.view S t (some T)) i).length }).put t
        ⟨k (w.view S t (some T)) i, some (T.add (ws (w.view S t (some T)) i)), a⟩)
  | idle {k err a} : Advance w t i ⟨.commit k err, none, a⟩ (w.put t ⟨k, none, a⟩)
  | ended {k err T a} (habort : T.aborted = true) :
    Advance w t i ⟨.commit k err, some T, a⟩ ((w.release t).put t ⟨k, none, a⟩)
  | committed {k err T a} (halive : T.aborted = false) (hclash : T.clashes S = false) :
    Advance w t i ⟨.commit k err, some T, a⟩
      (((w.release t).publish S T.writes).put t ⟨k, none, a⟩)
  | rolledBack {k txn a} :
    Advance w t i ⟨.rollback k, txn, a⟩ ((w.release t).put t ⟨k, none, a⟩)

theorem advance_cases {w w' : World δ ω κ ι ε α} {t : ℕ} {ses : Session δ ω ι ε α} {i : ι}
    (h : w.advance S t ses i = some w') : Advance S w t i ses w' := by
  obtain ⟨prog, txn, a⟩ := ses
  cases prog with
  | done result => cases txn <;> simp [World.advance] at h
  | throw error => cases txn <;> simp [World.advance] at h
  | begin ser k err =>
    cases txn with
    | none =>
      obtain rfl := Option.some.inj h
      exact .opened
    | some T => simp [World.advance] at h
  | stmt ws k err =>
    cases txn with
    | none =>
      simp only [World.advance, Option.ite_none_right_eq_some, Bool.and_eq_true,
        Option.some.injEq] at h
      obtain ⟨⟨hvalid, hfree⟩, rfl⟩ := h
      exact .auto hvalid hfree
    | some T =>
      simp only [World.advance, Option.ite_none_right_eq_some, Bool.and_eq_true,
        Bool.not_eq_true', Option.some.injEq] at h
      obtain ⟨⟨halive, hvalid, hfree⟩, rfl⟩ := h
      exact .held halive hvalid hfree
  | commit k err =>
    cases txn with
    | none =>
      obtain rfl := Option.some.inj h
      exact .idle
    | some T =>
      simp only [World.advance] at h
      split at h
      · rename_i habort
        obtain rfl := Option.some.inj h
        exact .ended habort
      · rename_i halive
        split at h
        · simp at h
        · rename_i hclash
          obtain rfl := Option.some.inj h
          exact .committed (by simpa using halive) (by simpa using hclash)
  | rollback k =>
    obtain rfl := Option.some.inj h
    exact .rolledBack

/-- Only the writes a statement commits change the committed rows. -/
theorem advance_db {w w' : World δ ω κ ι ε α} {t : ℕ} {ses : Session δ ω ι ε α} {i : ι}
    (h : w.advance S t ses i = some w') : w'.db = S.applyAll w.db (w.commits S t ses i) := by
  cases advance_cases S h with
  | opened => rfl
  | auto hvalid hfree => rfl
  | held halive hvalid hfree => rfl
  | idle => rfl
  | ended habort => simp [World.commits, habort]
  | committed halive hclash => simp [World.commits, halive]
  | rolledBack => rfl

/-- What one event can do: start a call, run or fail the next statement of a
running session, or kill its process. -/
inductive Step (program : γ → Prog δ ω ι ε α) (w : World δ ω κ ι ε α) :
    Event γ ι ε → World δ ω κ ι ε α → Prop where
  | start {t call} (hnew : w.sessions t = none) :
    Step program w (.start t call) (w.put t ⟨program call, none, true⟩)
  | step {t i ses w'} (hses : w.sessions t = some ses) (halive : ses.alive = true)
      (h : w.advance S t ses i = some w') : Step program w (.step t i) w'
  | fail {t e ses w'} (hses : w.sessions t = some ses) (halive : ses.alive = true)
      (h : w.raise t ses e = some w') : Step program w (.fail t e) w'
  | crash {t ses} (hses : w.sessions t = some ses) (halive : ses.alive = true) :
    Step program w (.crash t) ((w.release t).put t { ses with txn := none, alive := false })

theorem step_cases {program : γ → Prog δ ω ι ε α} {w w' : World δ ω κ ι ε α} {e : Event γ ι ε}
    (h : w.step S program e = some w') : Step S program w e w' := by
  cases e with
  | start t call =>
    cases hses : w.sessions t with
    | none =>
      obtain rfl : w.put t ⟨program call, none, true⟩ = w' := by simpa [World.step, hses] using h
      exact .start hses
    | some ses => simp [World.step, hses] at h
  | step t i =>
    cases hses : w.sessions t with
    | none => simp [World.step, hses] at h
    | some ses =>
      simp only [World.step, hses, Option.ite_none_right_eq_some] at h
      exact .step hses h.1 h.2
  | fail t e =>
    cases hses : w.sessions t with
    | none => simp [World.step, hses] at h
    | some ses =>
      simp only [World.step, hses, Option.ite_none_right_eq_some] at h
      exact .fail hses h.1 h.2
  | crash t =>
    cases hses : w.sessions t with
    | none => simp [World.step, hses] at h
    | some ses =>
      simp only [World.step, hses, Option.ite_none_right_eq_some, Option.some.injEq] at h
      obtain ⟨halive, rfl⟩ := h
      exact .crash hses halive

/-- Every step leaves the committed rows or applies the writes it commits. -/
theorem step_db {program : γ → Prog δ ω ι ε α} {w w' : World δ ω κ ι ε α} {e : Event γ ι ε}
    (h : w.step S program e = some w') :
    w'.db = match w.commit? S e with
      | none => w.db
      | some (_, ws) => S.applyAll w.db ws := by
  cases step_cases S h with
  | start hnew => rfl
  | @step t i ses _ hses halive h =>
    have hdb := advance_db S h
    simp only [World.commit?, hses]
    by_cases hc : w.commits S t ses i = []
    · simpa [hc] using hdb
    · simpa [hc] using hdb
  | fail hses halive h => cases raise_cases h <;> rfl
  | crash hses halive => rfl

end LpPlatform.Sessions
