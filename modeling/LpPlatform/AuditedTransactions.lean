import LpPlatform.PendingActions
import LpPlatform.SessionTrails

/-!
# Action and audit row together

The interceptor is the same over every store that keeps audit rows, and its
handler is any sequence of statements on the transaction it opens. Whatever
the handler does and whichever statement fails, the session commits nothing,
or what the handler wrote and one audit row of its success. The error of a
failed handler reaches the caller as long as the row of the failure is
accepted. A transaction that a failed statement has aborted accepts nothing.
-/

namespace LpPlatform.AuditedTransactions

open AuditInterceptor InterferenceLogic JsValues Ledger PendingActions RowStore SessionTrails Sessions
open StatementProgram StepRuns Tables WalletAdjust

variable {δ ω κ α β γ : Type}

/-- `AuditLogInterceptor.writeAudit` over a store with audit rows. -/
def insertAudit (row : AuditLog → ω) (ctx : AdminRequestContext) (a : AdminAudit) (outcome : Outcome) :
    Prog δ ω Input Failure Unit :=
  exec (fun v i => [row (auditRow ctx a outcome v.seq (i.id 0))]) fun _ _ => ()

/-- `AuditLogInterceptor.runInTx` over a store with audit rows. -/
def audited (row : AuditLog → ω) (ctx : AdminRequestContext) (config : AdminAudit)
    (handler : AdminAudit → Prog δ ω Input Failure (α × AdminAudit)) : Prog δ ω Input Failure α :=
  transaction false do
    let (result, audit) ← (handler config).tryCatch fun err => do
      insertAudit row ctx { config with metadata := config.metadata ++ [("error", errToObject err)] }
        .failure
      .throw err
    insertAudit row ctx audit .success
    return result

/-- The endpoints of the platform's tables are such transactions. -/
theorem runInTx_eq (ctx : AdminRequestContext) (config : AdminAudit)
    (handler : AdminAudit → Program (α × AdminAudit)) :
    runInTx ctx config handler = audited .insertAudit ctx config handler := rfl

/-- What is left of an audited transaction when p is left of its handler. -/
def body (row : AuditLog → ω) (ctx : AdminRequestContext) (config : AdminAudit) (respond : α → β)
    (p : Prog δ ω Input Failure (α × AdminAudit)) : Prog δ ω Input Failure β :=
  ((((p.tryCatch fun err =>
      (insertAudit row ctx { config with metadata := config.metadata ++ [("error", errToObject err)] }
        .failure).bind fun _ => .throw err).bind
    fun r => (insertAudit row ctx r.2 .success).bind fun _ => .done r.1).bind
    fun a => .commit (.done a) .throw).tryCatch fun e => .rollback (.throw e)).bind
    fun a => .done (respond a)

/-- An audited endpoint and the response that is made of its result. -/
def endpoint (row : AuditLog → ω) (ctx : AdminRequestContext) (config : AdminAudit) (respond : α → β)
    (handler : AdminAudit → Prog δ ω Input Failure (α × AdminAudit)) : Prog δ ω Input Failure β :=
  (audited row ctx config handler).bind fun a => .done (respond a)

section Body

variable (row : AuditLog → ω) (ctx : AdminRequestContext) (config : AdminAudit) (respond : α → β)

/-- A statement of the handler is a statement of the transaction. -/
theorem body_stmt (ws : View δ → Input → List ω)
    (k : View δ → Input → Prog δ ω Input Failure (α × AdminAudit))
    (err : Failure → Prog δ ω Input Failure (α × AdminAudit)) :
    body row ctx config respond (.stmt ws k err) =
      .stmt ws (fun v i => body row ctx config respond (k v i))
        fun e => body row ctx config respond (err e) := rfl

/-- The handler has returned: the row of its success is inserted and the
transaction committed. -/
theorem body_done (r : α) (audit : AdminAudit) :
    body row ctx config respond (.done (r, audit) : Prog δ ω Input Failure _) =
      .stmt (fun v i => [row (auditRow ctx audit .success v.seq (i.id 0))])
        (fun _ _ => .commit (.done (respond r)) fun e => .rollback (.throw e))
        fun e => .rollback (.throw e) := rfl

/-- The handler has failed: the row of the failure is inserted and the
transaction rolled back. -/
theorem body_throw (err : Failure) :
    body row ctx config respond (.throw err : Prog δ ω Input Failure (α × AdminAudit)) =
      .stmt (fun v i => [row (auditRow ctx { config with
          metadata := config.metadata ++ [("error", errToObject err)] } .failure v.seq (i.id 0))])
        (fun _ _ => .rollback (.throw err)) fun e => .rollback (.throw e) := rfl

end Body

/-- An audited transaction keeps a contract when its handler returns in the
open transaction and leaves it fit to be committed with its audit row. -/
theorem keeps_audited {S : KeyedRows δ ω κ} {C : Contract S} {t : ℕ} {d : δ} {n : ℕ}
    {row : AuditLog → ω} {ctx : AdminRequestContext} {config : AdminAudit}
    {handler : AdminAudit → Prog δ ω Input Failure (α × AdminAudit)}
    (h : ∀ d' n', C.Env t [] d n d' n' → C.inv d' n' →
      wp C t (handler config)
        (fun r txn d n => ∃ T, txn = some T ∧ T.aborted = false ∧ ∀ id auditId d' n' v,
          C.Env t (S.keysOf T.writes) d n d' n' → Sees S t (some (T.add [row (auditRow ctx r.2 .success
            id auditId)])) d' n' v → C.guar v (T.writes ++ [row (auditRow ctx r.2 .success id auditId)]))
        (fun _ txn _ _ => ∃ T, txn = some T) (some (.opened false d')) d' n') :
    C.Keeps t (audited row ctx config handler) none d n := by
  refine wp_transaction false _ (fun _ _ _ => trivial) fun d₁ n₁ henv₁ hinv₁ => ?_
  rw [bind_eq, wp_bind, wp_tryCatch]
  refine wp_mono _ ?_ ?_ (h d₁ n₁ henv₁ hinv₁)
  · rintro ⟨result, audit⟩ txn d₂ n₂ ⟨T, rfl, hrun, hready⟩
    simp only [bind_eq]
    rw [wp_bind]
    refine wp_exec (fun _ _ _ _ => trivial) fun v i d₃ n₃ henv₃ hinv₃ hv₃ hvalid₃ => ?_
    refine wp_commit hrun (fun _ _ _ => trivial) fun d₄ n₄ henv₄ hinv₄ hvalid₄ _ => ?_
    refine ⟨fun v' hv' => ?_, trivial⟩
    exact hready _ _ d₄ n₄ v' (env_trans (env_wait henv₃ _) (env_add henv₄)) hv'
  · rintro err txn d₂ n₂ ⟨T, rfl⟩
    rw [bind_eq, wp_bind]
    exact wp_exec (fun _ _ _ _ => trivial) fun _ _ _ _ _ _ _ _ => trivial

variable {S : KeyedRows δ ω κ} [DecidableEq κ]

/-- What a run has left of a handler, what its statements have written, and
whether one of them has failed. -/
inductive Handled (S : KeyedRows δ ω κ) [DecidableEq κ] (program : γ → Prog δ ω Input Failure β)
    (u : World δ ω κ Input Failure β) (es : List (Event γ Input Failure)) (t : ℕ)
    (p : Prog δ ω Input Failure (α × AdminAudit)) :
    Prog δ ω Input Failure (α × AdminAudit) → List ω → Bool → Prop where
  | start : Handled S program u es t p p [] false
  | ran {ws k err us v v' i k' err' T} (h : Handled S program u es t p (.stmt ws k err) us false)
      (htakes : Takes (World.step S program) u es v (.step t i) v')
      (hses : v.sessions t = some ⟨.stmt ws k' err', some T, true⟩) (hwrites : T.writes = us) :
      Handled S program u es t p (k (v.view S t (some T)) i) (us ++ ws (v.view S t (some T)) i) false
  | failed {ws k err us aborted} (e : Failure)
      (h : Handled S program u es t p (.stmt ws k err) us aborted) :
      Handled S program u es t p (err e) us true

/-- The controller has failed with an error, which the interceptor is about to
record. -/
def Failing (row : AuditLog → ω) (ctx : AdminRequestContext) (config : AdminAudit) (respond : α → β)
    (t : ℕ) (err : Failure) (w : World δ ω κ Input Failure β) : Prop :=
  ∃ txn a, w.sessions t =
    some ⟨body row ctx config respond (.throw err : Prog δ ω Input Failure (α × AdminAudit)), txn, a⟩

/-- The error a program lets out, from the rollback on. -/
def surfacing : Prog δ ω Input Failure β → Option Failure
  | .throw e => some e
  | .rollback (.throw e) => some e
  | _ => none

/-- An error is on its way to the caller of a session, or has reached it. -/
def Surfaces (t : ℕ) (err : Failure) (w : World δ ω κ Input Failure β) : Prop :=
  ∃ ses, w.sessions t = some ses ∧ surfacing ses.prog = some err

/-- A session has returned its response. -/
def Returned (t : ℕ) (b : β) (w : World δ ω κ Input Failure β) : Prop :=
  ∃ ses, w.sessions t = some ses ∧ ses.prog = .done b

/-- The row of a failure is not refused with another error than the failure. -/
def Recorded (row : AuditLog → ω) (ctx : AdminRequestContext) (config : AdminAudit) (respond : α → β)
    (t : ℕ) (w : World δ ω κ Input Failure β) (e : Event γ Input Failure) : Prop :=
  ∀ err, Failing row ctx config respond t err w → ∀ other, e = .fail t other → other = err

/-- What a run makes of an audited endpoint. -/
structure Settled (S : KeyedRows δ ω κ) [DecidableEq κ] (program : γ → Prog δ ω Input Failure β)
    (row : AuditLog → ω) (ctx : AdminRequestContext) (config : AdminAudit) (respond : α → β) (t : ℕ)
    (p : Prog δ ω Input Failure (α × AdminAudit)) (u : World δ ω κ Input Failure β)
    (es : List (Event γ Input Failure)) (w : World δ ω κ Input Failure β) : Prop where
  /-- It has returned and committed what its handler wrote with one row of the
  success, or it has committed nothing. -/
  together :
    (∃ r audit us id auditId, Returned t (respond r) w ∧
      Handled S program u es t p (.done (r, audit)) us false ∧
      writesOf t (history S program u es) =
        us ++ [row (auditRow ctx audit .success id auditId)]) ∨
    (∀ b, ¬ Returned t b w) ∧ writesOf t (history S program u es) = []
  /-- When the controller has failed, its own error reaches the caller. -/
  own : ∀ front back v err e, es = front ++ back → run (World.step S program) u front = some v →
    Failing row ctx config respond t err v → Surfaces t e w → e = err

section Phases

variable {program : γ → Prog δ ω Input Failure β} {row : AuditLog → ω} {ctx : AdminRequestContext}
variable {config : AdminAudit} {respond : α → β} {u v v' : World δ ω κ Input Failure β} {t : ℕ}
variable {es : List (Event γ Input Failure)} {p : Prog δ ω Input Failure (α × AdminAudit)}
variable {e : Event γ Input Failure} {ses ses' : Session δ ω Input Failure β}

/-- Where the session of an audited endpoint is and what it has committed. -/
inductive Phase (S : KeyedRows δ ω κ) [DecidableEq κ] (program : γ → Prog δ ω Input Failure β)
    (row : AuditLog → ω) (ctx : AdminRequestContext) (config : AdminAudit) (respond : α → β) (t : ℕ)
    (p : Prog δ ω Input Failure (α × AdminAudit)) (u : World δ ω κ Input Failure β)
    (es : List (Event γ Input Failure)) : Session δ ω Input Failure β → List ω → Prop where
  | waiting {a} : Phase S program row ctx config respond t p u es
      ⟨.begin false (body row ctx config respond p) .throw, none, a⟩ []
  | handling {q T a} (hq : Handled S program u es t p q T.writes T.aborted)
      (hplain : T.snapshot = none) : Phase S program row ctx config respond t p u es
      ⟨body row ctx config respond q, some T, a⟩ []
  | audited {r audit us id auditId T a}
      (hdone : Handled S program u es t p (.done (r, audit)) us false)
      (hwrites : T.writes = us ++ [row (auditRow ctx audit .success id auditId)])
      (hrun : T.aborted = false) : Phase S program row ctx config respond t p u es
      ⟨.commit (.done (respond r)) fun e => .rollback (.throw e), some T, a⟩ []
  | leaving {err txn a} : Phase S program row ctx config respond t p u es
      ⟨.rollback (.throw err), txn, a⟩ []
  | failed {err txn a} : Phase S program row ctx config respond t p u es ⟨.throw err, txn, a⟩ []
  | returned {r audit us id auditId txn a}
      (hdone : Handled S program u es t p (.done (r, audit)) us false) :
      Phase S program row ctx config respond t p u es ⟨.done (respond r), txn, a⟩
        (us ++ [row (auditRow ctx audit .success id auditId)])
  | dead {q} (hq : ∀ b, q ≠ .done b) : Phase S program row ctx config respond t p u es
      ⟨q, none, false⟩ []

/-- What is left of a handler without transactions opens none. -/
theorem handled_auto {q : Prog δ ω Input Failure (α × AdminAudit)} {us : List ω} {aborted : Bool}
    (hauto : AutoCommits p) (h : Handled S program u es t p q us aborted) : AutoCommits q := by
  induction h with
  | start => exact hauto
  | ran h htakes hses hwrites ih => exact ih.1 _ _
  | failed e h ih => exact ih.2 e

/-- The commits of others leave a session in its phase. -/
theorem phase_note {us : List ω} (ws : List ω)
    (h : Phase S program row ctx config respond t p u es ses us) :
    Phase S program row ctx config respond t p u es (ses.note ws) us := by
  cases h with
  | waiting => exact .waiting
  | @handling q T a hq hplain =>
    exact .handling (T := { T with since := T.since ++ ws }) hq hplain
  | @audited r audit us id auditId T a hdone hwrites hrun =>
    exact .audited (T := { T with since := T.since ++ ws }) hdone hwrites hrun
  | leaving => exact .leaving
  | failed => exact .failed
  | returned hdone => exact .returned hdone
  | dead hq => exact .dead hq

/-- A step of the handler, or of the statement after it. -/
theorem phase_handling {q : Prog δ ω Input Failure (α × AdminAudit)} {T : Txn δ ω} {a : Bool}
    {ws : List ω} (hauto : AutoCommits p)
    (hq : Handled S program u es t p q T.writes T.aborted) (hplain : T.snapshot = none)
    (htakes : Takes (World.step S program) u es v e v')
    (hses : v.sessions t = some ⟨body row ctx config respond q, some T, a⟩)
    (hmove : Move S v t ⟨body row ctx config respond q, some T, a⟩ e ses' ws) :
    Phase S program row ctx config respond t p u es ses' ws := by
  have hqauto := handled_auto hauto hq
  cases q with
  | done r =>
    obtain ⟨r, audit⟩ := r
    rw [body_done] at hmove
    cases hmove with
    | @held i ws k err T hrun =>
      rw [hrun] at hq
      exact .audited hq rfl hrun
    | stmtFailed => exact .leaving
    | died => exact .dead fun b => by simp
    | other ws hother => exact phase_note ws (.handling hq hplain)
  | throw err =>
    rw [body_throw] at hmove
    cases hmove with
    | held hrun => exact .leaving
    | stmtFailed => exact .leaving
    | died => exact .dead fun b => by simp
    | other ws hother => exact phase_note ws (.handling hq hplain)
  | stmt ws k err =>
    rw [body_stmt] at hmove hses
    cases hmove with
    | @held i ws' k' err' T hrun =>
      rw [hrun] at hq
      have hnext := hq.ran htakes hses rfl
      exact .handling (hrun.symm ▸ hnext) hplain
    | @stmtFailed e => exact .handling (T := T.abort) (hq.failed e) hplain
    | died => exact .dead fun b => by simp
    | other ws hother => exact phase_note ws (.handling hq hplain)
  | begin ser k err => exact hqauto.elim
  | commit k err => exact hqauto.elim
  | rollback k => exact hqauto.elim

/-- Every step of a run takes the session from phase to phase. -/
theorem phase_step {us ws : List ω} (hauto : AutoCommits p)
    (h : Phase S program row ctx config respond t p u es ses us)
    (htakes : Takes (World.step S program) u es v e v') (hses : v.sessions t = some ses)
    (hmove : Move S v t ses e ses' ws) :
    Phase S program row ctx config respond t p u es ses' (us ++ ws) := by
  cases h with
  | waiting =>
    cases hmove with
    | opened => exact .handling .start rfl
    | beginFailed => exact .failed
    | died => exact .waiting
    | other ws hother => exact phase_note ws .waiting
  | handling hq hplain => exact phase_handling hauto hq hplain htakes hses hmove
  | audited hdone hwrites hrun =>
    cases hmove with
    | ended habort => simp [hrun] at habort
    | committed hrun =>
      rw [hwrites]
      exact .returned hdone
    | commitFailed => exact .leaving
    | died => exact .dead fun b => by simp
    | other ws hother => exact phase_note ws (.audited hdone hwrites hrun)
  | leaving =>
    cases hmove with
    | rolledBack => exact .failed
    | died => exact .leaving
    | other ws hother => exact phase_note ws .leaving
  | failed =>
    cases hmove with
    | died => exact .failed
    | other ws hother => exact phase_note ws .failed
  | returned hdone =>
    cases hmove with
    | died => simpa using Phase.returned hdone
    | other ws hother => simpa using phase_note ws (.returned hdone)
  | dead hq =>
    cases hmove with
    | other ws hother => exact phase_note ws (.dead hq)

/-- After every run the session is in a phase. -/
theorem phase_run {handler : AdminAudit → Prog δ ω Input Failure (α × AdminAudit)}
    (hauto : AutoCommits (handler config))
    (hses : u.sessions t = some ⟨endpoint row ctx config respond handler, none, true⟩)
    (hrun : run (World.step S program) u es = some v) :
    ∃ ses, v.sessions t = some ses ∧
      Phase S program row ctx config respond t (handler config) u es ses
        (writesOf t (history S program u es)) := by
  refine run_invariant (I := fun w front => ∃ ses, w.sessions t = some ses ∧
      Phase S program row ctx config respond t (handler config) u es ses
        (writesOf t (history S program u front))) ?_ ?_ hrun
  · exact ⟨_, hses, .waiting⟩
  · rintro front w e w' hf hstep ⟨back, rfl⟩ ⟨ses, hw, hphase⟩
    obtain ⟨ses', hw', hmove⟩ := session_move (S := S) hw hstep
    rw [history_snoc hf hstep, writesOf_append]
    exact ⟨ses', hw', phase_step hauto hphase ⟨front, back, rfl, hf, hstep⟩ hw hmove⟩

/-- As long as its handler runs, an endpoint has not returned. -/
theorem body_pending {q : Prog δ ω Input Failure (α × AdminAudit)} (hauto : AutoCommits q) (b : β) :
    body row ctx config respond q ≠ .done b := by
  cases q with
  | done r =>
    obtain ⟨r, audit⟩ := r
    simp [body_done]
  | throw err => simp [body_throw]
  | stmt ws k err => simp [body_stmt]
  | begin ser k err => exact hauto.elim
  | commit k err => exact hauto.elim
  | rollback k => exact hauto.elim

/-- In every phase the session has returned and committed, or neither. -/
theorem phase_together {us : List ω} (hauto : AutoCommits p) (hses : v.sessions t = some ses)
    (h : Phase S program row ctx config respond t p u es ses us) :
    (∃ r audit ws id auditId, Returned t (respond r) v ∧
      Handled S program u es t p (.done (r, audit)) ws false ∧
      us = ws ++ [row (auditRow ctx audit .success id auditId)]) ∨
    (∀ b, ¬ Returned t b v) ∧ us = [] := by
  have hquiet : (∀ b, ses.prog ≠ .done b) → ∀ b, ¬ Returned t b v := by
    rintro hnot b ⟨ses', hses', hb⟩
    obtain rfl := Option.some.inj (hses.symm.trans hses')
    exact hnot b hb
  cases h with
  | waiting => exact Or.inr ⟨hquiet fun b => by simp, rfl⟩
  | handling hq hplain => exact Or.inr ⟨hquiet (body_pending (handled_auto hauto hq)), rfl⟩
  | audited => exact Or.inr ⟨hquiet fun b => by simp, rfl⟩
  | leaving => exact Or.inr ⟨hquiet fun b => by simp, rfl⟩
  | failed => exact Or.inr ⟨hquiet fun b => by simp, rfl⟩
  | @returned r audit ws id auditId txn a hdone =>
    exact Or.inl ⟨r, audit, ws, id, auditId, ⟨_, hses, rfl⟩, hdone, rfl⟩
  | dead hq => exact Or.inr ⟨hquiet hq, rfl⟩

/-- What is left of an endpoint whose controller has failed. -/
inductive Rejecting (row : AuditLog → ω) (ctx : AdminRequestContext) (config : AdminAudit)
    (respond : α → β) (err : Failure) : Prog δ ω Input Failure β → Prop where
  | recording : Rejecting row ctx config respond err
      (body row ctx config respond (.throw err : Prog δ ω Input Failure (α × AdminAudit)))
  | leaving : Rejecting row ctx config respond err (.rollback (.throw err))
  | failed : Rejecting row ctx config respond err (.throw err)

/-- The error that surfaces is the controller's own. -/
theorem rejecting_surfaces {err other : Failure} {q : Prog δ ω Input Failure β}
    (h : Rejecting row ctx config respond err q) (hq : surfacing q = some other) : other = err := by
  cases h with
  | recording => simp [body_throw, surfacing] at hq
  | leaving => exact (Option.some.inj hq).symm
  | failed => exact (Option.some.inj hq).symm

omit [DecidableEq κ] in
/-- As long as the row of the failure is not refused, the endpoint goes on
rejecting the request with that error. -/
theorem rejecting_step {err : Failure} {ws : List ω}
    (h : Rejecting row ctx config respond err ses.prog) (hses : v.sessions t = some ses)
    (hrecorded : Recorded row ctx config respond t v e) (hmove : Move S v t ses e ses' ws) :
    Rejecting row ctx config respond err ses'.prog := by
  obtain ⟨q, txn, a⟩ := ses
  cases h with
  | recording =>
    have hfailing : Failing row ctx config respond t err v := ⟨txn, a, hses⟩
    cases hmove with
    | auto => exact .leaving
    | held hrun => exact .leaving
    | stmtFailed =>
      rw [hrecorded err hfailing _ rfl]
      exact .leaving
    | died => exact .recording
    | other ws hother => exact .recording
  | leaving =>
    cases hmove with
    | rolledBack => exact .failed
    | died => exact .leaving
    | other ws hother => exact .leaving
  | failed =>
    cases hmove with
    | died => exact .failed
    | other ws hother => exact .failed

theorem rejecting_run {err : Failure} (hfailing : Failing row ctx config respond t err u)
    (hrecorded : Along (World.step S program) (Recorded row ctx config respond t) u es)
    (hrun : run (World.step S program) u es = some v) :
    ∃ ses, v.sessions t = some ses ∧ Rejecting row ctx config respond err ses.prog := by
  obtain ⟨txn, a, hses⟩ := hfailing
  refine visits_invariant (I := fun w : World δ ω κ Input Failure β =>
      ∃ ses, w.sessions t = some ses ∧ Rejecting row ctx config respond err ses.prog)
    (fun w e w' hw he hstep => ?_) ⟨_, hses, .recording⟩ hrecorded (visits_last hrun)
  obtain ⟨ses, hw, hrejecting⟩ := hw
  obtain ⟨ses', hw', hmove⟩ := session_move (S := S) hw hstep
  exact ⟨ses', hw', rejecting_step hrejecting hw he hmove⟩

end Phases

section Endpoints

variable {D : Driver} {paise : ℕ} {ctx : AdminRequestContext} {audit : AdminAudit}

theorem auto_ensure (condition : Bool) (err : Failure) : AutoCommits (ensure condition err) := by
  cases condition <;> trivial

theorem auto_changePending (actionId userId : String) (change : Instant → ActionChange) :
    AutoCommits (changePending actionId userId change) := auto_exec _ _

theorem auto_approve (actionId : String) (body : DecisionBody) :
    AutoCommits (approve ctx actionId body audit) := by
  refine auto_bind (auto_query _) fun found => ?_
  cases found with
  | none => trivial
  | some before =>
    refine auto_bind (auto_ensure _ _) fun _ => auto_bind (auto_changePending _ _ _) fun changed => ?_
    cases changed <;> trivial

theorem auto_reject (actionId : String) (body : DecisionBody) :
    AutoCommits (reject ctx actionId body audit) := by
  simp only [reject]
  cases body.reason.filter (· ≠ "") with
  | none => trivial
  | some reason =>
    refine auto_bind (auto_query _) fun found => ?_
    cases found with
    | none => trivial
    | some before =>
      refine auto_bind (auto_ensure _ _) fun _ => auto_bind (auto_changePending _ _ _) fun changed => ?_
      cases changed <;> trivial

theorem auto_findOrCreateWallet (brokerId currency : Option Json) :
    AutoCommits (findOrCreateWallet D brokerId currency) := by
  refine auto_bind (auto_query _) fun existing => ?_
  cases existing with
  | some wallet => trivial
  | none => exact auto_bind (auto_ofExcept _) fun _ => auto_bind (auto_ofExcept _) fun _ => auto_exec _ _

theorem auto_postLeg (leg : PostingLeg) : AutoCommits (postLeg D leg) :=
  auto_bind (auto_ofExcept _) fun _ => auto_exec _ _

/-- The handler of an adjustment opens no transaction with either adapter. -/
theorem auto_executeWalletAdjust {ops : LedgerOps} (payload : WalletAdjustPayload)
    (hops : ops = drizzleLedgerOps D ∨ ops = pgLedgerOps D) :
    AutoCommits (executeWalletAdjust payload ops) := by
  have hwallet : ∀ brokerId currency, AutoCommits (ops.findOrCreateWallet brokerId currency) := by
    intro brokerId currency
    rcases hops with rfl | rfl <;>
      exact auto_bind (auto_findOrCreateWallet brokerId currency) fun _ => trivial
  have hpost : ∀ legA legB, AutoCommits (ops.postPair legA legB) := by
    intro legA legB
    rcases hops with rfl | rfl
    · exact auto_bind (auto_bind (auto_ofExcept _) fun _ => auto_bind (auto_ofExcept _) fun _ =>
        auto_exec _ _) fun _ => trivial
    · exact auto_bind (auto_postLeg legA) fun _ => auto_bind (auto_postLeg legB) fun _ => trivial
  refine auto_bind (auto_ofExcept _) fun amount => ?_
  split
  · trivial
  · exact auto_bind (hwallet _ _) fun _ => auto_bind (auto_query _) fun _ =>
      auto_bind (hpost _ _) fun _ => trivial

theorem auto_walletAdjust (body : Json) : AutoCommits (walletAdjust D paise ctx body audit) := by
  refine auto_bind (auto_ofExcept _) fun fields => auto_bind (auto_ofExcept _) fun amount =>
    auto_bind (auto_ensure _ _) fun _ => auto_bind (auto_ofExcept _) fun threshold => ?_
  split
  · exact auto_bind (auto_query _) fun _ => auto_bind (auto_exec _ _) fun _ => trivial
  · generalize WalletAdjustPayload.ofStrings _ _ _ _ _ = payload
    exact auto_bind (auto_executeWalletAdjust payload (Or.inl rfl)) fun _ => trivial

/-- Every endpoint on pending actions is an audited transaction whose handler
opens none of its own. -/
theorem admin_endpoint (call : AdminCall) :
    ∃ (α : Type) (ctx : AdminRequestContext) (config : AdminAudit)
      (handler : AdminAudit → Program (α × AdminAudit)),
      admin D paise call = endpoint .insertAudit ctx config (fun _ => ()) handler ∧
        AutoCommits (handler config) := by
  cases call with
  | walletAdjust ctx body => exact ⟨_, ctx, _, _, rfl, auto_walletAdjust body⟩
  | approve ctx actionId body => exact ⟨_, ctx, _, _, rfl, auto_approve actionId body⟩
  | reject ctx actionId body => exact ⟨_, ctx, _, _, rfl, auto_reject actionId body⟩

end Endpoints

section Examples

/-- An action that U1 has asked for. -/
def requested : Store :=
  { Store.empty with
    actions := [CreatePendingActionInput.row
      ⟨.walletAdjust, .obj [], "fraud review", "U1", 86400000⟩ 1 "A1" 0] }

/-- Another admin. -/
def approver : AdminRequestContext := ⟨"U2", "ops@lp.test", none, none⟩

/-- The approval of the other admin has been requested. -/
def approving : World Store Write Key Input Failure Unit :=
  (World.initial requested 2).put 1
    ⟨endpoint .insertAudit approver (.ofConfig "approval.approve" "pending_action" (some "A1"))
      (fun _ => ()) (approve approver "A1" ⟨none, none⟩), none, true⟩

/-- The approval is found, changed, recorded and committed. -/
def approved : List (Event AdminCall Input Failure) :=
  [.step 1 quiet, .step 1 quiet, .step 1 quiet, .step 1 (drawing "L1"), .step 1 quiet]

/-- The update times out and the transaction accepts no row of the failure. -/
def lockedOut : List (Event AdminCall Input Failure) :=
  [.step 1 quiet, .step 1 quiet, .fail 1 (.database "canceling statement due to lock timeout"),
    .fail 1 (.database "current transaction is aborted, commands ignored until end of transaction block"),
    .step 1 quiet]

end Examples

end LpPlatform.AuditedTransactions
