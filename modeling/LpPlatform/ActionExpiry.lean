import LpPlatform.ApprovalWatcher
import LpPlatform.StatementWrites

/-!
# The deadline of a pending action

A pending action is stored with a deadline, and nothing reads it again. What
expires an action is a sweep that looks at the time of the request instead.
Approvals and claims look at the status alone, so they keep the deadline when
the clock does: each of them has to run before the deadline of its action.
-/

namespace LpPlatform.ActionExpiry

open ApprovalWatcher AuditInterceptor InterferenceLogic JsValues Ledger PendingActions RowStore Sessions
open StatementProgram StatementWrites StepRuns Tables WalletAdjust

/-- A write sets the clock it is issued at, and inserts no decided action. -/
def Stamped (i : Input) : Write → Prop
  | .insertAction row => row.approvedAt = none ∧ row.executedAt = none
  | .changeAction _ (.approve _ approvedAt _) => approvedAt = i.now
  | .changeAction _ (.execute executedAt) => executedAt = i.now
  | _ => True

section Stamps

variable {D : Driver} {paise : ℕ}

/-- Programs whose statements are stamped. -/
abbrev Stamps {α : Type} (p : Program α) : Prop := Issues (fun _ i x => Stamped i x) p

theorem stamps_ensure (condition : Bool) (err : Failure) : Stamps (ensure condition err) := by
  cases condition <;> trivial

theorem stamps_runInTx {α : Type} {ctx : AdminRequestContext} {config : AdminAudit}
    {handler : AdminAudit → Program (α × AdminAudit)} (h : Stamps (handler config)) :
    Stamps (runInTx ctx config handler) := by
  have haudit : ∀ audit outcome, Stamps (writeAudit ctx audit outcome) :=
    fun audit outcome => issues_row fun _ _ => trivial
  refine issues_transaction (issues_bind (issues_tryCatch h fun err => ?_) fun r => ?_)
  · exact issues_bind (haudit _ _) fun _ => trivial
  · exact issues_bind (haudit _ _) fun _ => trivial

/-- The operations of a ledger are stamped. -/
structure OpsStamp (ops : LedgerOps) : Prop where
  wallet : ∀ brokerId currency, Stamps (ops.findOrCreateWallet brokerId currency)
  pair : ∀ legA legB, Stamps (ops.postPair legA legB)

theorem stamps_findOrCreateWallet (brokerId currency : Option Json) :
    Stamps (findOrCreateWallet D brokerId currency) := by
  refine issues_bind (issues_query _) fun existing => ?_
  split
  · trivial
  · exact issues_bind (issues_ofExcept _) fun _ => issues_bind (issues_ofExcept _) fun _ =>
      issues_row fun _ _ => trivial

theorem drizzleLedgerOps_stamp : OpsStamp (drizzleLedgerOps D) where
  wallet brokerId currency := issues_bind (stamps_findOrCreateWallet _ _) fun _ => trivial
  pair legA legB := by
    refine issues_bind (issues_bind (issues_ofExcept _) fun rowA => issues_bind (issues_ofExcept _)
      fun rowB => issues_exec fun v i x hx => ?_) fun _ => trivial
    simp only [List.mem_cons, List.not_mem_nil, or_false] at hx
    rcases hx with rfl | rfl <;> trivial

theorem pgLedgerOps_stamp : OpsStamp (pgLedgerOps D) where
  wallet brokerId currency := issues_bind (stamps_findOrCreateWallet _ _) fun _ => trivial
  pair legA legB := by
    have hleg : ∀ leg, Stamps (postLeg D leg) := fun leg =>
      issues_bind (issues_ofExcept _) fun _ => issues_row fun _ _ => trivial
    exact issues_bind (hleg legA) fun _ => issues_bind (hleg legB) fun _ => trivial

theorem stamps_executeWalletAdjust {ops : LedgerOps} (hops : OpsStamp ops)
    (payload : WalletAdjustPayload) : Stamps (executeWalletAdjust payload ops) := by
  refine issues_bind (issues_ofExcept _) fun amount => ?_
  split
  · trivial
  · exact issues_bind (hops.wallet _ _) fun walletId => issues_bind (issues_query _) fun _ =>
      issues_bind (hops.pair _ _) fun _ => trivial

/-- A decision sets the clock. -/
theorem stamps_changePending {actionId userId : String} {change : Instant → ActionChange}
    (hchange : ∀ i : Input, Stamped i (.changeAction actionId (change i.now))) :
    Stamps (changePending actionId userId change) := by
  refine issues_exec fun v i x hx => ?_
  split at hx
  · simp at hx
  · obtain rfl := List.mem_singleton.mp hx
    exact hchange i

theorem stamps_admin (call : AdminCall) : Stamps (admin D paise call) := by
  cases call with
  | walletAdjust ctx body =>
    refine issues_bind (stamps_runInTx (issues_bind (issues_ofExcept _) fun fields =>
      issues_bind (issues_ofExcept _) fun amount => issues_bind (stamps_ensure _ _) fun _ =>
      issues_bind (issues_ofExcept _) fun threshold => ?_)) fun _ => trivial
    split
    · exact issues_bind (issues_query _) fun expiresAt =>
        issues_bind (issues_row fun _ _ => ⟨rfl, rfl⟩) fun _ => trivial
    · generalize WalletAdjustPayload.ofStrings _ _ _ _ _ = payload
      exact issues_bind (stamps_executeWalletAdjust drizzleLedgerOps_stamp payload) fun _ => trivial
  | approve ctx actionId body =>
    refine issues_bind (stamps_runInTx (issues_bind (issues_query _) fun found => ?_)) fun _ => trivial
    split
    · trivial
    · refine issues_bind (stamps_ensure _ _) fun _ =>
        issues_bind (stamps_changePending fun _ => rfl) fun changed => ?_
      split <;> trivial
  | reject ctx actionId body =>
    refine issues_bind (stamps_runInTx ?_) fun _ => trivial
    unfold PendingActions.reject
    split
    · trivial
    · refine issues_bind (issues_query _) fun found => ?_
      split
      · trivial
      · refine issues_bind (stamps_ensure _ _) fun _ =>
          issues_bind (stamps_changePending fun _ => trivial) fun changed => ?_
        split <;> trivial

theorem stamps_executeOne (row : ActionRow) : Stamps (executeOne D row) := by
  have hrecord : ∀ outcome metadata,
      Stamps (ApprovalWatcher.record row.actionId outcome metadata) :=
    fun outcome metadata => issues_row fun _ _ => trivial
  have hclaim : Stamps (claim row.actionId) := by
    refine issues_exec fun v i x hx => ?_
    split at hx
    · simp at hx
    · obtain rfl := List.mem_singleton.mp hx
      rfl
  have hdispatch : Stamps (dispatch row.type row.payload (pgLedgerOps D)) := by
    unfold dispatch
    split
    · exact issues_bind (issues_ofExcept _) fun fields =>
        issues_bind (stamps_executeWalletAdjust pgLedgerOps_stamp fields) fun _ => trivial
    all_goals trivial
  refine issues_bind (issues_query _) fun _ => issues_tryCatch ⟨?_, fun _ => trivial⟩ fun err => ?_
  · refine issues_bind hclaim fun rowCount => ?_
    split
    · exact issues_bind (issues_query _) fun _ => trivial
    · exact issues_bind hdispatch fun result => issues_bind (hrecord _ _) fun _ =>
        ⟨trivial, fun _ => trivial⟩
  · exact issues_bind (issues_tryCatch (hrecord _ _) fun _ => trivial) fun _ => trivial

theorem stamps_executeAll (rows : List ActionRow) (counts : PollResult) :
    Stamps (executeAll D rows counts) := by
  induction rows generalizing counts with
  | nil => trivial
  | cons row rows ih => exact issues_bind (stamps_executeOne row) fun ok => ih _

/-- Every call around pending actions is stamped. -/
theorem stamps_actions (call : ActionCall) : Stamps (actions D paise call) := by
  cases call with
  | admin call => exact stamps_admin call
  | pollOnce =>
    exact issues_bind (issues_bind (issues_query _) fun rows => stamps_executeAll rows _) fun _ =>
      trivial
  | expireStale retentionHours =>
    refine issues_bind (issues_exec fun v i x hx => ?_) fun _ => trivial
    obtain ⟨a, -, rfl⟩ := List.mem_map.mp hx
    trivial

end Stamps

/-- The action a write approves or executes. -/
def moved? : Write → Option String
  | .changeAction actionId (.approve _ _ _) => some actionId
  | .changeAction actionId (.execute _) => some actionId
  | _ => none

/-- What a write approves or executes at a time is an action whose deadline
has not passed. -/
def inTime (now : Instant) (actions : List PendingAction) (x : Write) : Bool :=
  match moved? x with
  | none => true
  | some actionId => actions.any fun a => a.actionId = actionId ∧ now ≤ a.expiresAt

/-- The statement the event runs approves or executes no action whose deadline
has passed. -/
def InTime (w : ActionWorld) (e : Event ActionCall Input Failure) : Prop :=
  match e with
  | .step t i => (issued platform w (.step t i : Event ActionCall Input Failure)).all
      (inTime i.now w.db.actions) = true
  | _ => True

instance (w : ActionWorld) (e : Event ActionCall Input Failure) : Decidable (InTime w e) := by
  unfold InTime
  split <;> infer_instance

/-- The action was approved and executed by its deadline, if at all. -/
structure OnTime (a : PendingAction) : Prop where
  approved : ∀ approvedAt, a.approvedAt = some approvedAt → approvedAt ≤ a.expiresAt
  executed : ∀ executedAt, a.executedAt = some executedAt → executedAt ≤ a.expiresAt

/-- A write approves or executes an action by a deadline. -/
def Meets (actionId : String) (expiresAt : Instant) : Write → Prop
  | .insertAction row => row.approvedAt = none ∧ row.executedAt = none
  | .changeAction id (.approve _ approvedAt _) => id = actionId → approvedAt ≤ expiresAt
  | .changeAction id (.execute executedAt) => id = actionId → executedAt ≤ expiresAt
  | _ => True

/-- The action with this id and deadline is on time. -/
def Kept (actionId : String) (expiresAt : Instant) (d : Store) : Prop :=
  ∀ a ∈ d.actions, a.actionId = actionId → a.expiresAt = expiresAt → OnTime a

/-- A write that meets the deadline keeps the action on time. -/
theorem kept_apply {actionId : String} {expiresAt : Instant} (d : Store) (x : Write)
    (h : Kept actionId expiresAt d) (hx : Meets actionId expiresAt x) :
    Kept actionId expiresAt (platform.apply d x) := by
  intro a ha hid hdeadline
  cases x with
  | insertAction row =>
    rcases List.mem_append.mp ha with ha | ha
    · exact h a ha hid hdeadline
    · obtain rfl := List.mem_singleton.mp ha
      obtain ⟨happroved, hexecuted⟩ := hx
      exact ⟨by simp [happroved], by simp [hexecuted]⟩
  | changeAction id change =>
    obtain ⟨b, hb, ⟨heq, rfl⟩ | ⟨-, rfl⟩⟩ := mem_updateAt.mp ha
    · rw [apply_actionTerms] at hid hdeadline
      have hold := h b hb hid hdeadline
      have hsame : id = actionId := heq.symm.trans hid
      cases change with
      | approve approver approvedAt comment =>
        refine ⟨?_, hold.executed⟩
        rintro _ ⟨⟩
        exact (hx hsame).trans_eq hdeadline.symm
      | execute executedAt =>
        refine ⟨hold.approved, ?_⟩
        rintro _ ⟨⟩
        exact (hx hsame).trans_eq hdeadline.symm
      | reject rejector rejectedAt reason => exact ⟨hold.approved, hold.executed⟩
      | expire => exact ⟨hold.approved, hold.executed⟩
    · exact h a hb hid hdeadline
  | _ => exact h a ha hid hdeadline

section Runs

variable {D : Driver} {paise : ℕ} {d : Store} {n : ℕ} {es : List (Event ActionCall Input Failure)}
variable {w : ActionWorld}

/-- One event of these worlds. -/
abbrev actionStep (D : Driver) (paise : ℕ) :
    ActionWorld → Event ActionCall Input Failure → Option ActionWorld :=
  World.step platform (actions D paise)

/-- In every run ids stay unique. -/
theorem unique_run (hd : UniqueActions d)
    (hrun : run (actionStep D paise) (World.initial d n) es = some w) : UniqueActions w.db :=
  (sound_visits (C := actionContract D paise)
    (fun _ _ _ _ _ => keeps_actions (fun _ _ h => h) fun _ _ h => h) (sound_initial hd)
    (visits_last hrun)).inv

/-- In every run of creations, approvals, rejections, sweeps and polls in which
no statement approves or executes an action whose deadline has passed, no
action is approved or executed after its deadline. -/
theorem expiry_honoured (hids : UniqueActions d) (hd : ∀ a ∈ d.actions, OnTime a)
    (hc : Along (actionStep D paise) InTime (World.initial d n) es)
    (hvisits : Visits (actionStep D paise) (World.initial d n) es w) :
    ∀ a ∈ w.db.actions, OnTime a := by
  intro a ha
  obtain ⟨front, back, rfl, hrun⟩ := hvisits
  have hunique := unique_run hids hrun
  refine rows_issued (@kept_apply a.actionId a.expiresAt) ?_
    (fun b hb _ _ => hd b hb) (visits_last hrun) a ha rfl rfl
  refine (along_iff_takes _ _).mpr fun u e u' htakes x hx => ?_
  have hcond := (along_iff_takes _ _).mp hc u e u' (takes_front htakes)
  cases e with
  | step t i =>
    have hin := List.all_eq_true.mp hcond x hx
    obtain ⟨ses, -, hstamped⟩ := issued_fits stamps_actions (takes_before htakes) hx
    -- the action that is moved is the one with the deadline
    have hmove : ∀ actionId, moved? x = some actionId → actionId = a.actionId →
        i.now ≤ a.expiresAt := by
      intro actionId hmoved hid
      rw [inTime, hmoved] at hin
      obtain ⟨b, hb, hfound⟩ := List.any_eq_true.mp hin
      obtain ⟨hbid, hnow⟩ := of_decide_eq_true hfound
      obtain ⟨before, after, rfl, hbefore, hstep⟩ := htakes
      have hlater : run (actionStep D paise) u (.step t i :: after) = some w := by
        simpa [run_append, hbefore] using hrun
      obtain ⟨c, hcin, hterms⟩ :=
        List.mem_map.mp (terms_visits (visits_last hlater) (List.mem_map_of_mem (f := (·.toActionTerms)) hb))
      obtain rfl : c = a := action_unique hunique hcin ha (by rw [hterms, hbid, hid])
      rwa [hterms]
    cases x with
    | insertAction row => exact hstamped
    | changeAction actionId change =>
      cases change with
      | approve approver approvedAt comment =>
        intro hid
        obtain rfl : approvedAt = i.now := hstamped
        exact hmove actionId rfl hid
      | execute executedAt =>
        intro hid
        obtain rfl : executedAt = i.now := hstamped
        exact hmove actionId rfl hid
      | _ => trivial
    | _ => trivial
  | _ => simp [issued] at hx

end Runs

/-- A clock and an identifier. -/
def clocked (now : Instant) (id : String) : Input := ⟨now, [id], 0⟩

/-- A large adjustment is asked for, approved and executed, the last two at the
given clock. No sweep runs. -/
def adjustedAt (now : Instant) : List (Event ActionCall Input Failure) :=
  runCall 1 (.admin (.walletAdjust ⟨"U1", "u1", none, none⟩ (.obj [("brokerId", .str "B1"),
      ("direction", .str "CREDIT"), ("amount", .str "25000"), ("reason", .str "late deposit")])))
    [quiet, quiet, drawing "A1", drawing "L1", quiet] ++
  runCall 2 (.admin (.approve ⟨"U2", "u2", none, none⟩ "A1" ⟨none, none⟩))
    [clocked now "", clocked now "", clocked now "", clocked now "L2", clocked now ""] ++
  runCall 3 .pollOnce
    (["", "", "", "", "", "W1", "R1", "E1", "E2", "L3", ""].map (clocked now))

/-- The one action has been executed. -/
def executedOne (w : ActionWorld) : Bool := w.db.actions.map (·.status) = [.executed]

/-- An action is approved and executed two days after it was asked for. -/
theorem expired_executed : ∃ w,
    run (actionStep plainDriver 1000000) (World.initial Store.empty 0) (adjustedAt 172800000) = some w ∧
    executedOne w = true ∧ ¬ ∀ a ∈ w.db.actions, OnTime a := by
  obtain ⟨w, hrun, hcheck⟩ := run_reaches (actionStep plainDriver 1000000)
    (World.initial Store.empty 0) (adjustedAt 172800000)
    (fun w => executedOne w && w.db.actions.any fun a =>
      a.approvedAt = some 172800000 ∧ a.expiresAt = 86400000) (by decide +kernel)
  obtain ⟨hexecuted, hlate⟩ := Bool.and_eq_true_iff.mp hcheck
  obtain ⟨a, ha, hfound⟩ := List.any_eq_true.mp hlate
  obtain ⟨happroved, hdeadline⟩ := of_decide_eq_true hfound
  refine ⟨w, hrun, hexecuted, fun hall => ?_⟩
  have hle := (hall a ha).approved 172800000 happroved
  rw [hdeadline] at hle
  exact absurd hle (by decide)

theorem expiry_honoured_early : ∃ w,
    run (actionStep plainDriver 1000000) (World.initial Store.empty 0) (adjustedAt 60000) = some w ∧
    executedOne w = true ∧ ∀ a ∈ w.db.actions, OnTime a := by
  obtain ⟨w, hrun, hcheck⟩ := run_reaches (actionStep plainDriver 1000000)
    (World.initial Store.empty 0) (adjustedAt 60000) executedOne (by decide +kernel)
  have hc : Along (actionStep plainDriver 1000000) InTime (World.initial Store.empty 0)
      (adjustedAt 60000) := by decide +kernel
  exact ⟨w, hrun, hcheck, expiry_honoured (by simp [UniqueActions, Store.empty])
    (by simp [Store.empty]) hc (visits_last hrun)⟩

end LpPlatform.ActionExpiry
