import LpPlatform.WalletAdjust
import LpPlatform.AuditInterceptor

/-!
# Pending actions

A wallet adjustment above a threshold is not executed but stored as a pending
action. Another admin approves or rejects it with one guarded update, which
changes the row only while it is pending and was requested by somebody else.
The row is first looked up on another connection, and the update decides.
The decision endpoints are modelled from their bodies on, with the arguments
already processed.
-/

namespace LpPlatform.PendingActions

open Amounts AuditInterceptor InterferenceLogic JsValues Ledger RowStore Sessions StatementProgram
open Tables WalletAdjust

/-- The type column. -/
def actionTypeText : PendingActionType → String
  | .walletAdjust => "wallet.adjust"
  | .chargesRateUpdate => "charges.rate.update"
  | .tradeReverse => "trade.reverse"
  | .brokerSuspend => "broker.suspend"
  | .brokerLimitsUpdate => "broker.limits.update"

/-- The status column. -/
def statusText : PendingActionStatus → String
  | .pending => "pending"
  | .approved => "approved"
  | .rejected => "rejected"
  | .executed => "executed"
  | .expired => "expired"

/-- The body of a wallet adjustment that passes its schema. -/
structure WalletAdjustBody where
  brokerId : String
  direction : LedgerDirection
  amount : String
  currency : String
  reason : String
  /-- The amount is written in digits, with up to four decimals. -/
  decimal : isAmount amount = true

/-- The direction field. -/
def directionField : Option Json → Option LedgerDirection
  | some (.str "DEBIT") => some .debit
  | some (.str "CREDIT") => some .credit
  | _ => none

/-- The currency field, with its default. -/
def currencyField : Option Json → Option String
  | none => some "INR"
  | some (.str s) => some s
  | some _ => none

/-- The fields of a body that passes the schema. -/
def walletAdjustFields (body : Json) : Option WalletAdjustBody := do
  let brokerId ← (body.field? "brokerId").bind Json.string?
  let direction ← directionField (body.field? "direction")
  let amount ← (body.field? "amount").bind Json.string?
  let currency ← currencyField (body.field? "currency")
  let reason ← (body.field? "reason").bind Json.string?
  if h : isAmount amount = true then
    if 1 ≤ utf16Length brokerId ∧ 10 ≤ utf16Length reason ∧ utf16Length reason ≤ 500 then
      some ⟨brokerId, direction, amount, currency, reason, h⟩
    else none
  else none

/-- `walletAdjustSchema`, in its validation pipe. -/
def walletAdjustSchema (body : Json) : Except Failure WalletAdjustBody :=
  match walletAdjustFields body with
  | some fields => .ok fields
  | none => .error (.domain "VALIDATION_FAILED" "Validation failed" 400)

/-- The body as it is stored. -/
def WalletAdjustBody.payload (b : WalletAdjustBody) : Json :=
  .obj [("brokerId", .str b.brokerId), ("direction", .str (directionText b.direction)),
    ("amount", .str b.amount), ("currency", .str b.currency), ("reason", .str b.reason)]

/-- What a pending action is created from. -/
structure CreatePendingActionInput where
  actionType : PendingActionType
  payload : Json
  reason : String
  requestedBy : String
  expiresAt : Instant

/-- The row of a new pending action. -/
def CreatePendingActionInput.row (input : CreatePendingActionInput) (id : ℕ) (actionId : String)
    (requestedAt : Instant) : PendingAction :=
  { id := id
    actionId := actionId
    actionType := input.actionType
    payload := input.payload
    reason := input.reason
    requestedBy := input.requestedBy
    requestedAt := requestedAt
    expiresAt := input.expiresAt
    approvedBy := none
    approvedAt := none
    approvalComment := none
    rejectedBy := none
    rejectedAt := none
    rejectionReason := none
    executedAt := none
    status := .pending }

/-- `PendingActionsRepository.create`. -/
def create (input : CreatePendingActionInput) : Program PendingAction :=
  exec (fun v i => [.insertAction (input.row v.seq (i.id 0) i.now)])
    (fun v i => input.row v.seq (i.id 0) i.now)

/-- `PendingActionsRepository.findById`, outside the transaction. -/
def findById (actionId : String) : Program (Option PendingAction) :=
  query fun v i => anyRow (rowsAt (·.actionId) actionId v.committed.actions) i.pick

/-- The rows a decision changes. -/
def decidableRows (actionId userId : String) (v : View Store) : List PendingAction :=
  (rowsAt (·.actionId) actionId v.own.actions).filter fun a =>
    a.status = .pending ∧ a.requestedBy ≠ userId

/-- The guarded update of a decision. -/
def changePending (actionId userId : String) (change : Instant → ActionChange) :
    Program (Option PendingAction) :=
  exec (fun v i =>
      if (decidableRows actionId userId v).isEmpty then [] else [.changeAction actionId (change i.now)])
    (fun v i => (decidableRows actionId userId v).head?.map fun a => (change i.now).apply a)

/-- `PendingActionsRepository.approve`. -/
def repoApprove (actionId approverId : String) (comment : Option String) :
    Program (Option PendingAction) :=
  changePending actionId approverId fun now => .approve approverId now comment

/-- `PendingActionsRepository.reject`. -/
def repoReject (actionId rejectorId reason : String) : Program (Option PendingAction) :=
  changePending actionId rejectorId fun now => .reject rejectorId now reason

/-- The body of a decision. -/
structure DecisionBody where
  comment : Option String
  reason : Option String

/-- A text or null. -/
def nullable : Option String → Json
  | some s => .str s
  | none => .null

/-- `ApprovalsController.approve`. -/
def approve (ctx : AdminRequestContext) (actionId : String) (body : DecisionBody)
    (audit : AdminAudit) : Program (PendingAction × AdminAudit) := do
  let found ← findById actionId
  match found with
  | none => .throw (.domain "NOT_FOUND" "Pending action not found" 404)
  | some before =>
    ensure (before.requestedBy ≠ ctx.userId)
      (.domain "AUTH_FORBIDDEN" "Self-approval forbidden" 403)
    let changed ← repoApprove actionId ctx.userId body.comment
    match changed with
    | none =>
      .throw (.domain "CONFLICT" "Action no longer pending (already approved/rejected/expired)" 409)
    | some updated =>
      return (updated, { audit with
        beforeState := some (.obj [("status", .str (statusText before.status))])
        afterState := some (.obj [("status", .str (statusText updated.status)),
          ("approvedBy", nullable updated.approvedBy)]) })

/-- `ApprovalsController.reject`. -/
def reject (ctx : AdminRequestContext) (actionId : String) (body : DecisionBody)
    (audit : AdminAudit) : Program (PendingAction × AdminAudit) := do
  match body.reason.filter (· ≠ "") with
  | none => .throw (.domain "VALIDATION_FAILED" "reason is required when rejecting" 400)
  | some reason =>
    let found ← findById actionId
    match found with
    | none => .throw (.domain "NOT_FOUND" "Pending action not found" 404)
    | some before =>
      ensure (before.requestedBy ≠ ctx.userId)
        (.domain "AUTH_FORBIDDEN" "Self-rejection forbidden" 403)
      let changed ← repoReject actionId ctx.userId reason
      match changed with
      | none => .throw (.domain "CONFLICT" "Action no longer pending" 409)
      | some updated =>
        return (updated, { audit with
          beforeState := some (.obj [("status", .str (statusText before.status))])
          afterState := some (.obj [("status", .str (statusText updated.status)),
            ("rejectionReason", nullable updated.rejectionReason)]) })

/-- What a wallet adjustment replies. -/
inductive WalletAdjustReply where
  | executed (entryIds : List String)
  | queuedForApproval (actionId : String)

/-- The reply as it stands in the audit row. -/
def WalletAdjustReply.json : WalletAdjustReply → Json
  | .executed entryIds =>
    .obj [("status", .str "executed"), ("entryIds", .arr (entryIds.map Json.str))]
  | .queuedForApproval actionId =>
    .obj [("status", .str "queued_for_approval"), ("actionId", .str actionId)]

/-- `InterventionsController.walletAdjust`, under a threshold in paise. -/
def walletAdjust (D : Driver) (paise : ℕ) (ctx : AdminRequestContext) (body : Json)
    (audit : AdminAudit) : Program (WalletAdjustReply × AdminAudit) := do
  let body ← ofExcept (walletAdjustSchema body)
  let amount ← ofExcept (Money.new body.amount)
  ensure (!(amount.isZero || amount.isNegative))
    (.domain "VALIDATION_FAILED" "amount must be > 0" 400)
  let thresholdRupees ← ofExcept (Money.fromPaise paise)
  let audit := { audit with
    resourceId := some body.brokerId
    beforeState := some (.obj [("reason", .str body.reason), ("amount", .str amount.toString),
      ("threshold", .str thresholdRupees.toString)]) }
  if amount.gt thresholdRupees then
    let expiresAt ← draw fun i => i.now + 24 * 60 * 60 * 1000
    let created ← create ⟨.walletAdjust, body.payload, body.reason, ctx.userId, expiresAt⟩
    let reply := WalletAdjustReply.queuedForApproval created.actionId
    return (reply, { audit with afterState := some reply.json })
  else
    let result ← executeWalletAdjust (.ofStrings body.brokerId (directionText body.direction)
      amount.toString body.currency body.reason) (drizzleLedgerOps D)
    let reply := WalletAdjustReply.executed result.entryIds
    return (reply, { audit with afterState := some reply.json })

/-- The audited endpoints around pending actions. -/
inductive AdminCall where
  | walletAdjust (ctx : AdminRequestContext) (body : Json)
  | approve (ctx : AdminRequestContext) (actionId : String) (body : DecisionBody)
  | reject (ctx : AdminRequestContext) (actionId : String) (body : DecisionBody)

/-- An endpoint in the transaction of its audit row, without its reply. -/
def admin (D : Driver) (paise : ℕ) : AdminCall → Program Unit
  | .walletAdjust ctx body => do
    let _ ← runInTx ctx (.ofConfig "wallet.adjust" "wallet" none) (walletAdjust D paise ctx body)
    return ()
  | .approve ctx actionId body => do
    let _ ← runInTx ctx (.ofConfig "approval.approve" "pending_action" (some actionId))
      (approve ctx actionId body)
    return ()
  | .reject ctx actionId body => do
    let _ ← runInTx ctx (.ofConfig "approval.reject" "pending_action" (some actionId))
      (reject ctx actionId body)
    return ()

/-- The strings of an array. -/
def texts : Json → List String
  | .arr items => items.filterMap Json.string?
  | _ => []

/-- The entries that the audit row of an executed adjustment names. -/
def adjustedIds (audit : AuditLog) : List String :=
  if audit.action = "wallet.adjust" ∧ audit.outcome = .success then
    (((audit.metadata.field? "afterState").bind (Json.field? "entryIds")).map texts).getD []
  else []

/-- What a committed endpoint has written, over the rows it was committed on. -/
inductive Requested (D : Driver) (paise : ℕ) (d : Store) : List Write → Prop where
  | queued {body : WalletAdjustBody} {input : CreatePendingActionInput} {id actionId now audit}
      (htype : input.actionType = .walletAdjust) (hpayload : input.payload = body.payload)
      (haudit : audit.action = "wallet.adjust") :
      Requested D paise d [.insertAction (input.row id actionId now), .insertAudit audit]
  | adjusted {payload amount wallet referenceId pre a b threshold audit}
      (hwallet : (pre = [] ∧ wallet ∈ d.wallets) ∨ pre = [.insertWallet wallet])
      (hpair : AdjustPair D payload amount wallet referenceId a b) (hscale : amount.scale ≤ 4)
      (hthreshold : Money.fromPaise paise = .ok threshold) (hbelow : amount.value ≤ threshold.value)
      (haudit : audit.action = "wallet.adjust")
      (hnames : adjustedIds audit = [a.entryId, b.entryId]) :
      Requested D paise d (pre ++ [.insertEntry a, .insertEntry b, .insertAudit audit])
  | approved {a : PendingAction} {approver now comment audit} (ha : a ∈ d.actions)
      (hpending : a.status = .pending) (hother : a.requestedBy ≠ approver)
      (haudit : audit.action = "approval.approve") :
      Requested D paise d [.changeAction a.actionId (.approve approver now comment),
        .insertAudit audit]
  | rejected {a : PendingAction} {rejector now reason audit} (ha : a ∈ d.actions)
      (hpending : a.status = .pending) (hother : a.requestedBy ≠ rejector)
      (haudit : audit.action = "approval.reject") :
      Requested D paise d [.changeAction a.actionId (.reject rejector now reason),
        .insertAudit audit]

section Rules

variable {C : Contract platform} {t : ℕ} {d : Store} {n : ℕ} {D : Driver} {paise : ℕ}

/-- The rows of an action whose lock is held do not change. -/
theorem env_action {held : List Key} {d' : Store} {n' : ℕ} {a : PendingAction}
    (henv : C.Env t held d n d' n') (hheld : .action a.actionId ∈ held) (ha : a ∈ d.actions) :
    a ∈ d'.actions := by
  have hslice : (platform.slice d' (.action a.actionId) : Store) =
      platform.slice d (.action a.actionId) := env_slice hheld henv
  have hrows : rowsAt (·.actionId) a.actionId d'.actions = rowsAt (·.actionId) a.actionId d.actions :=
    congrArg Store.actions hslice
  have hmem : a ∈ rowsAt (·.actionId) a.actionId d'.actions := by
    rw [hrows]
    exact mem_rowsAt.mpr ⟨ha, rfl⟩
  exact (mem_rowsAt.mp hmem).1

/-- A guarded update changes a pending action of somebody else, which is still
pending when the transaction commits. -/
theorem wp_changePending {actionId userId : String} {change : Instant → ActionChange} {d₀ : Store}
    {Q : Option PendingAction → Assertion Store Write} {E : Failure → Assertion Store Write}
    (hE : ∀ e T d n, E e (some T) d n)
    (hnone : ∀ d' n', Q none (some (.opened false d₀)) d' n')
    (hQ : ∀ now updated d' n', (∀ d₁ n₁,
        C.Env t [.action actionId] d' n' d₁ n₁ → ∃ a ∈ d₁.actions, a.actionId = actionId ∧
          a.status = .pending ∧ a.requestedBy ≠ userId) →
      Q (some updated)
        (some ((Txn.opened false d₀).add [.changeAction actionId (change now)])) d' n') :
    wp C t (changePending actionId userId change) Q E (some (.opened false d₀)) d n := by
  refine wp_exec hE fun v i d' n' henv hinv hv hvalid => ?_
  cases hrows : decidableRows actionId userId v with
  | nil =>
    simp only [List.isEmpty_nil, if_true, List.head?_nil, Option.map_none, add_nil]
    exact hnone _ _
  | cons a rows =>
    have ha : a ∈ decidableRows actionId userId v := by simp [hrows]
    simp only [decidableRows, List.mem_filter, mem_rowsAt, decide_eq_true_eq] at ha
    obtain ⟨⟨hmem, hid⟩, hpending, hother⟩ := ha
    rw [hv.own_some] at hmem
    simp only [List.isEmpty_cons, Bool.false_eq_true, if_false, List.head?_cons, Option.map_some]
    refine hQ i.now _ d' _ fun d₁ n₁ henv₁ => ⟨a, ?_, hid, hpending, hother⟩
    exact env_action henv₁ (by simp [hid]) hmem

/-- An approval gets ready to commit a decision of a pending action. -/
theorem wp_approve {ctx : AdminRequestContext} {actionId : String} {body : DecisionBody}
    {audit : AdminAudit} {d₀ : Store} (haudit : audit.action = "approval.approve")
    (hguar : ∀ v ws, Requested D paise v.committed ws → C.guar v ws) :
    wp C t (approve ctx actionId body audit) (fun r => ReadyToCommit C t ctx r.2) InTxn
      (some (.opened false d₀)) d n := by
  have hE : ∀ e T d n, InTxn e (some T) d n := fun _ T _ _ => ⟨T, rfl⟩
  rw [approve, bind_eq, wp_bind]
  refine wp_query hE fun v i d₁ n₁ _ _ _ => ?_
  split
  · exact hE _ _ _ _
  · simp only [bind_eq]
    rw [wp_bind]
    refine wp_ensure (fun _ => hE _ _ _ _) fun _ => ?_
    rw [wp_bind]
    refine wp_changePending hE (fun _ _ => hE _ _ _ _) fun now updated d₂ n₂ hheld => ?_
    refine ⟨_, rfl, rfl, fun id auditId d₃ n₃ v₃ henv₃ _ hd₃ _ _ _ => hguar v₃ _ ?_⟩
    obtain ⟨a, ha, rfl, hpending, hother⟩ := hheld d₃ n₃ henv₃
    rw [hd₃]
    exact Requested.approved ha hpending hother haudit

/-- So does a rejection. -/
theorem wp_reject {ctx : AdminRequestContext} {actionId : String} {body : DecisionBody}
    {audit : AdminAudit} {d₀ : Store} (haudit : audit.action = "approval.reject")
    (hguar : ∀ v ws, Requested D paise v.committed ws → C.guar v ws) :
    wp C t (reject ctx actionId body audit) (fun r => ReadyToCommit C t ctx r.2) InTxn
      (some (.opened false d₀)) d n := by
  have hE : ∀ e T d n, InTxn e (some T) d n := fun _ T _ _ => ⟨T, rfl⟩
  rw [reject]
  split
  · exact hE _ _ _ _
  · rw [bind_eq, wp_bind]
    refine wp_query hE fun v i d₁ n₁ _ _ _ => ?_
    split
    · exact hE _ _ _ _
    · simp only [bind_eq]
      rw [wp_bind]
      refine wp_ensure (fun _ => hE _ _ _ _) fun _ => ?_
      rw [wp_bind]
      refine wp_changePending hE (fun _ _ => hE _ _ _ _) fun now updated d₂ n₂ hheld => ?_
      refine ⟨_, rfl, rfl, fun id auditId d₃ n₃ v₃ henv₃ _ hd₃ _ _ _ => hguar v₃ _ ?_⟩
      obtain ⟨a, ha, rfl, hpending, hother⟩ := hheld d₃ n₃ henv₃
      rw [hd₃]
      exact Requested.rejected ha hpending hother haudit

/-- The entries named by the audit row of an executed adjustment. -/
theorem adjustedIds_executed {ctx : AdminRequestContext} {audit : AdminAudit} {before : Json}
    {entryIds : List String} {id : ℕ} {auditId : String} (haction : audit.action = "wallet.adjust")
    (hbefore : audit.beforeState = some before)
    (hafter : audit.afterState = some (WalletAdjustReply.executed entryIds).json) :
    adjustedIds (auditRow ctx audit .success id auditId) = entryIds := by
  have htexts : ∀ ids : List String, (ids.map Json.str).filterMap Json.string? = ids := by
    intro ids
    simp [List.filterMap_map, Function.comp_def, Json.string?]
  simp [adjustedIds, auditRow, haction, AdminAudit.columns, hbefore, hafter, Json.field?,
    WalletAdjustReply.json, texts, htexts]

/-- A wallet adjustment gets ready to commit a pending action or a pair that
is not above the threshold. -/
theorem wp_walletAdjust {ctx : AdminRequestContext} {body : Json} {audit : AdminAudit} {d₀ : Store}
    (haudit : audit.action = "wallet.adjust")
    (hguar : ∀ v ws, Requested D paise v.committed ws → C.guar v ws) :
    wp C t (walletAdjust D paise ctx body audit) (fun r => ReadyToCommit C t ctx r.2) InTxn
      (some (.opened false d₀)) d n := by
  have hE : ∀ e T d n, InTxn e (some T) d n := fun _ T _ _ => ⟨T, rfl⟩
  rw [walletAdjust, bind_eq, wp_bind]
  refine wp_ofExcept (fun _ _ => hE _ _ _ _) fun fields _ => ?_
  rw [bind_eq, wp_bind]
  refine wp_ofExcept (fun _ _ => hE _ _ _ _) fun amount hamount => ?_
  rw [bind_eq, wp_bind]
  refine wp_ensure (fun _ => hE _ _ _ _) fun _ => ?_
  rw [bind_eq, wp_bind]
  refine wp_ofExcept (fun _ _ => hE _ _ _ _) fun threshold hthreshold => ?_
  simp only [bind_eq]
  split
  · rw [wp_bind]
    refine wp_query hE fun v i d₁ n₁ _ _ _ => ?_
    rw [wp_bind]
    refine wp_exec hE fun v₂ i₂ d₂ n₂ _ _ _ _ => ?_
    exact ⟨_, rfl, rfl, fun id auditId d₃ n₃ v₃ _ _ _ _ _ _ => hguar v₃ _
      (Requested.queued rfl rfl haudit)⟩
  · rename_i hgt
    rw [wp_bind]
    refine wp_executeWalletAdjust (drizzleLedgerOps_meets D) hE
      fun read wallet referenceId ws a b d₁ n₁ d₂ n₂ henv₁ hwallet henv₂ _ hpair => ?_
    refine ⟨_, rfl, rfl, fun id auditId d₃ n₃ v₃ henv₃ _ hd₃ _ _ _ => hguar v₃ _ ?_⟩
    obtain ⟨l, hl, _, hscale⟩ := isAmount_literal fields.decimal
    obtain rfl : ofLiteral l = amount := Except.ok.inj ((new_of_literal hl).symm.trans hamount)
    obtain ⟨m, hm, hvalue, hle⟩ := new_toString (ofLiteral l)
    obtain rfl : m = read := Except.ok.inj (hm.symm.trans hpair.parsed)
    have hshort := scale_ofLiteral l
    have henv₁₃ : C.Env t [] d₁ n₁ d₃ n₃ :=
      env_trans (env_mono (by simp) henv₂) (env_mono (by simp) henv₃)
    have hwallet₃ : (ws = [] ∧ wallet ∈ d₃.wallets) ∨ ws = [.insertWallet wallet] :=
      hwallet.imp_left fun h => ⟨h.1, env_growing walletRows henv₁₃ h.2⟩
    have hbelow : m.value ≤ threshold.value := by
      rw [hvalue]
      simpa [Money.gt] using hgt
    simp only [hd₃, add_writes, Txn.opened, List.nil_append, List.append_assoc, List.cons_append]
    exact Requested.adjusted hwallet₃ hpair (by omega) hthreshold hbelow haudit
      (adjustedIds_executed haudit rfl rfl)

/-- Every endpoint keeps a contract that allows what they commit. -/
theorem keeps_admin {call : AdminCall}
    (hguar : ∀ v ws, Requested D paise v.committed ws → C.guar v ws) :
    C.Keeps t (admin D paise call) none d n := by
  have hquiet : ∀ {α : Type} {p : Program α}, C.Keeps t p none d n →
      C.Keeps t (p.bind fun _ => .done ()) none d n := by
    intro α p hp
    rw [Contract.Keeps, wp_bind]
    exact wp_mono _ (fun _ _ _ _ _ => trivial) (fun _ _ _ _ h => h) hp
  cases call with
  | walletAdjust ctx body =>
    exact hquiet (keeps_runInTx fun _ _ _ _ => wp_walletAdjust rfl hguar)
  | approve ctx actionId body =>
    exact hquiet (keeps_runInTx fun _ _ _ _ => wp_approve rfl hguar)
  | reject ctx actionId body =>
    exact hquiet (keeps_runInTx fun _ _ _ _ => wp_reject rfl hguar)

end Rules

end LpPlatform.PendingActions
