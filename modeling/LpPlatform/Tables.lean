import LpPlatform.Amounts
import LpPlatform.Sessions

/-!
# The platform's tables and queue

Rows are kept in insertion order, under their identity values. Columns that
no update touches are split off as the terms of a row, so a change of the
others cannot lose them. A write is one row inserted or one row changed, and
names the unique keys of that row. Trades, charges, ledger entries, wallets
and audit rows are only ever inserted.
-/

namespace LpPlatform.Tables

open Amounts JsValues RowStore

/-- The side of an order. -/
inductive OrderSide where
  | buy
  | sell
  deriving DecidableEq, Repr

/-- The type of an order. -/
inductive OrderType where
  | market
  | limit
  | stop
  | stopLimit
  deriving DecidableEq, Repr

/-- How long an order stands. -/
inductive TimeInForce where
  | day
  | ioc
  | fok
  | gtc
  deriving DecidableEq, Repr

/-- The status of an order. -/
inductive OrderStatus where
  | pending
  | accepted
  | partiallyFilled
  | filled
  | rejected
  | cancelled
  deriving DecidableEq, Repr

/-- The direction of a ledger entry. -/
inductive LedgerDirection where
  | debit
  | credit
  deriving DecidableEq, Repr

/-- What a ledger entry refers to. -/
inductive LedgerReferenceType where
  | trade
  | charge
  | deposit
  | withdrawal
  | adjustment
  deriving DecidableEq, Repr

/-- The kind of a funding request. -/
inductive RequestKind where
  | deposit
  | withdrawal
  deriving DecidableEq, Repr

/-- The status of a funding request. -/
inductive RequestStatus where
  | pending
  | approved
  | rejected
  deriving DecidableEq, Repr

/-- What a pending action asks for. -/
inductive PendingActionType where
  | walletAdjust
  | chargesRateUpdate
  | tradeReverse
  | brokerSuspend
  | brokerLimitsUpdate
  deriving DecidableEq, Repr

/-- The status of a pending action. -/
inductive PendingActionStatus where
  | pending
  | approved
  | rejected
  | executed
  | expired
  deriving DecidableEq, Repr

/-- Who an audit row is about. -/
inductive ActorType where
  | user
  | brokerApi
  | system
  deriving DecidableEq, Repr

/-- Whether the audited action succeeded. -/
inductive Outcome where
  | success
  | failure
  deriving DecidableEq, Repr

/-- The type of a charge. -/
inductive ChargeType where
  | brokerage
  | stt
  | exchangeFee
  | gst
  | stampDuty
  | sebiFee
  | transactionFee
  deriving DecidableEq, Repr

/-- Columns of an order that never change. -/
structure OrderTerms where
  id : ℕ
  orderId : String
  clientOrderId : String
  brokerId : String
  symbol : String
  side : OrderSide
  type : OrderType
  quantity : Numeric
  price : Option Numeric
  timeInForce : TimeInForce
  clientUserLabel : Option String
  clientUserId : Option String
  commissionAmount : Option Numeric
  receivedAt : Instant
  deriving DecidableEq

/-- A row of `trading.orders`. -/
structure Order extends OrderTerms where
  status : OrderStatus
  rejectionReason : Option String
  updatedAt : Instant
  deriving DecidableEq

/-- A row of `trading.trades`. -/
structure Trade where
  id : ℕ
  tradeId : String
  orderId : String
  brokerId : String
  symbol : String
  side : OrderSide
  quantity : Numeric
  price : Numeric
  executedAt : Instant
  prevHash : String
  hash : String
  deriving DecidableEq

/-- A row of `trading.charges`. -/
structure Charge where
  id : ℕ
  tradeId : String
  type : ChargeType
  amount : Numeric
  description : String
  deriving DecidableEq

/-- A row of `ledger.wallets`. -/
structure Wallet where
  id : ℕ
  walletId : String
  brokerId : String
  currency : String
  deriving DecidableEq

/-- A row of `ledger.ledger_entries`. -/
structure LedgerEntry where
  id : ℕ
  entryId : String
  walletId : String
  direction : LedgerDirection
  amount : Numeric
  currency : String
  referenceType : LedgerReferenceType
  referenceId : String
  description : String
  deriving DecidableEq

/-- Columns of a funding request that never change. -/
structure RequestTerms where
  id : ℕ
  requestId : String
  kind : RequestKind
  brokerId : String
  amount : Numeric
  currency : String
  method : String
  reference : Option String
  note : Option String
  createdAt : Instant
  deriving DecidableEq

/-- A row of `ledger.deposit_requests`. -/
structure DepositRequest extends RequestTerms where
  status : RequestStatus
  decidedBy : Option String
  decidedAt : Option Instant
  deriving DecidableEq

/-- Columns of a pending action that never change. -/
structure ActionTerms where
  id : ℕ
  actionId : String
  actionType : PendingActionType
  payload : Json
  reason : String
  requestedBy : String
  requestedAt : Instant
  expiresAt : Instant

/-- A row of `admin.pending_actions`. -/
structure PendingAction extends ActionTerms where
  approvedBy : Option String
  approvedAt : Option Instant
  approvalComment : Option String
  rejectedBy : Option String
  rejectedAt : Option Instant
  rejectionReason : Option String
  executedAt : Option Instant
  status : PendingActionStatus

/-- A row of `audit.audit_logs`. -/
structure AuditLog where
  id : ℕ
  auditId : String
  actorType : ActorType
  actorId : String
  action : String
  resourceType : Option String
  resourceId : Option String
  outcome : Outcome
  metadata : Json
  ipAddress : Option String
  userAgent : Option String

/-- The data of a job of the orders queue, which never changes. -/
structure JobTerms where
  jobId : ℕ
  orderId : String
  brokerId : String
  deriving DecidableEq

/-- Where a job stands. -/
inductive JobState where
  | waiting
  | active (worker : ℕ)
  | completed
  | failed
  deriving DecidableEq, Repr

/-- A job of the orders queue. -/
structure Job extends JobTerms where
  state : JobState
  /-- How often the worker that held it has died. -/
  stalls : ℕ
  deriving DecidableEq

/-- All tables and the orders queue. -/
structure Store where
  orders : List Order
  trades : List Trade
  charges : List Charge
  wallets : List Wallet
  entries : List LedgerEntry
  requests : List DepositRequest
  actions : List PendingAction
  audits : List AuditLog
  jobs : List Job

/-- No rows at all. -/
def Store.empty : Store := ⟨[], [], [], [], [], [], [], [], []⟩

/-- A transition of a pending action. -/
inductive ActionChange where
  | approve (approvedBy : String) (approvedAt : Instant) (approvalComment : Option String)
  | reject (rejectedBy : String) (rejectedAt : Instant) (rejectionReason : String)
  | execute (executedAt : Instant)
  | expire

/-- The columns a transition sets. -/
def ActionChange.apply (a : PendingAction) : ActionChange → PendingAction
  | .approve approver at_ comment =>
    { a with
      status := .approved
      approvedBy := some approver
      approvedAt := some at_
      approvalComment := comment }
  | .reject rejector at_ reason =>
    { a with
      status := .rejected
      rejectedBy := some rejector
      rejectedAt := some at_
      rejectionReason := some reason }
  | .execute at_ => { a with status := .executed, executedAt := some at_ }
  | .expire => { a with status := .expired }

/-- One row inserted or changed. -/
inductive Write where
  | insertOrder (row : Order)
  | markOrder (orderId : String) (status : OrderStatus) (updatedAt : Instant)
  | insertTrade (row : Trade)
  | insertCharge (row : Charge)
  | insertWallet (row : Wallet)
  | insertEntry (row : LedgerEntry)
  | insertRequest (row : DepositRequest)
  | decideRequest (requestId : String) (status : RequestStatus) (decidedBy : String)
      (decidedAt : Instant)
  | insertAction (row : PendingAction)
  | changeAction (actionId : String) (change : ActionChange)
  | insertAudit (row : AuditLog)
  | insertJob (row : Job)
  | moveJob (jobId : ℕ) (state : JobState) (stalls : ℕ)

/-- The row after a decision. -/
def DepositRequest.decide (r : DepositRequest) (status : RequestStatus) (decidedBy : String)
    (decidedAt : Instant) : DepositRequest :=
  { r with status := status, decidedBy := some decidedBy, decidedAt := some decidedAt }

/-- The row after its status is set. -/
def Order.mark (o : Order) (status : OrderStatus) (updatedAt : Instant) : Order :=
  { o with status := status, updatedAt := updatedAt }

/-- The job after it is moved. -/
def Job.move (j : Job) (state : JobState) (stalls : ℕ) : Job :=
  { j with state := state, stalls := stalls }

/-- The store after one write. -/
def Store.apply (d : Store) : Write → Store
  | .insertOrder row => { d with orders := d.orders ++ [row] }
  | .markOrder orderId status updatedAt =>
    { d with orders := updateAt (·.orderId) orderId (·.mark status updatedAt) d.orders }
  | .insertTrade row => { d with trades := d.trades ++ [row] }
  | .insertCharge row => { d with charges := d.charges ++ [row] }
  | .insertWallet row => { d with wallets := d.wallets ++ [row] }
  | .insertEntry row => { d with entries := d.entries ++ [row] }
  | .insertRequest row => { d with requests := d.requests ++ [row] }
  | .decideRequest requestId status decidedBy decidedAt =>
    { d with
      requests := updateAt (·.requestId) requestId (·.decide status decidedBy decidedAt) d.requests }
  | .insertAction row => { d with actions := d.actions ++ [row] }
  | .changeAction actionId change =>
    { d with actions := updateAt (·.actionId) actionId (fun a => change.apply a) d.actions }
  | .insertAudit row => { d with audits := d.audits ++ [row] }
  | .insertJob row => { d with jobs := d.jobs ++ [row] }
  | .moveJob jobId state stalls =>
    { d with jobs := updateAt (·.jobId) jobId (·.move state stalls) d.jobs }

/-- The unique keys of the tables. -/
inductive Key where
  | order (orderId : String)
  | trade (tradeId : String)
  | hash (hash : String)
  | wallet (walletId : String)
  | entry (entryId : String)
  | request (requestId : String)
  | action (actionId : String)
  | audit (auditId : String)
  | job (jobId : ℕ)
  deriving DecidableEq

/-- Unique keys of the row a write inserts or changes. -/
def Write.keys : Write → List Key
  | .insertOrder row => [.order row.orderId]
  | .markOrder orderId _ _ => [.order orderId]
  | .insertTrade row => [.trade row.tradeId, .hash row.hash]
  | .insertCharge _ => []
  | .insertWallet row => [.wallet row.walletId]
  | .insertEntry row => [.entry row.entryId]
  | .insertRequest row => [.request row.requestId]
  | .decideRequest requestId _ _ _ => [.request requestId]
  | .insertAction row => [.action row.actionId]
  | .changeAction actionId _ => [.action actionId]
  | .insertAudit row => [.audit row.auditId]
  | .insertJob row => [.job row.jobId]
  | .moveJob jobId _ _ => [.job jobId]

/-- The rows stored under a unique key. -/
def Store.slice (d : Store) : Key → Store
  | .order k => { Store.empty with orders := rowsAt (·.orderId) k d.orders }
  | .trade k => { Store.empty with trades := rowsAt (·.tradeId) k d.trades }
  | .hash k => { Store.empty with trades := rowsAt (·.hash) k d.trades }
  | .wallet k => { Store.empty with wallets := rowsAt (·.walletId) k d.wallets }
  | .entry k => { Store.empty with entries := rowsAt (·.entryId) k d.entries }
  | .request k => { Store.empty with requests := rowsAt (·.requestId) k d.requests }
  | .action k => { Store.empty with actions := rowsAt (·.actionId) k d.actions }
  | .audit k => { Store.empty with audits := rowsAt (·.auditId) k d.audits }
  | .job k => { Store.empty with jobs := rowsAt (·.jobId) k d.jobs }

/-- The check constraints on who decides a pending action. -/
def ActionChange.allowed (a : PendingAction) : ActionChange → Bool
  | .approve approver _ _ => approver ≠ a.requestedBy
  | .reject rejector _ _ => rejector ≠ a.requestedBy
  | .execute _ => true
  | .expire => true

/-- A write violates no unique key and no check constraint. -/
def Store.valid (d : Store) : Write → Bool
  | .insertOrder row => (rowsAt (·.orderId) row.orderId d.orders).isEmpty
  | .insertTrade row =>
    (rowsAt (·.tradeId) row.tradeId d.trades).isEmpty && (rowsAt (·.hash) row.hash d.trades).isEmpty
  | .insertWallet row => (rowsAt (·.walletId) row.walletId d.wallets).isEmpty
  | .insertEntry row => (rowsAt (·.entryId) row.entryId d.entries).isEmpty
  | .insertRequest row => (rowsAt (·.requestId) row.requestId d.requests).isEmpty
  | .insertAction row => (rowsAt (·.actionId) row.actionId d.actions).isEmpty
  | .changeAction actionId change =>
    (rowsAt (·.actionId) actionId d.actions).all fun a => change.allowed a
  | .insertAudit row => (rowsAt (·.auditId) row.auditId d.audits).isEmpty
  | .insertJob row => (rowsAt (·.jobId) row.jobId d.jobs).isEmpty
  | _ => true

/-- Two trades of one broker, inserted by serializable transactions that each
read the broker's last trade first. -/
def Write.clash : Write → Write → Bool
  | .insertTrade a, .insertTrade b => a.brokerId = b.brokerId
  | _, _ => false

@[simp] theorem apply_actionTerms (a : PendingAction) (change : ActionChange) :
    (change.apply a).toActionTerms = a.toActionTerms := by cases change <;> rfl

/-- A write leaves every slice whose key it does not name. -/
theorem slice_other (d : Store) (w : Write) (k : Key) (h : k ∉ w.keys) :
    (d.apply w).slice k = d.slice k := by
  cases w <;> cases k <;> try rfl
  all_goals
    simp only [Write.keys, List.mem_cons, List.not_mem_nil, or_false, Key.order.injEq,
      Key.trade.injEq, Key.hash.injEq, Key.wallet.injEq, Key.entry.injEq, Key.request.injEq,
      Key.action.injEq, Key.audit.injEq, Key.job.injEq, reduceCtorEq, false_or] at h
    simp only [Store.apply, Store.slice, Store.mk.injEq, and_true, true_and]
  case insertOrder.order => exact rowsAt_insert_other _ (Ne.symm h)
  case markOrder.order => exact rowsAt_updateAt_other _ (fun _ => rfl) (Ne.symm h)
  case insertTrade.trade => exact rowsAt_insert_other _ (Ne.symm h)
  case insertTrade.hash => exact rowsAt_insert_other _ (Ne.symm h)
  case insertWallet.wallet => exact rowsAt_insert_other _ (Ne.symm h)
  case insertEntry.entry => exact rowsAt_insert_other _ (Ne.symm h)
  case insertRequest.request => exact rowsAt_insert_other _ (Ne.symm h)
  case decideRequest.request => exact rowsAt_updateAt_other _ (fun _ => rfl) (Ne.symm h)
  case insertAction.action => exact rowsAt_insert_other _ (Ne.symm h)
  case changeAction.action =>
    exact rowsAt_updateAt_other _ (fun a => by rw [apply_actionTerms]) (Ne.symm h)
  case insertAudit.audit => exact rowsAt_insert_other _ (Ne.symm h)
  case insertJob.job => exact rowsAt_insert_other _ (Ne.symm h)
  case moveJob.job => exact rowsAt_updateAt_other _ (fun _ => rfl) (Ne.symm h)

/-- The slices a write leaves depend only on the slices it found. -/
theorem slice_congr (d d' : Store) (w : Write) (h : ∀ k ∈ w.keys, d.slice k = d'.slice k) :
    ∀ k ∈ w.keys, (d.apply w).slice k = (d'.apply w).slice k := by
  intro k hk
  have hslice := h k hk
  cases w <;> simp only [Write.keys, List.mem_cons, List.not_mem_nil, or_false] at hk
  case insertTrade row =>
    rcases hk with rfl | rfl <;>
      (simp only [Store.slice, Store.mk.injEq, and_true, true_and] at hslice
       simp only [Store.apply, Store.slice, rowsAt_insert, hslice])
  all_goals
    subst hk
    simp only [Store.slice, Store.mk.injEq, and_true, true_and] at hslice
    simp only [Store.apply, Store.slice, Store.mk.injEq, and_true, true_and]
  case markOrder => exact updateAt_congr (fun _ => rfl) hslice
  case decideRequest => exact updateAt_congr (fun _ => rfl) hslice
  case moveJob => exact updateAt_congr (fun _ => rfl) hslice
  case changeAction => exact updateAt_congr (fun a => by rw [apply_actionTerms]) hslice
  all_goals simp only [rowsAt_insert, hslice]

/-- Whether a write is valid depends only on the slices it found. -/
theorem valid_congr (d d' : Store) (w : Write) (h : ∀ k ∈ w.keys, d.slice k = d'.slice k) :
    d.valid w = d'.valid w := by
  cases w <;>
    simp only [Write.keys, List.mem_cons, List.not_mem_nil, or_false, forall_eq_or_imp, forall_eq,
      Store.slice, Store.mk.injEq, and_true, true_and] at h <;>
    simp only [Store.valid, h]

/-- The platform's tables as a store of keyed rows. -/
def platform : KeyedRows Store Write Key where
  Slice := Store
  slice := Store.slice
  apply := Store.apply
  keys := Write.keys
  valid := Store.valid
  clash := Write.clash
  slice_other := slice_other
  slice_congr := slice_congr
  valid_congr := valid_congr

/-- The ledger entry a write inserts. -/
def Write.entry? : Write → Option LedgerEntry
  | .insertEntry row => some row
  | _ => none

/-- The wallet a write inserts. -/
def Write.wallet? : Write → Option Wallet
  | .insertWallet row => some row
  | _ => none

/-- The trade a write inserts. -/
def Write.trade? : Write → Option Trade
  | .insertTrade row => some row
  | _ => none

/-- The charge a write inserts. -/
def Write.charge? : Write → Option Charge
  | .insertCharge row => some row
  | _ => none

/-- The audit row a write inserts. -/
def Write.audit? : Write → Option AuditLog
  | .insertAudit row => some row
  | _ => none

/-- The terms of the request a write inserts. -/
def Write.request? : Write → Option RequestTerms
  | .insertRequest row => some row.toRequestTerms
  | _ => none

/-- The terms of the pending action a write inserts. -/
def Write.action? : Write → Option ActionTerms
  | .insertAction row => some row.toActionTerms
  | _ => none

/-- The terms of the order a write inserts. -/
def Write.order? : Write → Option OrderTerms
  | .insertOrder row => some row.toOrderTerms
  | _ => none

/-- The data of the job a write inserts. -/
def Write.job? : Write → Option JobTerms
  | .insertJob row => some row.toJobTerms
  | _ => none

/-- What writes only ever add to, read off the store. -/
structure Growing (ρ : Type) where
  /-- The rows, or the columns of them that never change. -/
  rows : Store → List ρ
  /-- What one write adds. -/
  row? : Write → Option ρ
  /-- Nothing else changes. -/
  apply : ∀ d w, rows (d.apply w) = rows d ++ (row? w).toList

/-- A growing part of the store after a list of writes. -/
theorem Growing.applyAll {ρ : Type} (G : Growing ρ) (d : Store) (ws : List Write) :
    G.rows (platform.applyAll d ws) = G.rows d ++ ws.filterMap G.row? := by
  induction ws generalizing d with
  | nil => simp
  | cons w ws ih =>
    have hw : G.rows (platform.apply d w) = G.rows d ++ (G.row? w).toList := G.apply d w
    rw [applyAll_cons, ih, hw]
    cases hr : G.row? w <;> simp [hr]

theorem Growing.mono {ρ : Type} (G : Growing ρ) {d : Store} {r : ρ} (ws : List Write)
    (h : r ∈ G.rows d) : r ∈ G.rows (platform.applyAll d ws) := by
  rw [G.applyAll]
  exact List.mem_append_left _ h

/-- Ledger entries. -/
def entryRows : Growing LedgerEntry where
  rows d := d.entries
  row? := Write.entry?
  apply d w := by cases w <;> simp [Store.apply, Write.entry?]

/-- Wallets. -/
def walletRows : Growing Wallet where
  rows d := d.wallets
  row? := Write.wallet?
  apply d w := by cases w <;> simp [Store.apply, Write.wallet?]

/-- Trades. -/
def tradeRows : Growing Trade where
  rows d := d.trades
  row? := Write.trade?
  apply d w := by cases w <;> simp [Store.apply, Write.trade?]

/-- Charges. -/
def chargeRows : Growing Charge where
  rows d := d.charges
  row? := Write.charge?
  apply d w := by cases w <;> simp [Store.apply, Write.charge?]

/-- Audit rows. -/
def auditRows : Growing AuditLog where
  rows d := d.audits
  row? := Write.audit?
  apply d w := by cases w <;> simp [Store.apply, Write.audit?]

/-- Terms of funding requests. -/
def requestTerms : Growing RequestTerms where
  rows d := d.requests.map (·.toRequestTerms)
  row? := Write.request?
  apply d w := by
    cases w with
    | decideRequest requestId status decidedBy decidedAt =>
      have hkeeps : (updateAt (·.requestId) requestId (·.decide status decidedBy decidedAt) d.requests).map (·.toRequestTerms) = d.requests.map (·.toRequestTerms) :=
        updateAt_keeps _ (by intro _; rfl) d.requests
      simpa [Store.apply, Write.request?] using hkeeps
    | _ => simp [Store.apply, Write.request?]

/-- Terms of pending actions. -/
def actionTerms : Growing ActionTerms where
  rows d := d.actions.map (·.toActionTerms)
  row? := Write.action?
  apply d w := by
    cases w with
    | changeAction actionId change =>
      have hkeeps : (updateAt (·.actionId) actionId (fun a => change.apply a) d.actions).map
          (·.toActionTerms) = d.actions.map (·.toActionTerms) :=
        updateAt_keeps _ (fun a => apply_actionTerms a change) d.actions
      simpa [Store.apply, Write.action?] using hkeeps
    | _ => simp [Store.apply, Write.action?]

/-- Terms of orders. -/
def orderTerms : Growing OrderTerms where
  rows d := d.orders.map (·.toOrderTerms)
  row? := Write.order?
  apply d w := by
    cases w with
    | markOrder orderId status updatedAt =>
      have hkeeps : (updateAt (·.orderId) orderId (·.mark status updatedAt) d.orders).map (·.toOrderTerms) = d.orders.map (·.toOrderTerms) :=
        updateAt_keeps _ (by intro _; rfl) d.orders
      simpa [Store.apply, Write.order?] using hkeeps
    | _ => simp [Store.apply, Write.order?]

/-- Data of jobs. -/
def jobTerms : Growing JobTerms where
  rows d := d.jobs.map (·.toJobTerms)
  row? := Write.job?
  apply d w := by
    cases w with
    | moveJob jobId state stalls =>
      have hkeeps : (updateAt (·.jobId) jobId (·.move state stalls) d.jobs).map (·.toJobTerms) = d.jobs.map (·.toJobTerms) :=
        updateAt_keeps _ (by intro _; rfl) d.jobs
      simpa [Store.apply, Write.job?] using hkeeps
    | _ => simp [Store.apply, Write.job?]

end LpPlatform.Tables
