import LpPlatform.DepositsAdmin

/-!
# Funding requests of brokers

A broker files deposit and withdrawal requests, each in statements of their
own outside any transaction. A withdrawal is capped at the balance above the
locked floor, summed over all wallets of the broker in doubles, at the moment
it is filed. Filing only ever inserts one pending request.
-/

namespace LpPlatform.BrokerPortal

open Amounts AuditInterceptor DecimalText DepositsAdmin InterferenceLogic JsValues Ledger RowStore
open Sessions StatementProgram Tables

/-- The role of a user. -/
inductive UserRole where
  | brokerUser
  | lpAdmin
  | lpOperator
  | lpReadonly
  deriving DecidableEq, Repr

/-- The authenticated user. -/
structure CurrentUser where
  userId : String
  email : String
  role : UserRole
  brokerId : Option String

/-- The broker a user acts for. -/
def scope (user : Option CurrentUser) (requested : Option String) : Except Failure String :=
  match user with
  | none => .error (.domain "AUTH_FORBIDDEN" "No user" 403)
  | some user =>
    if user.role = .brokerUser then
      match user.brokerId.filter (· ≠ "") with
      | some brokerId => .ok brokerId
      | none => .error (.domain "AUTH_FORBIDDEN" "User missing brokerId" 403)
    else
      match requested.filter (· ≠ "") with
      | some brokerId => .ok brokerId
      | none => .error (.domain "VALIDATION_FAILED" "brokerId is required for LP roles" 400)

/-- The body of a funding request. -/
structure CreateDeposit where
  amount : String
  method : String
  reference : Option String
  note : Option String

/-- An optional text, trimmed, of bounded length. -/
def optionalText (max : ℕ) : Option Json → Option (Option String)
  | none => some none
  | some (.str s) =>
    let trimmed := String.ofList (trim s.toList)
    if utf16Length trimmed ≤ max then some (some trimmed) else none
  | some _ => none

/-- How a broker pays. -/
def methods : List String := ["card", "bank", "upi", "crypto", "manual"]

/-- The method field, with its default. -/
def methodField : Option Json → Option String
  | none => some "manual"
  | some (.str m) => if m ∈ methods then some m else none
  | some _ => none

/-- The fields of a body that passes the schema. -/
def createDepositFields (body : Json) : Option CreateDeposit := do
  let amount ← (body.field? "amount").bind Json.string?
  if isAmount amount then
    let method ← methodField (body.field? "method")
    let reference ← optionalText 200 (body.field? "reference")
    let note ← optionalText 500 (body.field? "note")
    some ⟨amount, method, reference, note⟩
  else none

/-- `createDepositSchema`, in its validation pipe. -/
def createDepositSchema (body : Json) : Except Failure CreateDeposit :=
  match createDepositFields body with
  | some fields => .ok fields
  | none => .error (.domain "VALIDATION_FAILED" "Validation failed" 400)

/-- `LedgerRepository.findWalletsByBroker`. -/
def findWalletsByBroker (brokerId : String) : Program (List Wallet) :=
  query fun v i => anyOrder (v.own.wallets.filter fun w => w.brokerId = brokerId) i.pick

/-- The balances of some wallets, added up in doubles. -/
def addBalances : List Wallet → ℚ → Program ℚ
  | [], balance => return balance
  | w :: wallets, balance => do
    let text ← getBalance w.walletId
    addBalances wallets (toDouble (balance + number text))

/-- A funding request as the portal returns it. -/
structure DepositDto where
  requestId : String
  kind : String
  amount : String
  currency : String
  method : String
  reference : Option String
  note : Option String
  status : String
  createdAt : String
  decidedAt : Option String

/-- `mapDeposit`. -/
def mapDeposit (r : DepositRequest) : DepositDto :=
  ⟨r.requestId, kindText r.kind, r.amount.text, r.currency, r.method, r.reference, r.note,
    statusText r.status, toISOString r.createdAt, r.decidedAt.map toISOString⟩

/-- Insert a pending request and read it back. -/
def fileRequest (kind : RequestKind) (brokerId currency : String) (body : CreateDeposit)
    (missing : String) : Program DepositDto := do
  let requestId ← draw fun i => i.id 0
  let amount ← ofExcept (Numeric.insert body.amount)
  exec (fun v i => [.insertRequest ⟨⟨v.seq, requestId, kind, brokerId, amount, currency,
    body.method, body.reference, body.note, i.now⟩, .pending, none, none⟩]) fun _ _ => ()
  let found ← query fun v i => anyRow (rowsAt (·.requestId) requestId v.own.requests) i.pick
  match found with
  | some created => return mapDeposit created
  | none => .throw (.domain "INTERNAL_ERROR" missing 500)

/-- `BrokerPortalController.createDepositRequest`. -/
def createDepositRequest (user : Option CurrentUser) (body : Json) : Program DepositDto := do
  let body ← ofExcept (createDepositSchema body)
  let brokerId ← ofExcept (scope user none)
  let walletsOf ← findWalletsByBroker brokerId
  let currency := (walletsOf.head?.map (·.currency)).getD "USD"
  fileRequest .deposit brokerId currency body "Deposit request not persisted"

/-- `BrokerPortalController.createWithdrawalRequest`, under a locked floor. -/
def createWithdrawalRequest (floor : JsNumber) (user : Option CurrentUser) (body : Json) :
    Program DepositDto := do
  let body ← ofExcept (createDepositSchema body)
  let brokerId ← ofExcept (scope user none)
  let walletsOf ← findWalletsByBroker brokerId
  let currency := (walletsOf.head?.map (·.currency)).getD "USD"
  let balance ← addBalances walletsOf 0
  let avail := max 0 (toDouble (balance - floor.value))
  let amount := number body.amount
  ensure (amount ≤ toDouble (avail + toDouble (1 / 10 ^ 9)))
    (.domain "VALIDATION_FAILED" (s!"Only {toFixed avail 2} {currency} is withdrawable" ++
      s!" (balance above the {floor.text} floor).") 400)
  fileRequest .withdrawal brokerId currency body "Withdrawal request not persisted"

section Rules

variable {C : Contract platform} {t : ℕ} {d : Store} {n : ℕ}

/-- Filing commits one pending request at most. -/
theorem keeps_fileRequest {kind : RequestKind} {brokerId currency missing : String}
    {body : CreateDeposit}
    (hguar : ∀ v row, row.status = .pending → C.guar v [.insertRequest row]) :
    C.Keeps t (fileRequest kind brokerId currency body missing) none d n := by
  rw [Contract.Keeps, fileRequest, bind_eq, wp_bind]
  refine wp_query_auto (fun _ _ _ => trivial) fun v i d₁ n₁ _ _ _ => ?_
  rw [bind_eq, wp_bind]
  refine wp_ofExcept (fun _ _ => trivial) fun amount _ => ?_
  rw [bind_eq, wp_bind]
  refine wp_exec_auto (fun _ _ _ => trivial) (fun v i d' n' _ _ _ _ _ => hguar v _ rfl)
    fun v i d' n' _ _ _ _ => ?_
  rw [bind_eq, wp_bind]
  refine wp_query_auto (fun _ _ _ => trivial) fun v i d₂ n₂ _ _ _ => ?_
  cases anyRow (rowsAt (·.requestId) _ v.own.requests) i.pick <;> trivial

/-- Adding up balances commits nothing. -/
theorem wp_addBalances {Q : ℚ → Assertion Store Write} {E : Failure → Assertion Store Write}
    (hE : ∀ e d n, E e none d n) (hQ : ∀ balance d n, Q balance none d n) (wallets : List Wallet)
    (balance : ℚ) : wp C t (addBalances wallets balance) Q E none d n := by
  induction wallets generalizing balance d n with
  | nil => exact hQ balance d n
  | cons w wallets ih =>
    rw [addBalances, bind_eq, wp_bind]
    exact wp_query_auto hE fun v i d' n' _ _ _ => ih _

/-- A deposit request keeps a contract that allows pending requests. -/
theorem keeps_createDepositRequest {user : Option CurrentUser} {body : Json}
    (hguar : ∀ v row, row.status = .pending → C.guar v [.insertRequest row]) :
    C.Keeps t (createDepositRequest user body) none d n := by
  rw [Contract.Keeps, createDepositRequest, bind_eq, wp_bind]
  refine wp_ofExcept (fun _ _ => trivial) fun fields _ => ?_
  rw [bind_eq, wp_bind]
  refine wp_ofExcept (fun _ _ => trivial) fun brokerId _ => ?_
  rw [bind_eq, wp_bind]
  exact wp_query_auto (fun _ _ _ => trivial) fun v i d' n' _ _ _ => keeps_fileRequest hguar

/-- So does a withdrawal request. -/
theorem keeps_createWithdrawalRequest {floor : JsNumber} {user : Option CurrentUser} {body : Json}
    (hguar : ∀ v row, row.status = .pending → C.guar v [.insertRequest row]) :
    C.Keeps t (createWithdrawalRequest floor user body) none d n := by
  rw [Contract.Keeps, createWithdrawalRequest, bind_eq, wp_bind]
  refine wp_ofExcept (fun _ _ => trivial) fun fields _ => ?_
  rw [bind_eq, wp_bind]
  refine wp_ofExcept (fun _ _ => trivial) fun brokerId _ => ?_
  rw [bind_eq, wp_bind]
  refine wp_query_auto (fun _ _ _ => trivial) fun v i d' n' _ _ _ => ?_
  simp only [bind_eq]
  rw [wp_bind]
  refine wp_addBalances (fun _ _ _ => trivial) (fun balance d n => ?_) _ 0
  rw [wp_bind]
  exact wp_ensure (fun _ => trivial) fun _ => keeps_fileRequest hguar

end Rules

end LpPlatform.BrokerPortal
