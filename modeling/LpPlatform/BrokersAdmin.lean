import LpPlatform.AdminAuth
import LpPlatform.AuditInterceptor

/-!
# Onboarding a broker

A broker is created in an audited transaction: its row, an API key, a login, a
wallet and the entry of its opening balance. The opening balance is checked to
be positive before anything is written and is stored with at most four
decimals, so the entry is positive. Brokers, keys and logins are rows of tables
that no other part of the ledger reads; what may go wrong with them stays.
-/

namespace LpPlatform.BrokersAdmin

open AdminAuth (validated)
open Amounts AuditInterceptor InterferenceLogic JsValues Ledger RowStore Sessions
open StatementProgram Tables

/-- What the schema of a new broker takes from the validator. -/
structure OnboardingConfig where
  /-- `toLowerCase`. -/
  lowerCase : String → String
  /-- The email check of the validator. -/
  isEmail : String → Bool

/-- The body of a new broker, with an opening balance in digits. -/
structure CreateBroker where
  displayName : String
  contactEmail : String
  loginEmail : Option String
  initialBalance : String
  currency : String
  /-- Digits, with up to four decimals. -/
  decimal : isAmount initialBalance = true

/-- A trimmed text of bounded length. -/
def trimmedText (min max : ℕ) (text : String) : Option String :=
  (some (String.ofList (trim text.toList))).filter fun s => min ≤ utf16Length s ∧ utf16Length s ≤ max

/-- An email, trimmed and in lower case. -/
def emailText (K : OnboardingConfig) (text : String) : Option String :=
  (some (K.lowerCase (String.ofList (trim text.toList)))).filter K.isEmail

/-- A text field with a default. -/
def textOr (fallback : String) : Option Json → Option String
  | none => some fallback
  | some value => value.string?

/-- The fields of a body that passes the schema. -/
def createBrokerFields (K : OnboardingConfig) (body : Json) : Option CreateBroker := do
  let displayName ← ((body.field? "displayName").bind Json.string?).bind (trimmedText 2 120)
  let contactEmail ← ((body.field? "contactEmail").bind Json.string?).bind (emailText K)
  let loginEmail ← match body.field? "loginEmail" with
    | none => some none
    | some value => (value.string?.bind (emailText K)).map some
  let initialBalance ← textOr "5000" (body.field? "initialBalance")
  let currency ← match body.field? "currency" with
    | none => some "USD"
    | some value => value.string?.bind (trimmedText 1 8)
  if h : isAmount initialBalance = true then
    some ⟨displayName, contactEmail, loginEmail, initialBalance, currency, h⟩
  else none

/-- `createBrokerSchema`, in its validation pipe. -/
def createBrokerSchema (K : OnboardingConfig) (body : Json) : Except Failure CreateBroker :=
  validated (createBrokerFields K body)

/-- The created broker as it is returned, without its secrets. -/
structure CreatedBroker where
  brokerId : String
  displayName : String
  contactEmail : String
  loginEmail : String
  walletId : String
  currency : String
  balance : String

/-- A row inserted into a table outside the ledger. -/
def insertElsewhere : Program Unit := query fun _ _ => ()

/-- The entry of an opening balance. -/
def openingEntry (brokerId walletId currency : String) (amount : Numeric) (id : ℕ)
    (entryId : String) : LedgerEntry :=
  ⟨id, entryId, walletId, .credit, amount, currency, .deposit, brokerId,
    "Opening balance (broker onboarding)"⟩

/-- `BrokersAdminController.create`. -/
def create (K : OnboardingConfig) (body : Json) (audit : AdminAudit) :
    Program (CreatedBroker × AdminAudit) := do
  let body ← ofExcept (createBrokerSchema K body)
  let amount ← ofExcept (Money.new body.initialBalance)
  ensure (!(amount.isZero || amount.isNegative))
    (.domain "VALIDATION_FAILED" "initialBalance must be > 0" 400)
  let loginEmail := body.loginEmail.getD body.contactEmail
  -- whether the login is taken is up to the users
  let emailTaken ← draw fun i => decide (i.pick % 2 = 1)
  ensure (!emailTaken)
    (.domain "CONFLICT" s!"A user with email {loginEmail} already exists" 409)
  -- a slug of the name with six random digits, and a random key
  let (brokerId, keyPrefix) ← draw fun i => (i.id 0, i.id 1)
  insertElsewhere
  insertElsewhere
  insertElsewhere
  let walletId ← draw (Input.id · 0)
  exec (fun v _ => [.insertWallet ⟨v.seq, walletId, brokerId, body.currency⟩]) fun _ _ => ()
  let openingBalance := amount.toString
  let stored ← ofExcept (Numeric.insert openingBalance)
  exec (fun v i =>
    [.insertEntry (openingEntry brokerId walletId body.currency stored v.seq (i.id 0))]) fun _ _ => ()
  return (⟨brokerId, body.displayName, body.contactEmail, loginEmail, walletId, body.currency,
      openingBalance⟩,
    { audit with
      resourceId := some brokerId
      afterState := some (.obj [("brokerId", .str brokerId), ("displayName", .str body.displayName),
        ("contactEmail", .str body.contactEmail), ("loginEmail", .str loginEmail),
        ("keyPrefix", .str keyPrefix), ("walletId", .str walletId),
        ("currency", .str body.currency), ("openingBalance", .str openingBalance)]) })

/-- The endpoint in the transaction of its audit row. -/
def createBroker (K : OnboardingConfig) (ctx : AdminRequestContext) (body : Json) :
    Program CreatedBroker :=
  runInTx ctx (.ofConfig "broker.create" "broker" none) (create K body)

/-- What an onboarding commits: a wallet, its positive opening balance and the
audit row. -/
inductive Onboarded : List Write → Prop where
  | intro {wallet entryRow audit} (hwallet : entryRow.walletId = wallet.walletId)
      (hamount : 0 < entryRow.amount.units) :
      Onboarded [.insertWallet wallet, .insertEntry entryRow, .insertAudit audit]

/-- The entry is the opening balance of the wallet's broker. -/
inductive Opened : List Write → Prop where
  | intro (wallet : Wallet) {amount : Numeric} {id entryId audit} (hamount : 0 < amount.units) :
      Opened [.insertWallet wallet,
        .insertEntry (openingEntry wallet.brokerId wallet.walletId wallet.currency amount id entryId),
        .insertAudit audit]

theorem onboarded_opened {ws : List Write} (h : Opened ws) : Onboarded ws := by
  cases h with
  | intro wallet hamount => exact .intro rfl hamount

section Rules

variable {C : Contract platform} {t : ℕ} {d : Store} {n : ℕ} {K : OnboardingConfig}

/-- A positive number of at most four decimals is stored as a positive one. -/
theorem insert_passed {m : Money} {x : Numeric} (hpass : (m.isZero || m.isNegative) = false)
    (hscale : m.scale ≤ 4) (h : Numeric.insert m.toString = .ok x) : 0 < x.units := by
  have hpositive : m.isPositive = true := by
    have hpass := hpass
    simp only [Money.isNegative, Bool.or_eq_false_iff] at hpass
    simp only [Money.isPositive, hpass.1, Bool.not_false, Bool.and_true, Bool.not_eq_true']
    simpa [hpass.1] using hpass.2
  have hvalue : (x.units : ℚ) / 10000 = m.value := insert_toString hscale h
  have hunits : (0 : ℚ) < x.units := by
    have hm := (isPositive_iff m).mp hpositive
    rw [← hvalue] at hm
    linarith
  exact_mod_cast hunits

/-- An amount in digits has at most four decimals as money. -/
theorem scale_isAmount {text : String} {m : Money} (h : isAmount text = true)
    (hm : Money.new text = .ok m) : m.scale ≤ 4 := by
  obtain ⟨l, hl, -, hscale⟩ := isAmount_literal h
  obtain rfl := Except.ok.inj ((new_of_literal hl).symm.trans hm)
  exact Nat.le_trans (scale_ofLiteral l) hscale

theorem wp_insertElsewhere {Q : Unit → Assertion Store Write} {E : Failure → Assertion Store Write}
    {T : Txn Store Write} (hE : ∀ e T d n, E e (some T) d n)
    (hQ : ∀ d' n', Q () (some T) d' n') : wp C t insertElsewhere Q E (some T) d n :=
  wp_query hE fun _ _ d' n' _ _ _ => hQ d' n'

/-- An onboarding gets ready to commit its wallet and its opening balance. -/
theorem wp_create_opened {ctx : AdminRequestContext} {body : Json} {audit : AdminAudit} {d₀ : Store}
    (hguar : ∀ v ws, Opened ws → C.guar v ws) :
    wp C t (create K body audit) (fun r => ReadyToCommit C t ctx r.2) InTxn
      (some (.opened false d₀)) d n := by
  have hE : ∀ e T d n, InTxn e (some T) d n := fun _ T _ _ => ⟨T, rfl⟩
  rw [create, bind_eq, wp_bind]
  refine wp_ofExcept (fun _ _ => hE _ _ _ _) fun fields _ => ?_
  rw [bind_eq, wp_bind]
  refine wp_ofExcept (fun _ _ => hE _ _ _ _) fun amount hamount => ?_
  rw [bind_eq, wp_bind]
  refine wp_ensure (fun _ => hE _ _ _ _) fun hpass => ?_
  simp only [bind_eq]
  rw [wp_bind]
  refine wp_query hE fun v₁ i₁ d₁ n₁ _ _ _ => ?_
  rw [wp_bind]
  refine wp_ensure (fun _ => hE _ _ _ _) fun _ => ?_
  rw [wp_bind]
  refine wp_query hE fun v₂ i₂ d₂ n₂ _ _ _ => ?_
  rw [wp_bind]
  refine wp_insertElsewhere hE fun d₃ n₃ => ?_
  rw [wp_bind]
  refine wp_insertElsewhere hE fun d₄ n₄ => ?_
  rw [wp_bind]
  refine wp_insertElsewhere hE fun d₅ n₅ => ?_
  rw [wp_bind]
  refine wp_query hE fun v₆ i₆ d₆ n₆ _ _ _ => ?_
  rw [wp_bind]
  refine wp_exec hE fun v₇ i₇ d₇ n₇ _ _ _ _ => ?_
  rw [wp_bind]
  refine wp_ofExcept (fun _ _ => hE _ _ _ _) fun stored hstored => ?_
  rw [wp_bind]
  refine wp_exec hE fun v₈ i₈ d₈ n₈ _ _ _ _ => ?_
  refine ⟨_, rfl, rfl, fun id auditId d₉ n₉ v₉ _ _ _ _ _ _ => hguar v₉ _ ?_⟩
  have hpositive := insert_passed (by simpa using hpass) (scale_isAmount fields.decimal hamount) hstored
  simp only [add_writes, Txn.opened, List.nil_append, List.cons_append]
  exact .intro ⟨_, _, _, _⟩ hpositive

/-- An onboarding gets ready to commit its wallet and its entry. -/
theorem wp_create {ctx : AdminRequestContext} {body : Json} {audit : AdminAudit} {d₀ : Store}
    (hguar : ∀ v ws, Onboarded ws → C.guar v ws) :
    wp C t (create K body audit) (fun r => ReadyToCommit C t ctx r.2) InTxn
      (some (.opened false d₀)) d n :=
  wp_create_opened fun v ws h => hguar v ws (onboarded_opened h)

/-- Onboarding keeps a contract that allows what it opens. -/
theorem keeps_createBroker_opened {ctx : AdminRequestContext} {body : Json}
    (hguar : ∀ v ws, Opened ws → C.guar v ws) : C.Keeps t (createBroker K ctx body) none d n :=
  keeps_runInTx fun _ _ _ _ => wp_create_opened hguar

/-- Onboarding keeps the contract. -/
theorem keeps_createBroker {ctx : AdminRequestContext} {body : Json}
    (hguar : ∀ v ws, Onboarded ws → C.guar v ws) :
    C.Keeps t (createBroker K ctx body) none d n :=
  keeps_runInTx fun _ _ _ _ => wp_create hguar

end Rules

end LpPlatform.BrokersAdmin
