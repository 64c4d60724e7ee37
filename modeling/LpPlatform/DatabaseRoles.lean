import Mathlib.Data.List.Basic
import Mathlib.Logic.Function.Basic

/-!
# Roles and guards of the database

Who may do what to a table is decided by its owner, by what has been granted to
the role or to everyone, and by triggers that stop an update or a removal
whoever asks for it. The statements here are those of the migrations, and what
a session of any role can try besides. The migrations give the rights of the
application and of its readers, take the right to change three tables away
again, and set a trigger on each of the three.
-/

namespace LpPlatform.DatabaseRoles

inductive Schema where
  | trading
  | ledger
  | audit
  | market
  | auth
  | admin
  deriving DecidableEq

/-- The superuser, the owner of the database, the application and the
readers. -/
inductive Role where
  | postgres
  | lpOwner
  | lpApp
  | lpReadonly
  deriving DecidableEq

/-- The roles that the application and its readers connect as. -/
def Role.Runtime (r : Role) : Prop := r = .lpApp ∨ r = .lpReadonly

instance (r : Role) : Decidable r.Runtime := inferInstanceAs (Decidable (_ ∨ _))

/-- Whom a right is granted to. -/
inductive Grantee where
  | role (r : Role)
  | everyone
  deriving DecidableEq

inductive Table where
  | brokers
  | apiKeys
  | users
  | sessions
  | adminSessions
  | orders
  | trades
  | charges
  | wallets
  | ledgerEntries
  | depositRequests
  | auditLogs
  | instruments
  | ticks
  | pendingActions
  deriving DecidableEq

def Table.schema : Table → Schema
  | brokers | apiKeys | users | sessions | adminSessions => .auth
  | orders | trades | charges => .trading
  | wallets | ledgerEntries | depositRequests => .ledger
  | auditLogs => .audit
  | instruments | ticks => .market
  | pendingActions => .admin

def Table.name : Table → String
  | brokers => "brokers"
  | apiKeys => "api_keys"
  | users => "users"
  | sessions => "sessions"
  | adminSessions => "admin_sessions"
  | orders => "orders"
  | trades => "trades"
  | charges => "charges"
  | wallets => "wallets"
  | ledgerEntries => "ledger_entries"
  | depositRequests => "deposit_requests"
  | auditLogs => "audit_logs"
  | instruments => "instruments"
  | ticks => "ticks"
  | pendingActions => "pending_actions"

inductive Privilege where
  | select
  | insert
  | update
  | delete
  | truncate
  deriving DecidableEq

/-- What a trigger function does. -/
inductive FunctionBody where
  /-- It raises an exception, with a message made of the name of the table. -/
  | raises (message : String → String)
  | returns

def FunctionBody.Raises : FunctionBody → Bool
  | raises _ => true
  | returns => false

structure Function where
  owner : Role
  body : FunctionBody

/-- A trigger that fires before a row is changed. -/
structure Trigger where
  name : String
  table : Table
  onUpdate : Bool
  onDelete : Bool
  function : String
  deriving DecidableEq

/-- What the database knows besides rows. -/
structure Catalog where
  schemaOwner : Schema → Option Role
  /-- No owner means no table. -/
  owner : Table → Option Role
  columns : List (Table × String)
  usage : Grantee → Schema → Bool
  granted : Grantee → Privilege → Table → Bool
  /-- What a table made by a role in a schema starts with. -/
  defaults : Role → Schema → Grantee → Privilege → Bool
  functions : String → Option Function
  triggers : List Trigger

structure Database (ρ : Type) where
  catalog : Catalog
  rows : Table → List ρ

inductive SqlError where
  | undefinedSchema
  | undefinedTable
  | undefinedFunction
  | duplicateTrigger
  | permissionDenied
  | mustBeOwner
  | raised (message : String)
  deriving DecidableEq

/-- A statement, over rows of any kind. -/
inductive Statement (ρ : Type) where
  /-- `CREATE SCHEMA IF NOT EXISTS`. -/
  | createSchema (s : Schema)
  /-- `CREATE TABLE IF NOT EXISTS`. -/
  | createTable (t : Table)
  | dropTable (t : Table)
  /-- `ALTER TABLE ... ADD COLUMN IF NOT EXISTS`, and what it makes of a row. -/
  | addColumn (t : Table) (name : String) (fill : ρ → ρ)
  | grantUsage (ss : List Schema) (g : Grantee)
  /-- `GRANT ... ON ALL TABLES IN SCHEMA`. -/
  | grantAll (ps : List Privilege) (ss : List Schema) (g : Grantee)
  | grant (ps : List Privilege) (t : Table) (g : Grantee)
  /-- `ALTER DEFAULT PRIVILEGES IN SCHEMA ... GRANT`. -/
  | alterDefault (ps : List Privilege) (ss : List Schema) (g : Grantee)
  | revoke (ps : List Privilege) (t : Table) (g : Grantee)
  /-- `CREATE OR REPLACE FUNCTION`, in the schema of the trades. -/
  | createFunction (name : String) (body : FunctionBody)
  /-- `DROP TRIGGER IF EXISTS`. -/
  | dropTrigger (name : String) (t : Table)
  | createTrigger (trigger : Trigger)
  | select (t : Table)
  | insert (t : Table) (new : List ρ)
  | update (t : Table) (which : ρ → Bool) (change : ρ → ρ)
  | delete (t : Table) (which : ρ → Bool)
  | truncate (t : Table)

/-- The role is the owner of what has an owner, or passes for it. -/
def owns (r : Role) (owner : Option Role) : Bool := r = .postgres || owner = some r

/-- The role may look into the schema. -/
def enters (c : Catalog) (r : Role) (s : Schema) : Bool :=
  owns r (c.schemaOwner s) || c.usage (.role r) s || c.usage .everyone s

/-- The role has a right on the table. -/
def may (c : Catalog) (r : Role) (p : Privilege) (t : Table) : Bool :=
  r = .postgres || (enters c r t.schema &&
    (c.owner t = some r || c.granted (.role r) p t || c.granted .everyone p t))

/-- The message of the first trigger that stops a change of a row. -/
def stopped (c : Catalog) (t : Table) (fires : Trigger → Bool) : Option String :=
  (c.triggers.filter fun trigger => trigger.table = t && fires trigger).findSome? fun trigger =>
    match c.functions trigger.function with
    | some ⟨_, .raises message⟩ => some (message t.name)
    | _ => none

/-- A catalog with more granted. -/
def Catalog.grant (c : Catalog) (g : Grantee) (ps : List Privilege) (ts : Table → Bool) : Catalog :=
  { c with granted := fun g' p t => c.granted g' p t || (g' = g && decide (p ∈ ps) && ts t) }

/-- Rows of one table replaced. -/
def Database.setRows {ρ : Type} (d : Database ρ) (t : Table) (rows : List ρ) : Database ρ :=
  { d with rows := Function.update d.rows t rows }

/-- The tables of some schemas. -/
def tablesIn (c : Catalog) (ss : List Schema) (t : Table) : Bool :=
  (c.owner t).isSome && decide (t.schema ∈ ss)

def allTables : List Table :=
  [.brokers, .apiKeys, .users, .sessions, .adminSessions, .orders, .trades, .charges, .wallets,
    .ledgerEntries, .depositRequests, .auditLogs, .instruments, .ticks, .pendingActions]

/-- What is asked of a statement that needs something there and a right to it. -/
theorem passes_iff {ε : Type} {missing right : Bool} {e e' : ε} :
    (if missing then some e else if right then none else some e') = none ↔ missing = false ∧ right = true := by
  cases missing <;> cases right <;> simp

/-- What is asked of a change of rows, which a trigger may stop besides. -/
theorem change_iff {ε : Type} {missing right : Bool} {stop : Option ε} {e e' : ε} :
    (if missing then some e else if !right then some e' else stop) = none ↔
      missing = false ∧ right = true ∧ stop = none := by
  cases missing <;> cases right <;> simp

/-- Why a statement is refused in a session of a role. -/
def refusal {ρ : Type} (r : Role) (d : Database ρ) : Statement ρ → Option SqlError
  | .createSchema _ => if r.Runtime then some .permissionDenied else none
  | .createTable t =>
    if (d.catalog.schemaOwner t.schema).isNone then some .undefinedSchema
    else if owns r (d.catalog.schemaOwner t.schema) then none else some .permissionDenied
  | .dropTable t | .addColumn t _ _ =>
    if (d.catalog.owner t).isNone then some .undefinedTable
    else if owns r (d.catalog.owner t) then none else some .mustBeOwner
  | .grantUsage ss _ =>
    if ss.any fun s => (d.catalog.schemaOwner s).isNone then some .undefinedSchema
    else if ss.all fun s => owns r (d.catalog.schemaOwner s) then none else some .permissionDenied
  | .grantAll _ ss _ =>
    if allTables.all fun t => !tablesIn d.catalog ss t || owns r (d.catalog.owner t) then none
    else some .permissionDenied
  | .grant _ t _ | .revoke _ t _ =>
    if (d.catalog.owner t).isNone then some .undefinedTable
    else if owns r (d.catalog.owner t) then none else some .permissionDenied
  | .alterDefault _ _ _ => none
  | .createFunction name _ =>
    if !owns r (d.catalog.schemaOwner .trading) then some .permissionDenied
    else if (d.catalog.functions name).all fun f => owns r (some f.owner) then none else some .mustBeOwner
  | .dropTrigger name t =>
    if (d.catalog.triggers.any fun trigger => trigger.name = name && trigger.table = t) &&
      !owns r (d.catalog.owner t) then some .mustBeOwner else none
  | .createTrigger trigger =>
    if (d.catalog.owner trigger.table).isNone then some .undefinedTable
    else if !owns r (d.catalog.owner trigger.table) then some .permissionDenied
    else if (d.catalog.functions trigger.function).isNone then some .undefinedFunction
    else if d.catalog.triggers.any fun other => other.name = trigger.name && other.table = trigger.table then
      some .duplicateTrigger
    else none
  | .select t =>
    if (d.catalog.owner t).isNone then some .undefinedTable
    else if may d.catalog r .select t then none else some .permissionDenied
  | .insert t _ =>
    if (d.catalog.owner t).isNone then some .undefinedTable
    else if may d.catalog r .insert t then none else some .permissionDenied
  | .update t which _ =>
    if (d.catalog.owner t).isNone then some .undefinedTable
    else if !may d.catalog r .update t then some .permissionDenied
    else if (d.rows t).any which then (stopped d.catalog t Trigger.onUpdate).map .raised else none
  | .delete t which =>
    if (d.catalog.owner t).isNone then some .undefinedTable
    else if !may d.catalog r .delete t then some .permissionDenied
    else if (d.rows t).any which then (stopped d.catalog t Trigger.onDelete).map .raised else none
  | .truncate t =>
    if (d.catalog.owner t).isNone then some .undefinedTable
    else if may d.catalog r .truncate t then none else some .permissionDenied

/-- The database after a statement that is not refused. -/
def effect {ρ : Type} (r : Role) (d : Database ρ) : Statement ρ → Database ρ
  | .createSchema s =>
    if (d.catalog.schemaOwner s).isSome then d
    else { d with catalog := { d.catalog with
      schemaOwner := Function.update d.catalog.schemaOwner s (some r) } }
  | .createTable t =>
    if (d.catalog.owner t).isSome then d
    else { d.setRows t [] with catalog := { d.catalog with
      owner := Function.update d.catalog.owner t (some r)
      granted := fun g p t' => if t' = t then d.catalog.defaults r t.schema g p else d.catalog.granted g p t' } }
  | .dropTable t => { d.setRows t [] with catalog := { d.catalog with
      owner := Function.update d.catalog.owner t none
      triggers := d.catalog.triggers.filter fun trigger => trigger.table ≠ t } }
  | .addColumn t name fill =>
    if (t, name) ∈ d.catalog.columns then d
    else { d.setRows t ((d.rows t).map fill) with catalog := { d.catalog with
      columns := d.catalog.columns ++ [(t, name)] } }
  | .grantUsage ss g => { d with catalog := { d.catalog with
      usage := fun g' s => d.catalog.usage g' s || (g' = g && decide (s ∈ ss)) } }
  | .grantAll ps ss g => { d with catalog := d.catalog.grant g ps (tablesIn d.catalog ss) }
  | .grant ps t g => { d with catalog := d.catalog.grant g ps fun t' => t' = t }
  | .alterDefault ps ss g => { d with catalog := { d.catalog with
      defaults := fun r' s g' p => d.catalog.defaults r' s g' p ||
        (r' = r && decide (s ∈ ss) && g' = g && decide (p ∈ ps)) } }
  | .revoke ps t g => { d with catalog := { d.catalog with
      granted := fun g' p t' => d.catalog.granted g' p t' && !(g' = g && decide (p ∈ ps) && t' = t) } }
  | .createFunction name body => { d with catalog := { d.catalog with
      functions := Function.update d.catalog.functions name
        (some ⟨((d.catalog.functions name).map (·.owner)).getD r, body⟩) } }
  | .dropTrigger name t => { d with catalog := { d.catalog with
      triggers := d.catalog.triggers.filter fun trigger => !(trigger.name = name && trigger.table = t) } }
  | .createTrigger trigger => { d with catalog := { d.catalog with
      triggers := d.catalog.triggers ++ [trigger] } }
  | .select _ => d
  | .insert t new => d.setRows t (d.rows t ++ new)
  | .update t which change => d.setRows t ((d.rows t).map fun row => if which row then change row else row)
  | .delete t which => d.setRows t ((d.rows t).filter fun row => !which row)
  | .truncate t => d.setRows t []

/-- What a statement does in a session of a role. -/
def exec {ρ : Type} (r : Role) (d : Database ρ) (stmt : Statement ρ) : Except SqlError (Database ρ) :=
  match refusal r d stmt with
  | some e => .error e
  | none => .ok (effect r d stmt)

theorem exec_ok {ρ : Type} {r : Role} {d d' : Database ρ} {stmt : Statement ρ} :
    exec r d stmt = .ok d' ↔ refusal r d stmt = none ∧ effect r d stmt = d' := by
  cases h : refusal r d stmt <;> simp [exec, h]

/-- The statements of a transaction, up to the first that fails. -/
def execAll {ρ : Type} (r : Role) (d : Database ρ) : List (Statement ρ) → Except SqlError (Database ρ)
  | [] => .ok d
  | stmt :: rest =>
    match exec r d stmt with
    | .ok next => execAll r next rest
    | .error e => .error e

/-- The database after a transaction: a statement that fails takes back all
that went before it. -/
def transact {ρ : Type} (r : Role) (stmts : List (Statement ρ)) (d : Database ρ) : Database ρ :=
  match execAll r d stmts with
  | .ok next => next
  | .error _ => d

section Migrations

variable {ρ : Type}

def schemas : List Schema := [.trading, .ledger, .audit, .market, .auth, .admin]

/-- `migrations/0000_init.sql`. -/
def init : List (Statement ρ) :=
  schemas.map Statement.createSchema ++
    [.createTable .brokers, .createTable .apiKeys, .createTable .users, .createTable .sessions,
      .createTable .adminSessions, .createTable .orders, .createTable .trades, .createTable .charges,
      .createTable .wallets, .createTable .ledgerEntries, .createTable .auditLogs,
      .createTable .instruments, .createTable .ticks, .createTable .pendingActions]

/-- The function that stops every change. -/
def blockMutations : String := "trading.fn_block_mutations"

/-- What the function says. -/
def blockMessage (table : String) : String := "Append-only table " ++ table ++ ", mutation forbidden"

/-- The trigger of a table that is only appended to. -/
def blockTrigger (name : String) (t : Table) : Trigger where
  name := name
  table := t
  onUpdate := true
  onDelete := true
  function := blockMutations

/-- `migrations/security/0001_security.sql`. -/
def security : List (Statement ρ) :=
  [.grantUsage schemas (.role .lpApp), .grantUsage schemas (.role .lpReadonly),
    .grantAll [.select, .insert, .update, .delete] schemas (.role .lpApp),
    .grantAll [.select] schemas (.role .lpReadonly),
    .alterDefault [.select, .insert, .update, .delete] schemas (.role .lpApp),
    .alterDefault [.select] schemas (.role .lpReadonly),
    .revoke [.update, .delete] .trades (.role .lpApp),
    .revoke [.update, .delete] .ledgerEntries (.role .lpApp),
    .revoke [.update, .delete] .auditLogs (.role .lpApp),
    .revoke [.update, .delete] .trades .everyone,
    .revoke [.update, .delete] .ledgerEntries .everyone,
    .revoke [.update, .delete] .auditLogs .everyone,
    .createFunction blockMutations (.raises blockMessage),
    .dropTrigger "trg_trades_block_mutations" .trades,
    .createTrigger (blockTrigger "trg_trades_block_mutations" .trades),
    .dropTrigger "trg_ledger_block_mutations" .ledgerEntries,
    .createTrigger (blockTrigger "trg_ledger_block_mutations" .ledgerEntries),
    .dropTrigger "trg_audit_block_mutations" .auditLogs,
    .createTrigger (blockTrigger "trg_audit_block_mutations" .auditLogs)]

/-- `migrations/security/0002_deposit_requests.sql`. -/
def depositRequests : List (Statement ρ) :=
  [.createTable .depositRequests,
    .grant [.select, .insert, .update] .depositRequests (.role .lpApp),
    .grant [.select] .depositRequests (.role .lpReadonly)]

/-- `migrations/security/0003_order_client_user_id.sql`. -/
def orderClientUserId (fill : ρ → ρ) : List (Statement ρ) := [.addColumn .orders "client_user_id" fill]

/-- `migrations/security/0004_request_kind.sql`. -/
def requestKind (fill : ρ → ρ) : List (Statement ρ) := [.addColumn .depositRequests "kind" fill]

/-- The files that `migrate.ts` applies, each as one query and so as one
transaction. -/
def migrations (userId kind : ρ → ρ) : List (List (Statement ρ)) :=
  [init, security, depositRequests, orderClientUserId userId, requestKind kind]

end Migrations

end LpPlatform.DatabaseRoles
