import LpPlatform.AdminAuth
import LpPlatform.BrokerPortal

/-!
# The users of both portals

Admins and brokers' users are rows of one table. Here are all its columns that
some endpoint reads or writes, beside the admin sessions and the audit rows.
The part of a row that admin sign-in works on is a part of the row, and what
admin sign-in writes is written here.
-/

namespace LpPlatform.UserDirectory

open AdminTables BrokerPortal JsValues RowStore Tables

/-- A row of `auth.users`. -/
structure UserAccount extends UserRow where
  displayName : String
  role : UserRole
  brokerId : Option String
  mustChangePassword : Bool
  deriving DecidableEq

/-- All rows of the tables. -/
structure Directory where
  users : List UserAccount
  sessions : List AdminSessionRow
  audits : List AuditLog

/-- Columns of a user that a statement sets. -/
inductive AccountChange where
  | signIn (change : UserChange)
  | suspend (suspendedAt : Instant)
  | resetTotp
  deriving DecidableEq

/-- The user with the columns set. -/
def AccountChange.apply (u : UserAccount) : AccountChange → UserAccount
  | .signIn change => { u with toUserRow := change.apply u.toUserRow }
  | .suspend at_ => { u with suspendedAt := some at_ }
  | .resetTotp => { u with totpSecretEnc := none, totpVerifiedAt := none, recoveryCodesHash := none }

/-- One row inserted or changed. -/
inductive DirectoryWrite where
  | insertUser (row : UserAccount)
  | changeUser (userId : String) (change : AccountChange)
  | insertSession (row : AdminSessionRow)
  | changeSession (sessionId : String) (change : SessionChange)
  | insertAudit (row : AuditLog)

/-- The tables after one write. -/
def Directory.apply (d : Directory) : DirectoryWrite → Directory
  | .insertUser row => { d with users := d.users ++ [row] }
  | .changeUser userId change =>
    { d with users := updateAt (fun u => u.userId) userId (fun u => change.apply u) d.users }
  | .insertSession row => { d with sessions := d.sessions ++ [row] }
  | .changeSession sessionId change =>
    { d with sessions := updateAt (·.sessionId) sessionId (fun s => change.apply s) d.sessions }
  | .insertAudit row => { d with audits := d.audits ++ [row] }

/-- The unique keys of the tables. -/
inductive DirectoryKey where
  | user (userId : String)
  | email (email : String)
  | session (sessionId : String)
  | audit (auditId : String)
  deriving DecidableEq

/-- Unique keys of the row a write inserts or changes. -/
def DirectoryWrite.keys : DirectoryWrite → List DirectoryKey
  | .insertUser row => [.user row.userId, .email row.email]
  | .changeUser userId _ => [.user userId]
  | .insertSession row => [.session row.sessionId]
  | .changeSession sessionId _ => [.session sessionId]
  | .insertAudit row => [.audit row.auditId]

/-- The addresses of the users, of which no statement changes one. -/
def Directory.emails (d : Directory) : List String := d.users.map fun u => u.email

/-- The rows stored under a unique key, or the uses of an address. -/
def Directory.slice (d : Directory) : DirectoryKey → Directory × List String
  | .user k => (⟨rowsAt (fun u => u.userId) k d.users, [], []⟩, [])
  | .email k => (⟨[], [], []⟩, rowsAt id k d.emails)
  | .session k => (⟨[], rowsAt (·.sessionId) k d.sessions, []⟩, [])
  | .audit k => (⟨[], [], rowsAt (·.auditId) k d.audits⟩, [])

/-- A write violates no unique key. -/
def Directory.valid (d : Directory) : DirectoryWrite → Bool
  | .insertUser row =>
    (rowsAt (fun u => u.userId) row.userId d.users).isEmpty && (rowsAt id row.email d.emails).isEmpty
  | .insertSession row => (rowsAt (·.sessionId) row.sessionId d.sessions).isEmpty
  | .insertAudit row => (rowsAt (·.auditId) row.auditId d.audits).isEmpty
  | _ => true

@[simp] theorem account_userId (u : UserAccount) (change : AccountChange) :
    (change.apply u).userId = u.userId := by
  cases change with
  | signIn change => exact apply_userId u.toUserRow change
  | suspend at_ => rfl
  | resetTotp => rfl

@[simp] theorem account_email (u : UserAccount) (change : AccountChange) :
    (change.apply u).email = u.email := by
  cases change with
  | signIn change => cases change <;> rfl
  | suspend at_ => rfl
  | resetTotp => rfl

@[simp] theorem account_adminRole (u : UserAccount) (change : AccountChange) :
    (change.apply u).adminRole = u.adminRole := by
  cases change with
  | signIn change => cases change <;> rfl
  | suspend at_ => rfl
  | resetTotp => rfl

/-- A change of columns leaves the addresses. -/
theorem emails_changeUser (d : Directory) (userId : String) (change : AccountChange) :
    (d.apply (.changeUser userId change)).emails = d.emails :=
  updateAt_keeps (fun u : UserAccount => u.email) (fun u => account_email u change) d.users

/-- The tables as a store of keyed rows. No transaction on them is
serializable. -/
def directory : KeyedRows Directory DirectoryWrite DirectoryKey where
  Slice := Directory × List String
  slice := Directory.slice
  apply := Directory.apply
  keys := DirectoryWrite.keys
  valid := Directory.valid
  clash _ _ := false
  slice_other d w k h := by
    cases w <;> cases k <;> try rfl
    all_goals
      simp only [DirectoryWrite.keys, List.mem_cons, List.not_mem_nil, or_false,
        DirectoryKey.user.injEq, DirectoryKey.email.injEq, DirectoryKey.session.injEq,
        DirectoryKey.audit.injEq, reduceCtorEq, false_or] at h
      simp only [Directory.apply, Directory.slice, Prod.mk.injEq, Directory.mk.injEq, and_true, true_and]
    case insertUser.user => exact rowsAt_insert_other _ (Ne.symm h)
    case insertUser.email row k =>
      rw [Directory.emails, List.map_append]
      exact rowsAt_insert_other _ (Ne.symm h)
    case changeUser.user => exact rowsAt_updateAt_other _ (fun u => account_userId u _) (Ne.symm h)
    case changeUser.email => exact congrArg (rowsAt id _) (emails_changeUser d _ _)
    case insertSession.session => exact rowsAt_insert_other _ (Ne.symm h)
    case changeSession.session =>
      exact rowsAt_updateAt_other _ (fun s => apply_sessionId s _) (Ne.symm h)
    case insertAudit.audit => exact rowsAt_insert_other _ (Ne.symm h)
  slice_congr d d' w h k hk := by
    have hslice := h k hk
    cases w <;> simp only [DirectoryWrite.keys, List.mem_cons, List.not_mem_nil, or_false] at hk
    case insertUser row =>
      rcases hk with rfl | rfl <;>
        simp only [Directory.slice, Prod.mk.injEq, Directory.mk.injEq, and_true, true_and] at hslice
      · simp only [Directory.apply, Directory.slice, rowsAt_insert, hslice]
      · simp only [Directory.apply, Directory.slice, Directory.emails, List.map_append, List.map_cons,
          List.map_nil, rowsAt_insert] at hslice ⊢
        rw [hslice]
    all_goals
      subst hk
      simp only [Directory.slice, Prod.mk.injEq, Directory.mk.injEq, and_true, true_and] at hslice
      simp only [Directory.apply, Directory.slice, Prod.mk.injEq, Directory.mk.injEq, and_true, true_and]
    case changeUser => exact updateAt_congr (fun u => account_userId u _) hslice
    case insertSession => simp only [rowsAt_insert, hslice]
    case changeSession => exact updateAt_congr (fun s => apply_sessionId s _) hslice
    case insertAudit => simp only [rowsAt_insert, hslice]
  valid_congr d d' w h := by
    cases w <;>
      simp only [DirectoryWrite.keys, List.mem_cons, List.not_mem_nil, or_false, forall_eq_or_imp,
        forall_eq, Directory.slice, Prod.mk.injEq, Directory.mk.injEq, and_true, true_and] at h <;>
      simp only [Directory.valid, h]

/-- The part that admin sign-in works on. -/
def Directory.accounts (d : Directory) : Accounts := ⟨d.users.map (·.toUserRow), d.sessions⟩

/-- What admin sign-in writes. -/
def DirectoryWrite.ofAccount : AccountWrite → DirectoryWrite
  | .insertSession row => .insertSession row
  | .changeSession sessionId change => .changeSession sessionId change
  | .changeUser userId change => .changeUser userId (.signIn change)

/-- What admin sign-in writes, it writes to its part. -/
theorem accounts_apply (d : Directory) (x : AccountWrite) :
    (directory.apply d (.ofAccount x)).accounts = accounts.apply d.accounts x := by
  cases x with
  | insertSession row => rfl
  | changeSession sessionId change => rfl
  | changeUser userId change =>
    simp only [directory, Directory.apply, DirectoryWrite.ofAccount, Directory.accounts,
      AdminTables.accounts, Accounts.apply, Accounts.mk.injEq, and_true, updateAt, List.map_map]
    refine List.map_congr_left fun u _ => ?_
    by_cases hu : u.userId = userId <;> simp [hu, AccountChange.apply]

end LpPlatform.UserDirectory
