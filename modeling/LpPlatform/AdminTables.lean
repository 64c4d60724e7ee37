import LpPlatform.JsValues
import LpPlatform.RowStore

/-!
# Admin accounts and their sessions

The tables of users and admin sessions. A statement inserts a session, or
changes the columns of one session or of one user by its id, computed from
the row as it is when the statement runs.
-/

namespace LpPlatform.AdminTables

open JsValues RowStore

/-- The type of a user. -/
inductive UserType where
  | brokerUser
  | adminUser
  deriving DecidableEq, Repr

/-- The tiers of admins. -/
inductive AdminRole where
  | superAdmin
  | ops
  | support
  | readOnly
  deriving DecidableEq, Repr

/-- A row of `auth.users`, as far as admins need it. -/
structure UserRow where
  userId : String
  email : String
  passwordHash : String
  userType : UserType
  deletedAt : Option Instant
  adminRole : Option AdminRole
  /-- The ciphertext of the shared secret. -/
  totpSecretEnc : Option String
  totpVerifiedAt : Option Instant
  /-- Hashes of the recovery codes. -/
  recoveryCodesHash : Option (List String)
  suspendedAt : Option Instant
  deriving DecidableEq

/-- A row of `auth.admin_sessions`. -/
structure AdminSessionRow where
  sessionId : String
  userId : String
  issuedAt : Instant
  expiresAt : Instant
  lastActivityAt : Instant
  totpVerifiedAt : Option Instant
  reauthTokenHash : Option String
  reauthValidUntil : Option Instant
  revokedAt : Option Instant
  userAgent : Option String
  ipAddress : Option String
  deriving DecidableEq

/-- All rows of the tables. -/
structure Accounts where
  users : List UserRow
  sessions : List AdminSessionRow
  deriving DecidableEq

/-- Columns of a session that a statement sets. -/
inductive SessionChange where
  | markTotpVerified (totpVerifiedAt lastActivityAt : Instant)
  | bumpActivity (lastActivityAt : Instant)
  | setReauth (reauthTokenHash : String) (reauthValidUntil : Instant)
  | revoke (revokedAt : Instant)
  deriving DecidableEq

/-- Columns of a user that a statement sets. -/
inductive UserChange where
  | totpSecret (ciphertext : String)
  | finalizeTotp (totpVerifiedAt : Instant) (recoveryCodesHash : List String)
  | consumeRecoveryCode (idx : ℕ)
  deriving DecidableEq

/-- The session with the columns set. -/
def SessionChange.apply (s : AdminSessionRow) : SessionChange → AdminSessionRow
  | .markTotpVerified totp activity =>
    { s with totpVerifiedAt := some totp, lastActivityAt := activity }
  | .bumpActivity activity => { s with lastActivityAt := activity }
  | .setReauth hash validUntil =>
    { s with reauthTokenHash := some hash, reauthValidUntil := some validUntil }
  | .revoke at_ => { s with revokedAt := some at_ }

/-- `array_remove(codes, codes[idx + 1])`: every copy of the element at a
position counted from zero, nothing when the array ends before it. -/
def arrayRemove (codes : List String) (idx : ℕ) : List String :=
  match codes[idx]? with
  | none => codes
  | some hash => codes.filter (· ≠ hash)

/-- The user with the columns set. -/
def UserChange.apply (u : UserRow) : UserChange → UserRow
  | .totpSecret ciphertext => { u with totpSecretEnc := some ciphertext }
  | .finalizeTotp at_ hashes =>
    { u with totpVerifiedAt := some at_, recoveryCodesHash := some hashes }
  | .consumeRecoveryCode idx =>
    { u with recoveryCodesHash := u.recoveryCodesHash.map fun codes => arrayRemove codes idx }

/-- One row inserted or changed. -/
inductive AccountWrite where
  | insertSession (row : AdminSessionRow)
  | changeSession (sessionId : String) (change : SessionChange)
  | changeUser (userId : String) (change : UserChange)
  deriving DecidableEq

/-- The tables after one write. -/
def Accounts.apply (d : Accounts) : AccountWrite → Accounts
  | .insertSession row => { d with sessions := d.sessions ++ [row] }
  | .changeSession sessionId change =>
    { d with sessions := updateAt (·.sessionId) sessionId (fun s => change.apply s) d.sessions }
  | .changeUser userId change =>
    { d with users := updateAt (·.userId) userId (fun u => change.apply u) d.users }

/-- The unique keys of the tables. -/
inductive AccountKey where
  | user (userId : String)
  | session (sessionId : String)
  deriving DecidableEq

/-- Unique keys of the row a write inserts or changes. -/
def AccountWrite.keys : AccountWrite → List AccountKey
  | .insertSession row => [.session row.sessionId]
  | .changeSession sessionId _ => [.session sessionId]
  | .changeUser userId _ => [.user userId]

/-- The rows stored under a unique key. -/
def Accounts.slice (d : Accounts) : AccountKey → Accounts
  | .user k => ⟨rowsAt (·.userId) k d.users, []⟩
  | .session k => ⟨[], rowsAt (·.sessionId) k d.sessions⟩

/-- A write violates no unique key. -/
def Accounts.valid (d : Accounts) : AccountWrite → Bool
  | .insertSession row => (rowsAt (·.sessionId) row.sessionId d.sessions).isEmpty
  | _ => true

@[simp] theorem apply_sessionId (s : AdminSessionRow) (change : SessionChange) :
    (change.apply s).sessionId = s.sessionId := by cases change <;> rfl

@[simp] theorem apply_userId (u : UserRow) (change : UserChange) :
    (change.apply u).userId = u.userId := by cases change <;> rfl

/-- The tables as a store of keyed rows. No transaction on them is
serializable. -/
def accounts : KeyedRows Accounts AccountWrite AccountKey where
  Slice := Accounts
  slice := Accounts.slice
  apply := Accounts.apply
  keys := AccountWrite.keys
  valid := Accounts.valid
  clash _ _ := false
  slice_other d w k h := by
    cases w <;> cases k <;> try rfl
    all_goals
      simp only [AccountWrite.keys, List.mem_singleton, AccountKey.user.injEq,
        AccountKey.session.injEq] at h
      simp only [Accounts.apply, Accounts.slice, Accounts.mk.injEq, and_true, true_and]
    case insertSession.session => exact rowsAt_insert_other _ (Ne.symm h)
    case changeSession.session =>
      exact rowsAt_updateAt_other _ (fun s => apply_sessionId s _) (Ne.symm h)
    case changeUser.user => exact rowsAt_updateAt_other _ (fun u => apply_userId u _) (Ne.symm h)
  slice_congr d d' w h k hk := by
    have hslice := h k hk
    cases w <;>
      simp only [AccountWrite.keys, List.mem_singleton] at hk <;>
      subst hk <;>
      simp only [Accounts.slice, Accounts.mk.injEq, and_true, true_and] at hslice <;>
      simp only [Accounts.apply, Accounts.slice, Accounts.mk.injEq, and_true, true_and]
    case insertSession => simp only [rowsAt_insert, hslice]
    case changeSession => exact updateAt_congr (fun s => apply_sessionId s _) hslice
    case changeUser => exact updateAt_congr (fun u => apply_userId u _) hslice
  valid_congr d d' w h := by
    cases w <;>
      simp only [AccountWrite.keys, List.mem_singleton, forall_eq, Accounts.slice,
        Accounts.mk.injEq, and_true, true_and] at h <;>
      simp only [Accounts.valid, h]

end LpPlatform.AdminTables
