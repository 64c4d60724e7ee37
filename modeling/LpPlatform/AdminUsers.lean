import LpPlatform.AuditedTransactions
import LpPlatform.OrderIntake
import LpPlatform.PartPrograms
import LpPlatform.UserDirectory

/-!
# Managing admins, and signing in to either portal

A super admin who has just confirmed the password creates other admins,
suspends them and resets their second factor. Each of these is an audited
transaction behind the guards, which have read the caller before it opens.
The same table answers the sign-in of brokers' users, whose tokens carry the
role of the row.
-/

namespace LpPlatform.AdminUsers

open AdminAuth (AccountProgram AdminCall AdminConfig AdminRequest Endpoint admins boundedText guards)
open AdminAuth (loginBodySchema roleText truthy validated)
open AdminTables AuditInterceptor AuditedTransactions BrokerPortal InterferenceLogic JsValues Ledger
open OrderIntake (AuditEntryInput)
open PartPrograms RowStore SessionTrails Sessions StatementProgram Tables UserDirectory

/-- What a token of the broker domain says. -/
structure JwtPayload where
  sub : String
  email : String
  role : UserRole
  brokerId : Option String
  deriving DecidableEq

/-- What sign-in to both portals is configured with. -/
structure UsersConfig where
  admin : AdminConfig
  /-- `JwtService.signAsync` of the broker domain. -/
  sign : JwtPayload → Instant → String

/-- Programs over the users of both portals. -/
abbrev DirectoryProgram (α : Type) := Prog Directory DirectoryWrite Input Failure α

/-- A program of admin sign-in. -/
def signIn {α : Type} (p : AccountProgram α) : DirectoryProgram α :=
  onPart Directory.accounts .ofAccount p

/-- `AuthRepository.findByEmail`. -/
def findByEmail (K : UsersConfig) (email : String) : DirectoryProgram (Option UserAccount) :=
  query fun v i => anyRow (v.own.users.filter fun u =>
    u.email = K.admin.lowerCase email ∧ u.deletedAt = none) i.pick

/-- What a login answers. -/
structure BrokerLogin where
  userId : String
  accessToken : String
  deriving DecidableEq

/-- `AuthService.login`. -/
def login (K : UsersConfig) (email password : String) : DirectoryProgram BrokerLogin := do
  let found ← findByEmail K email
  match found with
  | none => .throw (.domain "AUTH_INVALID_CREDENTIALS" "Invalid credentials" 401)
  | some user =>
    if K.admin.argon2.verify user.passwordHash password then
      let now ← draw Input.now
      return ⟨user.userId, K.sign ⟨user.userId, user.email, user.role, user.brokerId⟩ now⟩
    else .throw (.domain "AUTH_INVALID_CREDENTIALS" "Invalid credentials" 401)

/-- `AuditService.record`: a failure of the insert is only logged. -/
def record (e : AuditEntryInput) : DirectoryProgram Unit :=
  Prog.tryCatch
    (exec (fun v i => [.insertAudit ⟨v.seq, i.id 0, e.actorType, e.actorId, e.action, e.resourceType,
      e.resourceId, e.outcome, e.metadata, e.ipAddress, e.userAgent⟩]) fun _ _ => ())
    fun _ => .done ()

/-- `AuthController.login`, with the fields that `loginSchema` shares with the
login of admins. -/
def brokerLogin (K : UsersConfig) (body : Json) : DirectoryProgram BrokerLogin := do
  let credentials ← ofExcept (loginBodySchema K.admin body)
  let answer ← login K credentials.1 credentials.2
  record ⟨.user, answer.userId, "auth.login", none, none, .success, .null, none, none⟩
  return answer

/-- A tier, from its text. -/
def adminRole? : String → Option AdminRole
  | "super_admin" => some .superAdmin
  | "ops" => some .ops
  | "support" => some .support
  | "read_only" => some .readOnly
  | _ => none

/-- A new admin that passes its schema. -/
structure CreateAdmin where
  email : String
  displayName : String
  adminRole : AdminRole
  temporaryPassword : String

/-- `createAdminSchema`. -/
def createAdminSchema (K : UsersConfig) (body : Json) : Except Failure CreateAdmin :=
  validated do
    let text ← (body.field? "email").bind Json.string?
    let email := K.admin.lowerCase (String.ofList (trim text.toList))
    let displayName ← boundedText "displayName" 1 80 body
    let adminRole ← ((body.field? "adminRole").bind Json.string?).bind adminRole?
    let temporaryPassword ← boundedText "temporaryPassword" 12 256 body
    if K.admin.isEmail email then some ⟨email, displayName, adminRole, temporaryPassword⟩ else none

/-- The row of a new admin. -/
def CreateAdmin.row (a : CreateAdmin) (userId passwordHash : String) : UserAccount where
  userId := userId
  email := a.email
  passwordHash := passwordHash
  userType := .adminUser
  deletedAt := none
  adminRole := some a.adminRole
  totpSecretEnc := none
  totpVerifiedAt := none
  recoveryCodesHash := none
  suspendedAt := none
  displayName := a.displayName
  role := .lpAdmin
  brokerId := none
  mustChangePassword := true

/-- `AdminUsersController.create`. -/
def create (K : UsersConfig) (body : Json) (audit : AdminAudit) :
    DirectoryProgram ((String × String) × AdminAudit) := do
  let admin ← ofExcept (createAdminSchema K body)
  let passwordHash ← draw fun i => K.admin.argon2.hash (i.id 0) admin.temporaryPassword
  let userId ← draw (Input.id · 0)
  exec (fun _ _ => [.insertUser (admin.row userId passwordHash)]) fun _ _ => ()
  let state := [("email", Json.str admin.email), ("adminRole", .str (roleText admin.adminRole))]
  return ((userId, admin.email),
    { audit with resourceId := some userId, afterState := some (.obj state) })

/-- `AdminUsersController.suspend`. -/
def suspend (ctx : AdminRequestContext) (userId : String) (audit : AdminAudit) :
    DirectoryProgram (Unit × AdminAudit) :=
  if userId = ctx.userId then .throw (.domain "AUTH_FORBIDDEN" "Cannot suspend yourself" 403)
  else do
    let updated ← exec (fun _ i => [.changeUser userId (.suspend i.now)])
      fun v i => if v.own.users.any fun u => u.userId = userId then some i.now else none
    let state := updated.map fun at_ => ("suspendedAt", Json.str (toISOString at_))
    return ((), { audit with afterState := some (.obj state.toList) })

/-- `AdminUsersController.reset2fa`. -/
def reset2fa (ctx : AdminRequestContext) (userId : String) (audit : AdminAudit) :
    DirectoryProgram (Unit × AdminAudit) :=
  if userId = ctx.userId then
    .throw (.domain "AUTH_FORBIDDEN"
      "Cannot reset your own 2FA via this endpoint — use recovery code" 403)
  else do
    exec (fun _ _ => [.changeUser userId .resetTotp]) fun _ _ => ()
    return ((), audit)

/-- A request to one of these endpoints. -/
structure UsersRequest where
  /-- `x-admin-authorization`. -/
  authorization : Option String
  /-- The cookie `lp_admin_access`. -/
  cookie : Option String
  /-- `x-reauth-token`. -/
  reauthToken : Option String
  ip : Option String
  userAgent : Option String

/-- What every one of them requires. -/
def superAdmins : Endpoint := ⟨false, [.superAdmin], true⟩

/-- The request as the guards see it. -/
def UsersRequest.guarded (r : UsersRequest) : AdminRequest :=
  ⟨r.authorization, r.cookie, r.reauthToken, .other superAdmins⟩

/-- The guards of the controller, and the caller they have found. -/
def enter (K : UsersConfig) (r : UsersRequest) : DirectoryProgram AdminRequestContext := do
  let ctx ← signIn (guards K.admin r.guarded)
  return ⟨ctx.user.userId, ctx.user.email, r.ip, r.userAgent⟩

/-- The calls on users. -/
inductive UsersCall where
  | brokerLogin (body : Json)
  | admin (call : AdminCall)
  | create (req : UsersRequest) (body : Json)
  | suspend (req : UsersRequest) (userId : String)
  | reset2fa (req : UsersRequest) (userId : String)

/-- A call, without its result. -/
def users (K : UsersConfig) : UsersCall → DirectoryProgram Unit
  | .brokerLogin body => do
    let _ ← brokerLogin K body
    return ()
  | .admin call => signIn (admins K.admin call)
  | .create req body => do
    let ctx ← enter K req
    let _ ← audited .insertAudit ctx (.ofConfig "admin_user.create" "admin_user" none) (create K body)
    return ()
  | .suspend req userId => do
    let ctx ← enter K req
    audited .insertAudit ctx (.ofConfig "admin_user.suspend" "admin_user" (truthy (some userId)))
      (suspend ctx userId)
  | .reset2fa req userId => do
    let ctx ← enter K req
    audited .insertAudit ctx (.ofConfig "admin_user.reset_2fa" "admin_user" (truthy (some userId)))
      (reset2fa ctx userId)

/-- The worlds of these calls. -/
abbrev UsersWorld := World Directory DirectoryWrite DirectoryKey Input Failure Unit

/-- One event of these worlds. -/
abbrev usersStep (K : UsersConfig) : UsersWorld → Event UsersCall Input Failure → Option UsersWorld :=
  World.step directory (users K)

section Examples

/-- Tokens that name one of two sessions, and texts that are their own hashes. -/
def plainUsers : UsersConfig where
  admin := { AdminAuth.plainConfig with
    jwt := ⟨fun p _ => p.sid, fun token =>
      if token = "S1" then some ⟨"U1", "S1", .superAdmin, "one@lp.test"⟩
      else if token = "S2" then some ⟨"U2", "S2", .superAdmin, "two@lp.test"⟩
      else none, fun _ _ => false⟩ }
  sign p _ := p.sub

/-- A super admin. -/
def superAdmin (userId email : String) : UserAccount :=
  CreateAdmin.row ⟨email, "Super Admin", .superAdmin, ""⟩ userId "argon2:password"

/-- A session of an admin who has just confirmed the password. -/
def confirmedSession (sessionId userId : String) : AdminSessionRow :=
  ⟨sessionId, userId, 0, 43200000, 0, some 0, some "argon2:R", some 300000, none, none, none⟩

/-- A request under the token of a session. -/
def requestOf (token : String) : UsersRequest := ⟨none, some token, some "R", none, none⟩

/-- Statements that draw nothing. -/
def calmly (t count : ℕ) : List (Event UsersCall Input Failure) := List.replicate count (.step t quiet)

end Examples

end LpPlatform.AdminUsers
