import LpPlatform.AdminTables
import LpPlatform.Ledger

/-!
# Signing in as an admin

A login checks the password and opens a session, already marked as verified
by a second factor. Every later request names the session in a signed token.
Three guards look at it: the session must be live and not idle, its second
factor verified and, on sensitive endpoints, a fresh token from a second
password check presented. No statement of a request runs in a transaction.
-/

namespace LpPlatform.AdminAuth

open AdminTables JsValues Ledger RowStore Sessions StatementProgram

/-- What a token says. -/
structure AdminJwtPayload where
  sub : String
  sid : String
  role : AdminRole
  email : String
  deriving DecidableEq

/-- Signed tokens: the payload of every token with a good signature, and when
it expires. -/
structure Jwt where
  sign : AdminJwtPayload → Instant → String
  payload : String → Option AdminJwtPayload
  expired : String → Instant → Bool

/-- Password hashes under a salt. A hash verifies the text it was made of and
no other. -/
structure Argon2 where
  hash : String → String → String
  verify : String → String → Bool
  verify_hash : ∀ salt text other, verify (hash salt text) other = decide (text = other)

/-- One-time codes over a shared secret, and the secret at rest. -/
structure Totp where
  check : String → String → Instant → Bool
  encrypt : String → String → String
  decrypt : String → Except Failure String

/-- What admin sign-in is configured with. -/
structure AdminConfig where
  jwt : Jwt
  argon2 : Argon2
  totp : Totp
  /-- `toLowerCase`. -/
  lowerCase : String → String
  /-- The email check of the validator. -/
  isEmail : String → Bool
  /-- ADMIN_IDLE_TIMEOUT_SECONDS. -/
  idleTimeoutSeconds : ℕ
  /-- ADMIN_REAUTH_WINDOW_SECONDS. -/
  reauthWindowSeconds : ℕ

/-- Programs over the accounts. -/
abbrev AccountProgram (α : Type) := Prog Accounts AccountWrite Input Failure α

/-- What an endpoint requires of its caller. -/
structure Endpoint where
  /-- `@SkipTotpVerified()`. -/
  skipTotp : Bool
  /-- `@RequireAdminRole(...)`. -/
  roles : List AdminRole
  /-- `@RequireReauth()` under a `ReauthGuard`. -/
  requireReauth : Bool

/-- The endpoints behind the guards. -/
inductive AdminAction where
  | totpSetup
  | verifySetup (body : Json)
  | verifyTotp (body : Json)
  | useRecovery (body : Json)
  | reauth (body : Json)
  /-- Any other endpoint, whose handler leaves accounts alone. -/
  | other (endpoint : Endpoint)

/-- What the endpoint of an action requires. -/
def AdminAction.endpoint : AdminAction → Endpoint
  | .totpSetup => ⟨true, [], false⟩
  | .verifySetup _ => ⟨true, [], false⟩
  | .verifyTotp _ => ⟨true, [], false⟩
  | .useRecovery _ => ⟨true, [], false⟩
  | .reauth _ => ⟨false, [], false⟩
  | .other endpoint => endpoint

/-- A request with the headers the guards read. -/
structure AdminRequest where
  /-- `x-admin-authorization`. -/
  authorization : Option String
  /-- The cookie `lp_admin_access`. -/
  cookie : Option String
  /-- `x-reauth-token`. -/
  reauthToken : Option String
  action : AdminAction

/-- The rows the guards have read for a request. -/
structure AdminRequestContext where
  user : UserRow
  session : AdminSessionRow

/-- A text that counts as true. -/
def truthy (text : Option String) : Option String := text.filter (· ≠ "")

/-- `AdminJwtGuard.extractToken`. -/
def extractToken (req : AdminRequest) : Option String :=
  match req.authorization with
  | some header =>
    if "Bearer ".isPrefixOf header then some (String.ofList (trim (header.toList.drop 7)))
    else req.cookie
  | none => req.cookie

/-- `AdminAuthService.verifyJwt`. -/
def verifyJwt (K : AdminConfig) (token : String) (now : Instant) : Option AdminJwtPayload :=
  if K.jwt.expired token now then none else K.jwt.payload token

/-- `AdminAuthRepository.findAdminByEmail`. -/
def findAdminByEmail (K : AdminConfig) (email : String) : AccountProgram (Option UserRow) :=
  query fun v i => anyRow (v.own.users.filter fun u =>
    u.email = K.lowerCase email ∧ u.userType = .adminUser ∧ u.deletedAt = none) i.pick

/-- `AdminAuthRepository.findAdminByUserId`. -/
def findAdminByUserId (userId : String) : AccountProgram (Option UserRow) :=
  query fun v i => anyRow (v.own.users.filter fun u =>
    u.userId = userId ∧ u.userType = .adminUser ∧ u.deletedAt = none) i.pick

/-- `AdminAuthRepository.findSession`. -/
def findSession (sessionId : String) : AccountProgram (Option AdminSessionRow) :=
  query fun v i => anyRow (v.own.sessions.filter fun s =>
    s.sessionId = sessionId ∧ s.revokedAt = none) i.pick

/-- `AdminAuthRepository.markTotpVerified`. -/
def markTotpVerified (sessionId : String) : AccountProgram Unit :=
  exec (fun _ i => [.changeSession sessionId (.markTotpVerified i.now i.now)]) fun _ _ => ()

/-- `AdminAuthRepository.bumpActivity`. -/
def bumpActivity (sessionId : String) : AccountProgram Unit :=
  exec (fun _ i => [.changeSession sessionId (.bumpActivity i.now)]) fun _ _ => ()

/-- `AdminAuthRepository.setReauth`. -/
def setReauth (sessionId hash : String) (validUntil : Instant) : AccountProgram Unit :=
  exec (fun _ _ => [.changeSession sessionId (.setReauth hash validUntil)]) fun _ _ => ()

/-- `AdminAuthRepository.revokeSession`. -/
def revokeSession (sessionId : String) : AccountProgram Unit :=
  exec (fun _ i => [.changeSession sessionId (.revoke i.now)]) fun _ _ => ()

/-- `AdminAuthRepository.updateUserTotp`. -/
def updateUserTotp (userId ciphertext : String) : AccountProgram Unit :=
  exec (fun _ _ => [.changeUser userId (.totpSecret ciphertext)]) fun _ _ => ()

/-- `AdminAuthRepository.finalizeTotp`. -/
def finalizeTotp (userId : String) (hashes : List String) : AccountProgram Unit :=
  exec (fun _ i => [.changeUser userId (.finalizeTotp i.now hashes)]) fun _ _ => ()

/-- `AdminAuthRepository.consumeRecoveryCode`. -/
def removeRecoveryCode (userId : String) (idx : ℕ) : AccountProgram Unit :=
  exec (fun _ _ => [.changeUser userId (.consumeRecoveryCode idx)]) fun _ _ => ()

/-- `AdminJwtGuard.canActivate`. -/
def adminJwtGuard (K : AdminConfig) (req : AdminRequest) : AccountProgram AdminRequestContext :=
  match truthy (extractToken req) with
  | none => .throw (.domain "AUTH_TOKEN_INVALID" "Missing admin token" 401)
  | some token => do
    let now ← draw Input.now
    match verifyJwt K token now with
    | none => .throw (.domain "AUTH_TOKEN_EXPIRED" "Admin token invalid or expired" 401)
    | some payload =>
      let found ← findSession payload.sid
      match found with
      | none => .throw (.domain "AUTH_TOKEN_EXPIRED" "Admin session not found or revoked" 401)
      | some session =>
        let now ← draw Input.now
        if session.expiresAt ≤ now then
          .throw (.domain "AUTH_TOKEN_EXPIRED" "Admin session expired" 401)
        else
          let now ← draw Input.now
          if (K.idleTimeoutSeconds : ℤ) * 1000 < now - session.lastActivityAt then
            revokeSession session.sessionId
            .throw (.domain "AUTH_TOKEN_EXPIRED" "Admin session idle-timed-out" 401)
          else
            let found ← findAdminByUserId payload.sub
            match found with
            | none => .throw (.domain "AUTH_FORBIDDEN" "Admin user suspended or missing" 403)
            | some user =>
              if user.suspendedAt.isSome then
                .throw (.domain "AUTH_FORBIDDEN" "Admin user suspended or missing" 403)
              else
                bumpActivity session.sessionId
                return ⟨user, session⟩

/-- `TotpVerifiedGuard.canActivate`. -/
def totpVerifiedGuard (endpoint : Endpoint) (ctx : AdminRequestContext) : AccountProgram Unit :=
  if endpoint.skipTotp then return ()
  else if ctx.session.totpVerifiedAt = none then
    .throw (.domain "AUTH_FORBIDDEN" "2FA verification required for this session" 403)
  else return ()

/-- The name of a tier. -/
def roleText : AdminRole → String
  | .superAdmin => "super_admin"
  | .ops => "ops"
  | .support => "support"
  | .readOnly => "read_only"

/-- `AdminRoleGuard.canActivate`. -/
def adminRoleGuard (endpoint : Endpoint) (ctx : AdminRequestContext) : AccountProgram Unit :=
  if endpoint.roles = [] then return ()
  else if ctx.user.adminRole.any fun role => role ∈ endpoint.roles then return ()
  else
    let required := String.intercalate ", " (endpoint.roles.map roleText)
    .throw (.domain "AUTH_FORBIDDEN" s!"Requires admin role in [{required}]" 403)

/-- `ReauthGuard.canActivate`. -/
def reauthGuard (K : AdminConfig) (req : AdminRequest) (ctx : AdminRequestContext) :
    AccountProgram Unit :=
  if req.action.endpoint.requireReauth then
    match truthy req.reauthToken with
    | none => .throw (.domain "AUTH_FORBIDDEN" "Reauth token required for this action" 403)
    | some token =>
      match truthy ctx.session.reauthTokenHash, ctx.session.reauthValidUntil with
      | some hash, some validUntil => do
        let now ← draw Input.now
        if validUntil ≤ now then
          .throw (.domain "AUTH_FORBIDDEN" "Reauth token expired or absent" 403)
        else if K.argon2.verify hash token then return ()
        else .throw (.domain "AUTH_FORBIDDEN" "Reauth token invalid" 403)
      | _, _ => .throw (.domain "AUTH_FORBIDDEN" "Reauth token expired or absent" 403)
  else return ()

/-- The guards of an endpoint, in the order controllers name them. -/
def guards (K : AdminConfig) (req : AdminRequest) : AccountProgram AdminRequestContext := do
  let ctx ← adminJwtGuard K req
  totpVerifiedGuard req.action.endpoint ctx
  adminRoleGuard req.action.endpoint ctx
  reauthGuard K req ctx
  return ctx

/-- What a login answers. -/
structure LoginResult where
  status : String
  sessionId : String
  accessToken : String
  user : UserRow

/-- `AdminAuthService.login`. -/
def login (K : AdminConfig) (email password : String) (ua ip : Option String) :
    AccountProgram LoginResult := do
  let found ← findAdminByEmail K email
  match found with
  | none => .throw (.domain "AUTH_INVALID_CREDENTIALS" "Invalid credentials" 401)
  | some user =>
    if user.suspendedAt.isSome then .throw (.domain "AUTH_FORBIDDEN" "Account suspended" 403)
    else if K.argon2.verify user.passwordHash password then
      match user.adminRole with
      | none => .throw (.domain "AUTH_FORBIDDEN" "Admin role missing" 403)
      | some role =>
        let sessionId ← draw (Input.id · 0)
        -- a hard cap of twelve hours
        let now ← draw Input.now
        let expiresAt := now + 12 * 60 * 60 * 1000
        exec (fun _ i => [.insertSession ⟨sessionId, user.userId, i.now, expiresAt, i.now,
          some i.now, none, none, none, ua, ip⟩]) fun _ _ => ()
        let now ← draw Input.now
        return ⟨"success", sessionId, K.jwt.sign ⟨user.userId, sessionId, role, user.email⟩ now, user⟩
    else .throw (.domain "AUTH_INVALID_CREDENTIALS" "Invalid credentials" 401)

/-- `AdminAuthService.beginTotpSetup`. -/
def beginTotpSetup (K : AdminConfig) (user : UserRow) : AccountProgram String :=
  if user.totpVerifiedAt.isSome then
    .throw (.domain "CONFLICT" "TOTP already configured — use force-reset flow" 409)
  else do
    let secret ← draw (Input.id · 0)
    let ciphertext ← draw fun i => K.totp.encrypt (i.id 0) secret
    updateUserTotp user.userId ciphertext
    return secret

/-- `AdminAuthService.finalizeTotpSetup`. -/
def finalizeTotpSetup (K : AdminConfig) (user : UserRow) (code : String) :
    AccountProgram (List String) :=
  match truthy user.totpSecretEnc with
  | none => .throw (.domain "VALIDATION_FAILED" "TOTP setup not started" 400)
  | some ciphertext => do
    let secret ← ofExcept (K.totp.decrypt ciphertext)
    let now ← draw Input.now
    if K.totp.check code secret now then
      let recoveryCodes ← draw fun i => (List.range 10).map i.id
      let hashes ← draw fun i => recoveryCodes.zipIdx.map fun c => K.argon2.hash (i.id c.2) c.1
      finalizeTotp user.userId hashes
      return recoveryCodes
    else .throw (.domain "AUTH_INVALID_CREDENTIALS" "Invalid TOTP code" 401)

/-- `AdminAuthService.verifyTotp`. -/
def verifyTotp (K : AdminConfig) (user : UserRow) (sessionId code : String) :
    AccountProgram Unit :=
  match truthy user.totpSecretEnc, user.totpVerifiedAt with
  | some ciphertext, some _ => do
    let secret ← ofExcept (K.totp.decrypt ciphertext)
    let now ← draw Input.now
    if K.totp.check code secret now then markTotpVerified sessionId
    else .throw (.domain "AUTH_INVALID_CREDENTIALS" "Invalid TOTP code" 401)
  | _, _ => .throw (.domain "VALIDATION_FAILED" "TOTP not configured" 400)

/-- The loop over the hashes: the position of the first that verifies. -/
def matchedIdx (A : Argon2) (codes : List String) (code : String) : Option ℕ :=
  codes.findIdx? fun hash => hash ≠ "" && A.verify hash code

/-- `AdminAuthService.consumeRecoveryCode`. -/
def consumeRecoveryCode (K : AdminConfig) (user : UserRow) (sessionId code : String) :
    AccountProgram Unit :=
  match matchedIdx K.argon2 (user.recoveryCodesHash.getD []) code with
  | none => .throw (.domain "AUTH_INVALID_CREDENTIALS" "Invalid recovery code" 401)
  | some idx => do
    removeRecoveryCode user.userId idx
    markTotpVerified sessionId

/-- `AdminAuthService.issueReauthToken`. -/
def issueReauthToken (K : AdminConfig) (user : UserRow) (sessionId password : String) :
    AccountProgram String :=
  if K.argon2.verify user.passwordHash password then do
    let token ← draw (Input.id · 0)
    let hash ← draw fun i => K.argon2.hash (i.id 0) token
    let now ← draw Input.now
    setReauth sessionId hash (now + (K.reauthWindowSeconds : ℤ) * 1000)
    return token
  else .throw (.domain "AUTH_INVALID_CREDENTIALS" "Invalid password" 401)

/-- A field that is a text of bounded length. -/
def boundedText (key : String) (min max : ℕ) (body : Json) : Option String :=
  ((body.field? key).bind Json.string?).filter fun s => min ≤ utf16Length s ∧ utf16Length s ≤ max

/-- The result of a schema, or the error of its validation pipe. -/
def validated {α : Type} (fields : Option α) : Except Failure α :=
  match fields with
  | some value => .ok value
  | none => .error (.domain "VALIDATION_FAILED" "Validation failed" 400)

/-- `loginBodySchema`. -/
def loginBodySchema (K : AdminConfig) (body : Json) : Except Failure (String × String) :=
  validated do
    let text ← (body.field? "email").bind Json.string?
    let email := K.lowerCase (String.ofList (trim text.toList))
    let password ← boundedText "password" 8 256 body
    if K.isEmail email then some (email, password) else none

/-- `totpCodeSchema`. -/
def totpCodeSchema (body : Json) : Except Failure String :=
  validated (((body.field? "code").bind Json.string?).filter fun code =>
    code.length = 6 ∧ code.toList.all Char.isDigit)

/-- `recoveryBodySchema`. -/
def recoveryBodySchema (body : Json) : Except Failure String := validated (boundedText "code" 8 64 body)

/-- `reauthBodySchema`. -/
def reauthBodySchema (body : Json) : Except Failure String :=
  validated (boundedText "password" 8 256 body)

/-- The handler of an action, after its guards. -/
def handle (K : AdminConfig) (ctx : AdminRequestContext) : AdminAction → AccountProgram Unit
  | .totpSetup => do
    let _ ← beginTotpSetup K ctx.user
    return ()
  | .verifySetup body => do
    let code ← ofExcept (totpCodeSchema body)
    let _ ← finalizeTotpSetup K ctx.user code
    return ()
  | .verifyTotp body => do
    let code ← ofExcept (totpCodeSchema body)
    verifyTotp K ctx.user ctx.session.sessionId code
  | .useRecovery body => do
    let code ← ofExcept (recoveryBodySchema body)
    consumeRecoveryCode K ctx.user ctx.session.sessionId code
  | .reauth body => do
    let password ← ofExcept (reauthBodySchema body)
    let _ ← issueReauthToken K ctx.user ctx.session.sessionId password
    return ()
  | .other _ => return ()

/-- The calls of admins. -/
inductive AdminCall where
  | login (body : Json) (ua ip : Option String)
  | request (req : AdminRequest)

/-- A call, without its result. -/
def admins (K : AdminConfig) : AdminCall → AccountProgram Unit
  | .login body ua ip => do
    let credentials ← ofExcept (loginBodySchema K body)
    let _ ← login K credentials.1 credentials.2 ua ip
    return ()
  | .request req => do
    let ctx ← guards K req
    handle K ctx req.action

/-- The worlds of these calls. -/
abbrev AdminWorld := World Accounts AccountWrite AccountKey Input Failure Unit

/-- Hashes that keep the text, and tokens that name one of two sessions. -/
def plainConfig : AdminConfig where
  jwt := ⟨fun p _ => p.sid, fun token => if token = "S1" ∨ token = "S2" then
    some ⟨"U1", token, .ops, "ops@lp.test"⟩ else none, fun _ _ => false⟩
  argon2 := ⟨fun _ text => "argon2:" ++ text, fun hash text => decide (hash = "argon2:" ++ text),
    fun _ text other => by simp⟩
  totp := ⟨fun _ _ _ => false, fun _ secret => secret, fun secret => .ok secret⟩
  lowerCase := id
  isEmail _ := true
  idleTimeoutSeconds := 900
  reauthWindowSeconds := 300

end LpPlatform.AdminAuth
