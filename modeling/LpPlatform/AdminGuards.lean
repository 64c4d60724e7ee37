import LpPlatform.AdminAuth
import LpPlatform.SessionTrails

/-!
# What the guards have seen

A request whose guards have returned has read a session and a user on the way
and compared them with its clock. The guards themselves write at most the
activity or the revocation of the session.
-/

namespace LpPlatform.AdminGuards

open AdminAuth AdminTables JsValues Ledger RowStore Sessions SessionTrails StatementProgram
open StatementWrites StepRuns

/-- A write of the guards. -/
def Touches : AccountWrite → Prop
  | .changeSession _ (.bumpActivity _) => True
  | .changeSession _ (.revoke _) => True
  | _ => False

section Emissions

variable {K : AdminConfig}

theorem emits_adminJwtGuard (req : AdminRequest) : Emits Touches (adminJwtGuard K req) := by
  have htouch : ∀ {x : View Accounts → Input → AccountWrite}, (∀ v i, Touches (x v i)) →
      Emits Touches (exec (fun v i => [x v i]) fun _ _ => () : AccountProgram Unit) :=
    fun h => emits_exec fun v i y hy => List.mem_singleton.mp hy ▸ h v i
  unfold adminJwtGuard
  split
  · exact emits_throw _
  · refine emits_bind (emits_query _) fun now => ?_
    split
    · exact emits_throw _
    · refine emits_bind (emits_query _) fun found => ?_
      split
      · exact emits_throw _
      · refine emits_bind (emits_query _) fun now => ?_
        split
        · exact emits_throw _
        · refine emits_bind (emits_query _) fun now => ?_
          split
          · exact emits_bind (htouch fun _ _ => trivial) fun _ => emits_throw _
          · refine emits_bind (emits_query _) fun found => ?_
            split
            · exact emits_throw _
            · split
              · exact emits_throw _
              · exact emits_bind (htouch fun _ _ => trivial) fun _ => emits_done _

theorem emits_reauthGuard (req : AdminRequest) (ctx : AdminRequestContext) :
    Emits Touches (reauthGuard K req ctx) := by
  unfold reauthGuard
  split
  · split
    · exact emits_throw _
    · split
      · refine emits_bind (emits_query _) fun now => ?_
        split
        · exact emits_throw _
        · split
          · exact emits_done _
          · exact emits_throw _
      · exact emits_throw _
  · exact emits_done _

/-- The guards touch the session and nothing else. -/
theorem emits_guards (req : AdminRequest) : Emits Touches (guards K req) := by
  refine emits_bind (emits_adminJwtGuard req) fun ctx => emits_bind ?_ fun _ =>
    emits_bind ?_ fun _ => emits_bind (emits_reauthGuard req ctx) fun _ => emits_done _
  · unfold totpVerifiedGuard
    split
    · exact emits_done _
    · split
      · exact emits_throw _
      · exact emits_done _
  · unfold adminRoleGuard
    split
    · exact emits_done _
    · split
      · exact emits_done _
      · exact emits_throw _

end Emissions

section Trails

variable {γ α : Type} {program : γ → AccountProgram α}
variable {s : World Accounts AccountWrite AccountKey Input Failure α}
variable {es : List (Event γ Input Failure)} {t : ℕ}

/-- The session runs a statement in the world and draws an input. -/
def Runs (program : γ → AccountProgram α) (s : World Accounts AccountWrite AccountKey Input Failure α)
    (es : List (Event γ Input Failure)) (t : ℕ)
    (u : World Accounts AccountWrite AccountKey Input Failure α) (i : Input) : Prop :=
  ∃ u', Takes (World.step accounts program) s es u (.step t i) u'

/-- What is known once the first guard has returned. -/
structure Admitted (K : AdminConfig) (program : γ → AccountProgram α)
    (s : World Accounts AccountWrite AccountKey Input Failure α) (es : List (Event γ Input Failure))
    (t : ℕ) (req : AdminRequest) (ctx : AdminRequestContext) : Prop where
  /-- The token names the session and the user. -/
  token : ∃ token payload, truthy (extractToken req) = some token ∧
    K.jwt.payload token = some payload ∧ ctx.session.sessionId = payload.sid ∧
    ctx.user.userId = payload.sub
  /-- The session was read while it was live. -/
  session : ∃ u i, Runs program s es t u i ∧ ctx.session ∈ u.db.sessions
  live : ctx.session.revokedAt = none
  /-- It had not expired. -/
  expires : ∃ u i, Runs program s es t u i ∧ i.now < ctx.session.expiresAt
  /-- It was not idle. -/
  active : ∃ u i, Runs program s es t u i ∧
    i.now - ctx.session.lastActivityAt ≤ (K.idleTimeoutSeconds : ℤ) * 1000
  /-- The user was read. -/
  user : ∃ u i, Runs program s es t u i ∧ ctx.user ∈ u.db.users
  admin : ctx.user.userType = .adminUser
  undeleted : ctx.user.deletedAt = none
  unsuspended : ctx.user.suspendedAt = none

/-- A request that passes the first guard is admitted. -/
theorem admitted_of_trail {K : AdminConfig} {req : AdminRequest} {ctx : AdminRequestContext}
    (h : Trail accounts program s es t (adminJwtGuard K req) (.done ctx)) :
    Admitted K program s es t req ctx := by
  unfold adminJwtGuard at h
  split at h
  · exact absurd (trail_throw h) (by simp)
  · rename_i token htoken
    obtain ⟨u₁, i₁, u₁', -, h⟩ := trail_query h trivial
    split at h
    · exact absurd (trail_throw h) (by simp)
    · rename_i payload hverify
      obtain ⟨u₂, i₂, u₂', hread, h⟩ := trail_query h trivial
      split at h
      · exact absurd (trail_throw h) (by simp)
      · rename_i session hsession
        obtain ⟨u₃, i₃, u₃', hexpiry, h⟩ := trail_query h trivial
        split at h
        · exact absurd (trail_throw h) (by simp)
        · rename_i hexpires
          obtain ⟨u₄, i₄, u₄', hidle, h⟩ := trail_query h trivial
          split at h
          · -- the session is revoked and the request rejected
            obtain ⟨_, _, _, -, -, hthrow⟩ := trail_exec_done h
            exact absurd (trail_throw hthrow) (by simp)
          · rename_i hactive
            obtain ⟨u₅, i₅, u₅', huser, h⟩ := trail_query h trivial
            split at h
            · exact absurd (trail_throw h) (by simp)
            · rename_i user hfound
              split at h
              · exact absurd (trail_throw h) (by simp)
              · rename_i hsuspended
                obtain ⟨_, _, _, -, -, hdone⟩ := trail_exec_done h
                obtain rfl : ctx = ⟨user, session⟩ := Prog.done.inj (trail_done hdone)
                have hs := List.mem_filter.mp (anyRow_mem hsession)
                have hu := List.mem_filter.mp (anyRow_mem hfound)
                obtain ⟨hsid, hlive⟩ := of_decide_eq_true hs.2
                obtain ⟨huid, hadmin, hundeleted⟩ := of_decide_eq_true hu.2
                have hpayload : K.jwt.payload token = some payload := by
                  unfold verifyJwt at hverify
                  split at hverify
                  · simp at hverify
                  · exact hverify
                exact ⟨⟨token, payload, htoken, hpayload, hsid, huid⟩, ⟨u₂, i₂, ⟨u₂', hread⟩, hs.1⟩,
                  hlive, ⟨u₃, i₃, ⟨u₃', hexpiry⟩, not_le.mp hexpires⟩,
                  ⟨u₄, i₄, ⟨u₄', hidle⟩, not_lt.mp hactive⟩, ⟨u₅, i₅, ⟨u₅', huser⟩, hu.1⟩, hadmin,
                  hundeleted, by simpa using hsuspended⟩

/-- What is known once all guards have returned. -/
structure Guarded (K : AdminConfig) (program : γ → AccountProgram α)
    (s : World Accounts AccountWrite AccountKey Input Failure α) (es : List (Event γ Input Failure))
    (t : ℕ) (req : AdminRequest) (ctx : AdminRequestContext) : Prop where
  admitted : Admitted K program s es t req ctx
  /-- The second factor is verified, unless the endpoint skips it. -/
  totp : req.action.endpoint.skipTotp = true ∨ ctx.session.totpVerifiedAt ≠ none
  /-- The admin has one of the roles. -/
  role : req.action.endpoint.roles = [] ∨
    ∃ role ∈ req.action.endpoint.roles, ctx.user.adminRole = some role
  /-- A token that the hash of the session verifies, in its time. -/
  reauth : req.action.endpoint.requireReauth = true → ∃ token hash validUntil u i,
    req.reauthToken = some token ∧ ctx.session.reauthTokenHash = some hash ∧
    ctx.session.reauthValidUntil = some validUntil ∧ Runs program s es t u i ∧
    i.now < validUntil ∧ K.argon2.verify hash token = true

theorem truthy_some {text : Option String} {x : String} (h : truthy text = some x) :
    text = some x := (Option.filter_eq_some_iff.mp h).1

theorem totp_of_trail {endpoint : Endpoint} {ctx : AdminRequestContext}
    (h : Trail accounts program s es t (totpVerifiedGuard endpoint ctx) (.done ())) :
    endpoint.skipTotp = true ∨ ctx.session.totpVerifiedAt ≠ none := by
  unfold totpVerifiedGuard at h
  split at h
  · exact Or.inl ‹_›
  · split at h
    · exact absurd (trail_throw h) (by simp)
    · exact Or.inr ‹_›

theorem role_of_trail {endpoint : Endpoint} {ctx : AdminRequestContext}
    (h : Trail accounts program s es t (adminRoleGuard endpoint ctx) (.done ())) :
    endpoint.roles = [] ∨ ∃ role ∈ endpoint.roles, ctx.user.adminRole = some role := by
  unfold adminRoleGuard at h
  split at h
  · exact Or.inl ‹_›
  · split at h
    · rename_i hrole
      obtain ⟨role, hsome, hmem⟩ := (Option.any_eq_true ..).mp hrole
      exact Or.inr ⟨role, of_decide_eq_true hmem, hsome⟩
    · exact absurd (trail_throw h) (by simp)

theorem reauth_of_trail {K : AdminConfig} {req : AdminRequest} {ctx : AdminRequestContext}
    (h : Trail accounts program s es t (reauthGuard K req ctx) (.done ()))
    (hrequired : req.action.endpoint.requireReauth = true) : ∃ token hash validUntil u i,
      req.reauthToken = some token ∧ ctx.session.reauthTokenHash = some hash ∧
      ctx.session.reauthValidUntil = some validUntil ∧ Runs program s es t u i ∧
      i.now < validUntil ∧ K.argon2.verify hash token = true := by
  rw [reauthGuard, if_pos hrequired] at h
  split at h
  · exact absurd (trail_throw h) (by simp)
  · rename_i token htoken
    split at h
    · rename_i hash validUntil hhash hvalid
      obtain ⟨u, i, u', hread, h⟩ := trail_query h trivial
      split at h
      · exact absurd (trail_throw h) (by simp)
      · rename_i hfresh
        split at h
        · rename_i hverify
          exact ⟨token, hash, validUntil, u, i, truthy_some htoken, truthy_some hhash, hvalid,
            ⟨u', hread⟩, not_le.mp hfresh, hverify⟩
        · exact absurd (trail_throw h) (by simp)
    · exact absurd (trail_throw h) (by simp)

/-- A request that passes every guard. -/
theorem guarded_of_trail {K : AdminConfig} {req : AdminRequest} {ctx : AdminRequestContext}
    (h : Trail accounts program s es t (guards K req) (.done ctx)) :
    Guarded K program s es t req ctx := by
  obtain ⟨ctx', hjwt, h⟩ := trail_bind_done h
  obtain ⟨_, htotp, h⟩ := trail_bind_done h
  obtain ⟨_, hrole, h⟩ := trail_bind_done h
  obtain ⟨_, hreauth, h⟩ := trail_bind_done h
  obtain rfl : ctx = ctx' := Prog.done.inj (trail_done h)
  exact ⟨admitted_of_trail hjwt, totp_of_trail htotp, role_of_trail hrole,
    fun hrequired => reauth_of_trail hreauth hrequired⟩

end Trails

end LpPlatform.AdminGuards
