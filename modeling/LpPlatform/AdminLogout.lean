import LpPlatform.AdminSessions

/-!
# Signing out as an admin

A logout drops the cookies of the browser by its answer. It reads no token and
runs no statement, so the session stays what it was. After a logout a token
is dead only if it was dead before: it was no good, its session was revoked or
had expired, or its user was no active admin.
-/

namespace LpPlatform.AdminLogout

open AdminAuth AdminGuards AdminSessions AdminTables JsValues Ledger RowStore Sessions SessionTrails
open StatementProgram StatementWrites StepRuns

/-- The calls of a browser. -/
inductive PortalCall where
  | admin (call : AdminCall)
  /-- A logout, with the token its request carries. -/
  | logout (token : Option String)

/-- `AdminAuthController.logout`. -/
def logout : AccountProgram Unit := return ()

/-- A call, without its result. -/
def portal (K : AdminConfig) : PortalCall → AccountProgram Unit
  | .admin call => admins K call
  | .logout _ => logout

section Runs

variable {K : AdminConfig} {d : Accounts} {n : ℕ} {es : List (Event PortalCall Input Failure)}
variable {w : AdminWorld}

/-- One event of these worlds. -/
abbrev portalStep (K : AdminConfig) :
    AdminWorld → Event PortalCall Input Failure → Option AdminWorld :=
  World.step accounts (portal K)

theorem auto_portal (call : PortalCall) : AutoCommits (portal K call) := by
  cases call with
  | admin call => exact auto_admins call
  | logout token => trivial

/-- A request that presents the token is started after a logout that carried
it was answered. -/
def PresentedAfter (es : List (Event PortalCall Input Failure)) (token : String) (t : ℕ)
    (req : AdminRequest) : Prop :=
  truthy (extractToken req) = some token ∧ ∃ front l mid back,
    es = front ++ .start l (.logout (some token)) ::
      (mid ++ .start t (.admin (.request req)) :: back)

/-- No request that presents a token after a logout passes the guard. -/
def LogoutEnds (K : AdminConfig) (d : Accounts) (n : ℕ)
    (es : List (Event PortalCall Input Failure)) : Prop :=
  ∀ token t req, PresentedAfter es token t req →
    ∀ ctx, ¬ Trail accounts (portal K) (World.initial d n) es t (adminJwtGuard K req) (.done ctx)

/-- The session has been revoked or has expired. -/
def Lapsed (now : Instant) (row : AdminSessionRow) : Prop :=
  row.revokedAt ≠ none ∨ row.expiresAt ≤ now

/-- An admin who is neither deleted nor suspended. -/
def Active (user : UserRow) : Prop :=
  user.userType = .adminUser ∧ user.deletedAt = none ∧ user.suspendedAt = none

/-- From this clock on the token is no good, the session it names has lapsed,
or the user it names is no active admin. -/
def Over (K : AdminConfig) (db : Accounts) (token : String) (now : Instant) : Prop :=
  ∀ payload, K.jwt.payload token = some payload →
    (∀ clock, now ≤ clock → K.jwt.expired token clock = true) ∨
    (∃ row ∈ db.sessions, row.sessionId = payload.sid ∧ Lapsed now row) ∨
    ∀ user ∈ db.users, user.userId = payload.sub → ¬ Active user

theorem lapsed_change {now : Instant} (row : AdminSessionRow) (change : SessionChange)
    (h : Lapsed now row) : Lapsed now (change.apply row) := by
  rcases h with hrevoked | hexpired
  · exact Or.inl (revoked_change row change hrevoked)
  · refine Or.inr ?_
    cases change <;> exact hexpired

/-- No write makes an admin active. -/
theorem inactive_apply {sub : String} {db : Accounts} {x : AccountWrite}
    (h : ∀ user ∈ db.users, user.userId = sub → ¬ Active user) :
    ∀ user ∈ (db.apply x).users, user.userId = sub → ¬ Active user := by
  cases x with
  | changeUser userId change =>
    intro user huser hid
    obtain ⟨was, hwas, ⟨-, rfl⟩ | ⟨-, rfl⟩⟩ := mem_updateAt.mp huser
    · rw [apply_userId] at hid
      have hactive := h was hwas hid
      cases change <;> exact hactive
    · exact h user hwas hid
  | _ => exact h

/-- In no run does a session appear twice. -/
theorem ids_run (hids : (d.sessions.map (·.sessionId)).Nodup)
    (hrun : run (portalStep K) (World.initial d n) es = some w) :
    (w.db.sessions.map (·.sessionId)).Nodup :=
  valid_rows (I := fun db => (db.sessions.map (·.sessionId)).Nodup) auto_portal
    (fun _ _ h hvalid => ids_nodup h hvalid) (run_nil (World.initial d n)) hrun hids

/-- A request that passes the guard has found its token good at some clock. -/
theorem unexpired_of_trail {γ α : Type} {program : γ → AccountProgram α}
    {s : World Accounts AccountWrite AccountKey Input Failure α}
    {es : List (Event γ Input Failure)} {t : ℕ} {req : AdminRequest} {ctx : AdminRequestContext}
    {token : String} (htoken : truthy (extractToken req) = some token)
    (h : Trail accounts program s es t (adminJwtGuard K req) (.done ctx)) :
    ∃ u i, Runs program s es t u i ∧ K.jwt.expired token i.now = false := by
  unfold adminJwtGuard at h
  simp only [htoken] at h
  obtain ⟨u, i, u', hdraw, h⟩ := trail_query h trivial
  refine ⟨u, i, ⟨u', hdraw⟩, ?_⟩
  by_contra hexpired
  have hnone : verifyJwt K token i.now = none := by simp [verifyJwt, hexpired]
  simp only [hnone] at h
  exact absurd (trail_throw h) (by simp)

/-- In every run of logins, requests and logouts, on any sessions, in any
interleaving and with any clock, in which each logout carries a token that is
over, no later request that presents the token is accepted. -/
theorem logout_ends (hids : (d.sessions.map (·.sessionId)).Nodup)
    (hrun : run (portalStep K) (World.initial d n) es = some w)
    (hover : ∀ front l token back u, es = front ++ .start l (.logout (some token)) :: back →
      run (portalStep K) (World.initial d n) front = some u →
      ∃ now, (∀ t i, .step t i ∈ back → now ≤ i.now) ∧ Over K u.db token now) :
    LogoutEnds K d n es := by
  rintro token t req ⟨htoken, front, l, mid, back, rfl⟩ ctx htrail
  rw [run_append] at hrun
  obtain ⟨u, hf, hrest⟩ := Option.bind_eq_some_iff.mp hrun
  obtain ⟨now, hclock, hdead⟩ := hover front l token _ u rfl hf
  -- whatever the request does, it does after the logout
  have hafter : ∀ {x i}, Runs (portal K) (World.initial d n) (front ++ .start l (.logout (some token)) ::
      (mid ++ .start t (.admin (.request req)) :: back)) t x i →
      (∃ later, run (portalStep K) u later = some x) ∧ now ≤ i.now := by
    rintro x i ⟨x', htakes⟩
    rw [← List.cons_append, run_append] at hrest
    obtain ⟨v, hmid, hrest⟩ := Option.bind_eq_some_iff.mp hrest
    obtain ⟨v', hstart, -⟩ := Option.bind_eq_some_iff.mp hrest
    have hv : run (portalStep K) (World.initial d n)
        (front ++ .start l (.logout (some token)) :: mid) = some v := by
      rw [run_append, hf]
      exact hmid
    have hsome : (x.sessions t).isSome = true := by
      cases step_cases accounts (takes_step htakes) with
      | step hses halive hadv => simp [hses]
    have hsplit : Takes (portalStep K) (World.initial d n)
        ((front ++ .start l (.logout (some token)) :: mid) ++
          .start t (.admin (.request req)) :: back) x (.step t i) x' := by simpa using htakes
    obtain ⟨before, rest, rfl, hbefore, -⟩ := start_before hv hstart hsplit hsome
    refine ⟨⟨(.start l (.logout (some token)) :: mid) ++ .start t (.admin (.request req)) :: before,
      ?_⟩, hclock t i (by simp)⟩
    rw [run_append, hmid, Option.bind_some, run_cons, hstart, Option.bind_some, hbefore]
  have hadmitted := admitted_of_trail htrail
  obtain ⟨token', payload, htoken', hpayload, hsid, hsub⟩ := hadmitted.token
  obtain rfl : token = token' := Option.some.inj (htoken.symm.trans htoken')
  rcases hdead payload hpayload with hexpired | ⟨row, hrow, hid, hlapsed⟩ | hinactive
  · obtain ⟨x, i, hruns, hgood⟩ := unexpired_of_trail htoken htrail
    simp [hexpired i.now (hafter hruns).2] at hgood
  · obtain ⟨x, i, hruns, hread⟩ := hadmitted.session
    obtain ⟨⟨later, hlater⟩, -⟩ := hafter hruns
    have hstays : Stays (Lapsed now) payload.sid u.db := by
      refine ⟨List.mem_map.mpr ⟨row, hrow, hid⟩, fun other hother hother_id => ?_⟩
      obtain rfl : other = row :=
        List.inj_on_of_nodup_map (ids_run hids hf) hother hrow (hother_id.trans hid.symm)
      exact hlapsed
    have hstill := valid_rows (I := Stays (Lapsed now) payload.sid) auto_portal
      (fun _ _ hdb hvalid => stays_apply lapsed_change hdb hvalid) hf hlater hstays
    rcases hstill.2 ctx.session hread hsid with hrevoked | hexpired
    · exact hrevoked hadmitted.live
    · obtain ⟨y, j, hruns', hbefore⟩ := hadmitted.expires
      exact absurd (hexpired.trans (hafter hruns').2) (not_le.mpr hbefore)
  · obtain ⟨x, i, hruns, hread⟩ := hadmitted.user
    obtain ⟨⟨later, hlater⟩, -⟩ := hafter hruns
    have hstill := valid_rows
      (I := fun db => ∀ user ∈ db.users, user.userId = payload.sub → ¬ Active user) auto_portal
      (fun _ _ hdb _ => inactive_apply hdb) hf hlater hinactive
    exact hstill ctx.user hread hsub
      ⟨hadmitted.admin, hadmitted.undeleted, hadmitted.unsuspended⟩

end Runs

section Examples

/-- Statements that draw nothing. -/
def calmly (t count : ℕ) : List (Event PortalCall Input Failure) :=
  List.replicate count (.step t quiet)

/-- The admin signs in. -/
def signedIn : List (Event PortalCall Input Failure) :=
  [.start 0 (.admin (.login (.obj [("email", .str "ops@lp.test"), ("password", .str "password")])
    none none)), .step 0 quiet, .step 0 (drawing "S1")] ++ calmly 0 3

/-- A request that presents the token of the session. -/
def presenting : AdminRequest := ⟨none, some "S1", none, .other ⟨false, [.ops], false⟩⟩

/-- The admin signs in and out, and the token is presented again. -/
def loggedOut : List (Event PortalCall Input Failure) :=
  signedIn ++ .start 1 (.logout (some "S1")) ::
    ([] ++ .start 2 (.admin (.request presenting)) :: calmly 2 6)

/-- A token outlives the logout. -/
theorem logout_keeps_session : ∃ w,
    run (portalStep plainConfig) (World.initial oneAdmin 0) loggedOut = some w ∧
    ¬ LogoutEnds plainConfig oneAdmin 0 loggedOut := by
  obtain ⟨w, hrun, hcheck⟩ := run_reaches (portalStep plainConfig) (World.initial oneAdmin 0)
    loggedOut (answered 2) (by decide +kernel)
  refine ⟨w, hrun, fun hends => ?_⟩
  obtain ⟨txn, a, hses⟩ := answered_session hcheck
  obtain ⟨call, u, u', hstart, hleft⟩ := left_run auto_portal hrun hses
  obtain ⟨v, v', hreq⟩ := mem_takes (e := .start 2 (.admin (.request presenting))) hrun
    (by simp [loggedOut])
  obtain rfl := start_once hstart hreq
  obtain ⟨ctx, hguards, -⟩ := trail_bind_done hleft.trail
  obtain ⟨ctx', hjwt, -⟩ := trail_bind_done hguards
  exact hends "S1" 2 presenting ⟨rfl, signedIn, 1, [], calmly 2 6, rfl⟩ ctx' hjwt

/-- The session goes idle and a request is turned away. -/
def turnedAway : List (Event PortalCall Input Failure) :=
  signedIn ++ .start 1 (.admin (.request presenting)) :: List.replicate 5 (.step 1 ⟨1000000, [], 0⟩)

/-- The token is presented again. -/
def oncemore : List (Event PortalCall Input Failure) :=
  [] ++ .start 3 (.admin (.request presenting)) :: List.replicate 2 (.step 3 ⟨1000000, [], 0⟩)

/-- The one session has been revoked. -/
def revoked (w : AdminWorld) : Bool :=
  w.db.sessions.any fun row => decide (row.sessionId = "S1" ∧ row.revokedAt ≠ none)

theorem logout_ends_turnedAway : ∃ w,
    run (portalStep plainConfig) (World.initial oneAdmin 0)
      (turnedAway ++ .start 2 (.logout (some "S1")) :: oncemore) = some w ∧
    LogoutEnds plainConfig oneAdmin 0 (turnedAway ++ .start 2 (.logout (some "S1")) :: oncemore) := by
  obtain ⟨w, hrun, -⟩ := run_reaches (portalStep plainConfig) (World.initial oneAdmin 0)
    (turnedAway ++ .start 2 (.logout (some "S1")) :: oncemore) revoked (by decide +kernel)
  refine ⟨w, hrun, logout_ends (by decide) hrun fun front l token back u hes hf => ?_⟩
  -- there is one logout in the run
  have hfront : Event.start l (.logout (some token)) ∉ turnedAway := by simp [turnedAway, signedIn, calmly]
  have hback : Event.start l (.logout (some token)) ∉ oncemore := by simp [oncemore]
  obtain ⟨rfl, hlogout, rfl⟩ := (List.append_cons_inj_of_notMem hfront hback).mp hes
  obtain ⟨rfl, rfl⟩ : 2 = l ∧ "S1" = token := by simpa using hlogout
  refine ⟨1000000, fun t i hi => ?_, fun payload hpayload => Or.inr (Or.inl ?_)⟩
  · obtain ⟨rfl, rfl⟩ : t = 3 ∧ i = ⟨1000000, [], 0⟩ := by simpa [oncemore] using hi
    exact le_refl _
  · obtain ⟨u', hf', hcheck⟩ := run_reaches (portalStep plainConfig) (World.initial oneAdmin 0)
      turnedAway revoked (by decide +kernel)
    obtain rfl : u = u' := Option.some.inj (hf.symm.trans hf')
    obtain ⟨row, hrow, hfound⟩ := List.any_eq_true.mp hcheck
    obtain ⟨hid, hrevoked⟩ := of_decide_eq_true hfound
    obtain rfl : _ = payload := Option.some.inj hpayload
    exact ⟨row, hrow, hid, Or.inl hrevoked⟩

end Examples

end LpPlatform.AdminLogout
