import LpPlatform.AdminGuards

/-!
# Safety of admin sessions

Logins, verifications, password checks and other requests run in any
interleaving and read any clock. Each touches its own columns of a session:
none takes a revocation back, and only a password check stores the hash of a
token. So what the guards read of a session is what the last of these calls
left there, and a session that was revoked before a request started is never
seen live by it.
-/

namespace LpPlatform.AdminSessions

open AdminAuth AdminGuards AdminTables JsValues Ledger RowStore Sessions SessionTrails
open StatementProgram StatementWrites StepRuns

/-- A write that stores no token, and inserts only verified sessions. -/
def Plain : AccountWrite → Prop
  | .insertSession row =>
    row.totpVerifiedAt ≠ none ∧ row.reauthTokenHash = none ∧ row.reauthValidUntil = none
  | .changeSession _ (.setReauth _ _) => False
  | _ => True

theorem plain_of_touches {x : AccountWrite} (h : Touches x) : Plain x := by
  cases x with
  | changeSession sessionId change => cases change <;> trivial
  | _ => exact h.elim

section Emissions

variable {K : AdminConfig}

theorem emits_login (email password : String) (ua ip : Option String) :
    Emits Plain (login K email password ua ip) := by
  refine emits_bind (emits_query _) fun found => ?_
  split
  · exact emits_throw _
  · split
    · exact emits_throw _
    · split
      · split
        · exact emits_throw _
        · refine emits_bind (emits_query _) fun sessionId => emits_bind (emits_query _) fun now =>
            emits_bind (emits_exec fun v i x hx => ?_) fun _ =>
              emits_bind (emits_query _) fun now => emits_done _
          obtain rfl := List.mem_singleton.mp hx
          simp [Plain]
      · exact emits_throw _

theorem emits_markTotpVerified (sessionId : String) : Emits Plain (markTotpVerified sessionId) :=
  emits_exec fun v i x hx => by
    obtain rfl := List.mem_singleton.mp hx
    trivial

theorem emits_changeUser {userId : String} (change : Input → UserChange) :
    Emits Plain (exec (fun _ i => [.changeUser userId (change i)]) fun _ _ => () :
      AccountProgram Unit) :=
  emits_exec fun v i x hx => by
    obtain rfl := List.mem_singleton.mp hx
    trivial

theorem emits_beginTotpSetup (user : UserRow) : Emits Plain (beginTotpSetup K user) := by
  unfold beginTotpSetup
  split
  · exact emits_throw _
  · exact emits_bind (emits_query _) fun secret => emits_bind (emits_query _) fun ciphertext =>
      emits_bind (emits_changeUser _) fun _ => emits_done _

theorem emits_finalizeTotpSetup (user : UserRow) (code : String) :
    Emits Plain (finalizeTotpSetup K user code) := by
  unfold finalizeTotpSetup
  split
  · exact emits_throw _
  · refine emits_bind (emits_ofExcept _) fun secret => emits_bind (emits_query _) fun now => ?_
    split
    · exact emits_bind (emits_query _) fun recoveryCodes => emits_bind (emits_query _) fun hashes =>
        emits_bind (emits_changeUser _) fun _ => emits_done _
    · exact emits_throw _

theorem emits_verifyTotp (user : UserRow) (sessionId code : String) :
    Emits Plain (verifyTotp K user sessionId code) := by
  unfold verifyTotp
  split
  · refine emits_bind (emits_ofExcept _) fun secret => emits_bind (emits_query _) fun now => ?_
    split
    · exact emits_markTotpVerified _
    · exact emits_throw _
  · exact emits_throw _

theorem emits_consumeRecoveryCode (user : UserRow) (sessionId code : String) :
    Emits Plain (consumeRecoveryCode K user sessionId code) := by
  unfold consumeRecoveryCode
  split
  · exact emits_throw _
  · exact emits_bind (emits_changeUser _) fun _ => emits_markTotpVerified _

theorem emits_issueReauthToken (user : UserRow) (sessionId password : String) :
    Emits (fun _ => True) (issueReauthToken K user sessionId password) := by
  unfold issueReauthToken
  split
  · exact emits_bind (emits_query _) fun token => emits_bind (emits_query _) fun hash =>
      emits_bind (emits_query _) fun now => emits_bind (emits_exec fun _ _ _ _ => trivial) fun _ =>
        emits_done _
  · exact emits_throw _

/-- Only a password check writes anything but plain writes. -/
theorem emits_handle (ctx : AdminRequestContext) (action : AdminAction) :
    Emits (fun x => Plain x ∨ ∃ body, action = .reauth body) (handle K ctx action) := by
  have hplain : ∀ {p : AccountProgram Unit}, Emits Plain p →
      Emits (fun x => Plain x ∨ ∃ body, action = .reauth body) p :=
    fun hp => emits_mono hp fun x hx => Or.inl hx
  cases action with
  | totpSetup =>
    exact hplain (emits_bind (emits_beginTotpSetup _) fun _ => emits_done _)
  | verifySetup body =>
    exact hplain (emits_bind (emits_ofExcept _) fun code =>
      emits_bind (emits_finalizeTotpSetup _ _) fun _ => emits_done _)
  | verifyTotp body =>
    exact hplain (emits_bind (emits_ofExcept _) fun code => emits_verifyTotp _ _ _)
  | useRecovery body =>
    exact hplain (emits_bind (emits_ofExcept _) fun code => emits_consumeRecoveryCode _ _ _)
  | reauth body =>
    have hissue : Emits (fun _ => True) (handle K ctx (.reauth body)) :=
      emits_bind (emits_ofExcept _) fun password =>
        emits_bind (emits_issueReauthToken _ _ _) fun _ => emits_done _
    exact emits_mono hissue fun x _ => Or.inr ⟨body, rfl⟩
  | other endpoint => exact emits_done _

theorem emits_loginCall (body : Json) (ua ip : Option String) :
    Emits Plain (admins K (.login body ua ip)) :=
  emits_bind (emits_ofExcept _) fun _ => emits_bind (emits_login _ _ _ _) fun _ => emits_done _

theorem auto_admins (call : AdminCall) : AutoCommits (admins K call) := by
  cases call with
  | login body ua ip => exact (emits_loginCall body ua ip).auto
  | request req =>
    have hemits : Emits (fun _ => True) (admins K (.request req)) :=
      emits_bind (emits_mono (emits_guards req) fun _ _ => trivial) fun ctx =>
        emits_mono (emits_handle ctx req.action) fun _ _ => trivial
    exact hemits.auto

end Emissions

section Trails

variable {K : AdminConfig} {s : AdminWorld} {es : List (Event AdminCall Input Failure)} {t : ℕ}

/-- A request has issued a token to a session: it has passed the guards on
it, its password was checked, and it has drawn the token and read the clock. -/
structure Issue (K : AdminConfig) (s : AdminWorld) (es : List (Event AdminCall Input Failure))
    (t : ℕ) (req : AdminRequest) (sessionId token hash : String) (issuedAt : Instant) : Prop where
  /-- The password of the user it read was checked on the way. -/
  checked : ∃ ctx body password, Guarded K (admins K) s es t req ctx ∧
    ctx.session.sessionId = sessionId ∧ req.action = .reauth body ∧
    reauthBodySchema body = .ok password ∧ K.argon2.verify ctx.user.passwordHash password = true
  /-- The token is one it has drawn. -/
  drawn : ∃ u i, Runs (admins K) s es t u i ∧ token = i.id 0
  /-- What is stored is a hash of the token. -/
  hashed : ∃ salt, hash = K.argon2.hash salt token
  /-- The clock was read on the way. -/
  clock : ∃ u i, Runs (admins K) s es t u i ∧ issuedAt = i.now

/-- The places at which a call may write: it stores a token it has issued, or
does nothing of the kind. -/
inductive Place (K : AdminConfig) (s : AdminWorld) (es : List (Event AdminCall Input Failure))
    (t : ℕ) (call : AdminCall) : (View Accounts → Input → List AccountWrite) → Prop where
  | plain {ws} (h : ∀ v i, ∀ x ∈ ws v i, Plain x) : Place K s es t call ws
  | issuing {req sessionId token hash issuedAt} (hcall : call = .request req)
      (hissue : Issue K s es t req sessionId token hash issuedAt) :
      Place K s es t call fun _ _ => [.changeSession sessionId
        (.setReauth hash (issuedAt + (K.reauthWindowSeconds : ℤ) * 1000))]

/-- A statement on the trail of a call is at one of these places. -/
theorem place_of_trail {call : AdminCall} {ws : View Accounts → Input → List AccountWrite}
    {k : View Accounts → Input → AccountProgram Unit} {err : Failure → AccountProgram Unit}
    (h : Trail accounts (admins K) s es t (admins K call) (.stmt ws k err)) :
    Place K s es t call ws := by
  by_cases htelling : Telling (.stmt ws k err : AccountProgram Unit)
  case neg =>
    refine .plain fun v i x hx => absurd ⟨v, i, ?_⟩ htelling
    exact List.ne_nil_of_mem hx
  cases call with
  | login body ua ip => exact .plain (trail_emits (emits_loginCall body ua ip) h)
  | request req =>
    rcases trail_bind_stmt h with ⟨k', err', hguards⟩ | ⟨ctx, hctx, h⟩
    · exact .plain fun v i x hx => plain_of_touches (trail_emits (emits_guards req) hguards v i x hx)
    · have hguarded := guarded_of_trail hctx
      cases haction : req.action with
      | reauth body =>
        rw [haction] at h
        change Trail accounts (admins K) s es t ((ofExcept (reauthBodySchema body)).bind fun password =>
          (issueReauthToken K ctx.user ctx.session.sessionId password).bind fun _ => .done ()) _ at h
        cases hpassword : reauthBodySchema body with
        | error e =>
          rw [hpassword] at h
          exact absurd (trail_throw h) (by simp)
        | ok password =>
          rw [hpassword] at h
          change Trail accounts (admins K) s es t
            ((issueReauthToken K ctx.user ctx.session.sessionId password).bind fun _ => .done ()) _ at h
          rcases trail_bind_stmt h with ⟨k', err', h⟩ | ⟨_, -, hdone⟩
          · unfold issueReauthToken at h
            split at h
            · rename_i hverify
              obtain ⟨u₁, i₁, u₁', hdraw, h⟩ := trail_query h htelling
              obtain ⟨u₂, i₂, u₂', -, h⟩ := trail_query h htelling
              obtain ⟨u₃, i₃, u₃', hclock, h⟩ := trail_query h htelling
              rcases trail_exec h htelling with heq | ⟨_, _, _, -, -, hdone⟩
              · obtain ⟨rfl, -, -⟩ := Prog.stmt.inj heq
                exact .issuing rfl ⟨⟨ctx, body, password, hguarded, rfl, haction, hpassword, hverify⟩,
                  ⟨u₁, i₁, ⟨u₁', hdraw⟩, rfl⟩, ⟨i₂.id 0, rfl⟩, ⟨u₃, i₃, ⟨u₃', hclock⟩, rfl⟩⟩
              · exact absurd (trail_done hdone) (by simp)
            · exact absurd (trail_throw h) (by simp)
          · exact absurd (trail_done hdone) (by simp)
      | _ =>
        refine .plain fun v i x hx => ?_
        rcases trail_emits (emits_handle ctx req.action) h v i x hx with hplain | ⟨body, hbody⟩
        · exact hplain
        · exact absurd (haction.symm.trans hbody) (by simp)

end Trails

section Rows

/-- What a write issues to a session: who wrote, the hash and its end. -/
def issuedTo (sessionId : String) : ℕ × AccountWrite → Option (ℕ × String × Instant)
  | (t, .changeSession sid (.setReauth hash validUntil)) =>
    if sid = sessionId then some (t, hash, validUntil) else none
  | _ => none

/-- The last that was issued to a session. -/
def lastIssued (sessionId : String) (H : List (ℕ × AccountWrite)) : Option (ℕ × String × Instant) :=
  (H.filterMap (issuedTo sessionId)).getLast?

variable {sessionId : String} {H : List (ℕ × AccountWrite)} {t : ℕ} {x : AccountWrite} {db : Accounts}

theorem issuedTo_plain (h : Plain x) : issuedTo sessionId (t, x) = none := by
  cases x with
  | changeSession sid change =>
    cases change with
    | setReauth hash validUntil => exact h.elim
    | _ => rfl
  | _ => rfl

theorem lastIssued_plain (h : Plain x) : lastIssued sessionId (H ++ [(t, x)]) = lastIssued sessionId H := by
  simp [lastIssued, issuedTo_plain h]

theorem lastIssued_mem {t : ℕ} {hash : String} {validUntil : Instant}
    (h : lastIssued sessionId H = some (t, hash, validUntil)) :
    (t, .changeSession sessionId (.setReauth hash validUntil)) ∈ H := by
  obtain ⟨⟨u, x⟩, hx, hissued⟩ := List.mem_filterMap.mp (List.mem_of_getLast? h)
  unfold issuedTo at hissued
  split at hissued
  · rename_i heq
    obtain ⟨rfl, rfl⟩ := Prod.mk.inj heq
    obtain ⟨rfl, hsome⟩ := Option.ite_none_right_eq_some.mp hissued
    obtain ⟨rfl, rfl, rfl⟩ : u = t ∧ _ = hash ∧ _ = validUntil := by simpa using hsome
    exact hx
  · simp at hissued

/-- The sessions a store begins with: as many as there are, verified, and none
with a token. An empty table is one. -/
structure Opened (db : Accounts) : Prop where
  ids : (db.sessions.map (·.sessionId)).Nodup
  verified : ∀ row ∈ db.sessions, row.totpVerifiedAt ≠ none
  tokens : ∀ row ∈ db.sessions, row.reauthTokenHash = none ∧ row.reauthValidUntil = none

/-- What the sessions hold, after what was written. -/
structure Kept (db : Accounts) (H : List (ℕ × AccountWrite)) : Prop where
  ids : (db.sessions.map (·.sessionId)).Nodup
  verified : ∀ row ∈ db.sessions, row.totpVerifiedAt ≠ none
  /-- A session holds what was last issued to it. -/
  tokens : ∀ row ∈ db.sessions,
    row.reauthTokenHash = (lastIssued row.sessionId H).map (·.2.1) ∧
    row.reauthValidUntil = (lastIssued row.sessionId H).map (·.2.2)
  /-- Tokens are issued to sessions that are there. -/
  known : ∀ sessionId, lastIssued sessionId H ≠ none → sessionId ∈ db.sessions.map (·.sessionId)

/-- Sessions are never removed. -/
theorem ids_apply (h : sessionId ∈ db.sessions.map (·.sessionId)) :
    sessionId ∈ (db.apply x).sessions.map (·.sessionId) := by
  cases x with
  | insertSession row => simpa [Accounts.apply] using Or.inl (by simpa using h)
  | changeSession sid change =>
    rw [Accounts.apply, updateAt_keeps (·.sessionId) (fun s => apply_sessionId s change)]
    exact h
  | changeUser userId change => exact h

theorem not_mem_of_valid {row : AdminSessionRow} (h : db.valid (.insertSession row) = true) :
    row.sessionId ∉ db.sessions.map (·.sessionId) := by
  intro hin
  obtain ⟨old, hold, heq⟩ := List.mem_map.mp hin
  have hat : old ∈ rowsAt (·.sessionId) row.sessionId db.sessions := mem_rowsAt.mpr ⟨hold, heq⟩
  rw [List.isEmpty_iff.mp h] at hat
  simp at hat

theorem ids_nodup (h : (db.sessions.map (·.sessionId)).Nodup) (hvalid : db.valid x = true) :
    ((db.apply x).sessions.map (·.sessionId)).Nodup := by
  cases x with
  | insertSession row => exact nodup_insert h hvalid
  | changeSession sid change =>
    rw [Accounts.apply, updateAt_keeps (·.sessionId) (fun s => apply_sessionId s change)]
    exact h
  | changeUser userId change => exact h

/-- The session is there, and all there is under its id has a property. -/
def Stays (P : AdminSessionRow → Prop) (sessionId : String) (db : Accounts) : Prop :=
  sessionId ∈ db.sessions.map (·.sessionId) ∧
    ∀ row ∈ db.sessions, row.sessionId = sessionId → P row

/-- What no change of columns takes from a session stays with it. -/
theorem stays_apply {P : AdminSessionRow → Prop}
    (hP : ∀ row (change : SessionChange), P row → P (change.apply row)) (h : Stays P sessionId db)
    (hvalid : db.valid x = true) : Stays P sessionId (db.apply x) := by
  obtain ⟨hin, hall⟩ := h
  refine ⟨ids_apply hin, fun row hrow hid => ?_⟩
  cases x with
  | insertSession new =>
    rcases List.mem_append.mp hrow with hrow | hrow
    · exact hall row hrow hid
    · obtain rfl := List.mem_singleton.mp hrow
      exact absurd (hid ▸ hin) (not_mem_of_valid hvalid)
  | changeSession sid change =>
    obtain ⟨was, hwas, ⟨-, rfl⟩ | ⟨-, rfl⟩⟩ := mem_updateAt.mp hrow
    · rw [apply_sessionId] at hid
      exact hP was change (hall was hwas hid)
    · exact hall row hwas hid
  | changeUser userId change => exact hall row hrow hid

theorem revoked_change (row : AdminSessionRow) (change : SessionChange) (h : row.revokedAt ≠ none) :
    (change.apply row).revokedAt ≠ none := by
  cases change with
  | revoke at_ => simp [SessionChange.apply]
  | _ => exact h

/-- A plain write keeps what the sessions hold. -/
theorem kept_plain (h : Kept db H) (hx : Plain x) (hvalid : db.valid x = true) :
    Kept (db.apply x) (H ++ [(t, x)]) := by
  refine ⟨ids_nodup h.ids hvalid, fun row hrow => ?_, fun row hrow => ?_, fun sid hsid => ?_⟩
  · cases x with
    | insertSession new =>
      rcases List.mem_append.mp hrow with hrow | hrow
      · exact h.verified row hrow
      · obtain rfl := List.mem_singleton.mp hrow
        exact hx.1
    | changeSession sid change =>
      obtain ⟨old, hold, ⟨-, rfl⟩ | ⟨-, rfl⟩⟩ := mem_updateAt.mp hrow
      · cases change with
        | markTotpVerified totp activity => simp [SessionChange.apply]
        | _ => exact h.verified old hold
      · exact h.verified row hold
    | changeUser userId change => exact h.verified row hrow
  · rw [lastIssued_plain hx]
    cases x with
    | insertSession new =>
      rcases List.mem_append.mp hrow with hrow | hrow
      · exact h.tokens row hrow
      · obtain rfl := List.mem_singleton.mp hrow
        have hnone : lastIssued row.sessionId H = none := by
          by_contra hsome
          exact not_mem_of_valid hvalid (h.known row.sessionId hsome)
        simp [hnone, hx.2]
    | changeSession sid change =>
      obtain ⟨old, hold, ⟨-, rfl⟩ | ⟨-, rfl⟩⟩ := mem_updateAt.mp hrow
      · rw [apply_sessionId]
        cases change with
        | setReauth hash validUntil => exact hx.elim
        | _ => exact h.tokens old hold
      · exact h.tokens row hold
    | changeUser userId change => exact h.tokens row hrow
  · rw [lastIssued_plain hx] at hsid
    exact ids_apply (h.known sid hsid)

/-- A token stored for a session is the last issued to it. -/
theorem kept_issuing (h : Kept db H) {hash : String} {validUntil : Instant}
    (hin : sessionId ∈ db.sessions.map (·.sessionId)) :
    Kept (db.apply (.changeSession sessionId (.setReauth hash validUntil)))
      (H ++ [(t, .changeSession sessionId (.setReauth hash validUntil))]) := by
  have hlast : ∀ sid, lastIssued sid (H ++ [(t, .changeSession sessionId (.setReauth hash validUntil))]) =
      if sessionId = sid then some (t, hash, validUntil) else lastIssued sid H := by
    intro sid
    by_cases hsid : sessionId = sid <;> simp [lastIssued, issuedTo, hsid]
  refine ⟨ids_nodup h.ids rfl, fun row hrow => ?_, fun row hrow => ?_, fun sid hsid => ?_⟩
  · obtain ⟨old, hold, ⟨-, rfl⟩ | ⟨-, rfl⟩⟩ := mem_updateAt.mp hrow
    · exact h.verified old hold
    · exact h.verified row hold
  · rw [hlast]
    obtain ⟨old, hold, ⟨hkey, rfl⟩ | ⟨hkey, rfl⟩⟩ := mem_updateAt.mp hrow
    · simp [SessionChange.apply, hkey]
    · rw [if_neg (Ne.symm hkey)]
      exact h.tokens row hold
  · rw [hlast] at hsid
    refine ids_apply ?_
    by_cases heq : sessionId = sid
    · exact heq ▸ hin
    · rw [if_neg heq] at hsid
      exact h.known sid hsid

end Rows

section Runs

variable {K : AdminConfig} {d : Accounts} {n : ℕ} {es : List (Event AdminCall Input Failure)}
variable {w : AdminWorld}

/-- One event of these worlds. -/
abbrev adminStep (K : AdminConfig) : AdminWorld → Event AdminCall Input Failure → Option AdminWorld :=
  World.step accounts (admins K)

/-- The writes committed by a run. -/
abbrev adminHistory (K : AdminConfig) (d : Accounts) (n : ℕ)
    (es : List (Event AdminCall Input Failure)) : List (ℕ × AccountWrite) :=
  history accounts (admins K) (World.initial d n) es

/-- The request was made in the run. -/
def Made (K : AdminConfig) (d : Accounts) (n : ℕ) (es : List (Event AdminCall Input Failure)) (t : ℕ)
    (req : AdminRequest) : Prop :=
  ∃ u u', Takes (adminStep K) (World.initial d n) es u (.start t (.request req)) u'

/-- Plain writes, one after the other. -/
theorem kept_plains {H : List (ℕ × AccountWrite)} {t : ℕ} {ws : List AccountWrite} {db : Accounts}
    (h : Kept db H) (hplain : ∀ x ∈ ws, Plain x) (hvalid : accounts.validAll db ws = true) :
    Kept (accounts.applyAll db ws) (H ++ ws.map (t, ·)) := by
  induction ws generalizing db H with
  | nil => simpa using h
  | cons x ws ih =>
    obtain ⟨hx, hrest⟩ := Bool.and_eq_true_iff.mp hvalid
    have hone := kept_plain (t := t) h (hplain x List.mem_cons_self) hx
    have hall := ih hone (fun y hy => hplain y (List.mem_cons_of_mem x hy)) hrest
    rw [List.map_cons, List.append_cons]
    exact hall

/-- A session once there is there in every later world. -/
theorem ids_later {front later : List (Event AdminCall Input Failure)} {u : AdminWorld}
    (hf : run (adminStep K) (World.initial d n) front = some u)
    (hlater : run (adminStep K) u later = some w) {sessionId : String}
    (h : sessionId ∈ u.db.sessions.map (·.sessionId)) :
    sessionId ∈ w.db.sessions.map (·.sessionId) :=
  valid_rows (I := fun db => sessionId ∈ db.sessions.map (·.sessionId)) auto_admins
    (fun _ _ hin _ => ids_apply hin) hf hlater h

/-- After every run the sessions hold what was written to them. -/
theorem kept_run (hd : Opened d) (hrun : run (adminStep K) (World.initial d n) es = some w) :
    Kept w.db (adminHistory K d n es) := by
  refine history_invariant (I := Kept) ?_ ?_ hrun
  · refine ⟨hd.ids, hd.verified, fun row hrow => ?_, fun sid hsid => absurd rfl hsid⟩
    exact hd.tokens row hrow
  · intro front u e u' hf hstep _ h
    have hdb := step_committed hstep
    cases hc : u.commit? accounts e with
    | none =>
      have hnone : committed accounts u e = [] := by simp [committed, hc]
      rw [hnone] at hdb ⊢
      simpa [hdb] using h
    | some commit =>
      obtain ⟨t, ws⟩ := commit
      have hlist : committed accounts u e = ws.map (t, ·) := by simp [committed, hc]
      have hvalid := commit_valid auto_admins hf hstep hc
      rw [hlist] at hdb ⊢
      rw [List.map_map, Function.comp_def, List.map_id'] at hdb
      obtain ⟨call, v, v', i, f, k, err, a, hstart, rfl, hses, htrail, rfl⟩ :=
        committer auto_admins hf hc
      rw [hdb]
      cases place_of_trail htrail with
      | plain hplain => exact kept_plains h (hplain _ i) hvalid
      | @issuing req sessionId token hash issuedAt hcall hissue =>
        refine kept_issuing h ?_
        -- the session was there when the guards read it
        obtain ⟨ctx, body, password, hguarded, rfl, -⟩ := hissue.checked
        obtain ⟨x, j, ⟨x', before, after, rfl, hbefore, hx⟩, hread⟩ := hguarded.admitted.session
        have hlater : run (adminStep K) x (.step t j :: after) = some u := by
          simpa [run_append, hbefore] using hf
        exact ids_later hbefore hlater (List.mem_map_of_mem hread)

/-- What was stored as a token was issued. -/
theorem issue_of_history {t : ℕ} {sessionId hash : String} {validUntil : Instant}
    (h : (t, .changeSession sessionId (.setReauth hash validUntil)) ∈ adminHistory K d n es) :
    ∃ req token issuedAt, Made K d n es t req ∧
      Issue K (World.initial d n) es t req sessionId token hash issuedAt ∧
      validUntil = issuedAt + (K.reauthWindowSeconds : ℤ) * 1000 := by
  obtain ⟨u, e, u', htakes, hin⟩ := mem_history.mp h
  obtain ⟨ws, hc, hx⟩ := (mem_committed accounts).mp hin
  obtain ⟨front, back, rfl, hf, -⟩ := htakes
  obtain ⟨call, v, v', i, f, k, err, a, hstart, -, -, htrail, rfl⟩ := committer auto_admins hf hc
  have hwhole : Trail accounts (admins K) (World.initial d n) (front ++ e :: back) t
      (admins K call) (.stmt f k err) := trail_mono (fun _ _ _ h => takes_front h) htrail
  cases place_of_trail hwhole with
  | plain hplain => exact (hplain _ i _ hx).elim
  | @issuing req sid token stored issuedAt hcall hissue =>
    subst hcall
    obtain ⟨rfl, rfl, rfl⟩ : sessionId = sid ∧ hash = stored ∧
        validUntil = issuedAt + (K.reauthWindowSeconds : ℤ) * 1000 := by simpa using hx
    exact ⟨req, token, issuedAt, ⟨v, v', takes_front hstart⟩, hissue, rfl⟩

/-- A session once revoked is revoked in every later world. -/
theorem revoked_later (hd : Opened d) {front later : List (Event AdminCall Input Failure)}
    {u : AdminWorld} (hf : run (adminStep K) (World.initial d n) front = some u)
    (hlater : run (adminStep K) u later = some w) {old : AdminSessionRow} (hold : old ∈ u.db.sessions)
    (hrevoked : old.revokedAt ≠ none) :
    ∀ row ∈ w.db.sessions, row.sessionId = old.sessionId → row.revokedAt ≠ none := by
  have hids := (kept_run hd hf).ids
  refine (valid_rows (I := Stays (·.revokedAt ≠ none) old.sessionId) auto_admins
    (fun db x hdb hvalid => stays_apply revoked_change hdb hvalid) hf hlater
    ⟨List.mem_map_of_mem hold, fun row hrow hid => ?_⟩).2
  obtain rfl : row = old := List.inj_on_of_nodup_map hids hrow hold hid
  exact hrevoked

/-- The guards of a request have accepted it with the rows they have read. -/
def Accepted (K : AdminConfig) (d : Accounts) (n : ℕ) (es : List (Event AdminCall Input Failure))
    (t : ℕ) (req : AdminRequest) (ctx : AdminRequestContext) : Prop :=
  Made K d n es t req ∧
    Trail accounts (admins K) (World.initial d n) es t (guards K req) (.done ctx)

/-- A request that was answered had been accepted. -/
theorem answered_accepted {t : ℕ} {req : AdminRequest} {txn : Option (Txn Accounts AccountWrite)}
    {a : Bool} (hmade : Made K d n es t req)
    (hrun : run (adminStep K) (World.initial d n) es = some w)
    (hses : w.sessions t = some ⟨.done (), txn, a⟩) : ∃ ctx, Accepted K d n es t req ctx := by
  obtain ⟨call, u, u', hstart, hleft⟩ := left_run auto_admins hrun hses
  obtain ⟨v, v', hreq⟩ := hmade
  obtain rfl := start_once hstart hreq
  obtain ⟨ctx, hguards, -⟩ := trail_bind_done hleft.trail
  exact ⟨ctx, ⟨v, v', hreq⟩, hguards⟩

/-- The request presents a token, and when the guards read the session that
token was the last issued to it, by a call of its own that had checked a
password, less than the window before the guards looked at the clock. -/
def Fresh (K : AdminConfig) (d : Accounts) (n : ℕ) (es : List (Event AdminCall Input Failure)) (t : ℕ)
    (req : AdminRequest) (session : AdminSessionRow) : Prop :=
  ∃ token front i back u, req.reauthToken = some token ∧ es = front ++ .step t i :: back ∧
    run (adminStep K) (World.initial d n) front = some u ∧ session ∈ u.db.sessions ∧
    ∃ t' req' hash issuedAt, Made K d n front t' req' ∧
      Issue K (World.initial d n) front t' req' session.sessionId token hash issuedAt ∧
      lastIssued session.sessionId (adminHistory K d n front) =
        some (t', hash, issuedAt + (K.reauthWindowSeconds : ℤ) * 1000) ∧
      ∃ v j, Runs (admins K) (World.initial d n) es t v j ∧
        j.now - issuedAt < (K.reauthWindowSeconds : ℤ) * 1000

/-- What holds of a request that was accepted. -/
structure Safe (K : AdminConfig) (d : Accounts) (n : ℕ) (es : List (Event AdminCall Input Failure))
    (t : ℕ) (req : AdminRequest) (ctx : AdminRequestContext) : Prop where
  /-- The session it read was live, neither expired nor idle, and the user an
  admin who was neither suspended nor deleted. -/
  admitted : Admitted K (admins K) (World.initial d n) es t req ctx
  /-- The second factor of the session was verified. -/
  totp : ctx.session.totpVerifiedAt ≠ none
  /-- On a sensitive endpoint it presented a fresh token. -/
  reauth : req.action.endpoint.requireReauth = true → Fresh K d n es t req ctx.session
  /-- In no world up to its start had the session been revoked. -/
  unrevoked : ∀ front back v v', es = front ++ .start t (.request req) :: back →
    run (adminStep K) (World.initial d n) front = some v →
    adminStep K v (.start t (.request req)) = some v' →
    ∀ u, Visits (adminStep K) (World.initial d n) front u → ∀ row ∈ u.db.sessions,
      row.sessionId = ctx.session.sessionId → row.revokedAt = none

/-- A session that takes a step is there. -/
theorem stepping_session {u u' : AdminWorld} {t : ℕ} {i : Input}
    (h : adminStep K u (.step t i) = some u') : (u.sessions t).isSome = true := by
  cases step_cases accounts h with
  | step hses halive hadv => simp [hses]

/-- What the guards read holds what was last issued to it. -/
theorem fresh_of_guarded (hd : Opened d) {t : ℕ} {req : AdminRequest} {ctx : AdminRequestContext}
    (h : Guarded K (admins K) (World.initial d n) es t req ctx)
    (hrequired : req.action.endpoint.requireReauth = true) : Fresh K d n es t req ctx.session := by
  obtain ⟨token, hash, validUntil, v, j, htoken, hhash, hvalid, hclock, hnow, hverify⟩ :=
    h.reauth hrequired
  obtain ⟨u, i, ⟨u', front, back, hes, hf, -⟩, hread⟩ := h.admitted.session
  obtain ⟨hstored, huntil⟩ := (kept_run hd hf).tokens ctx.session hread
  rw [hhash] at hstored
  rw [hvalid] at huntil
  cases hlast : lastIssued ctx.session.sessionId (adminHistory K d n front) with
  | none => simp [hlast] at hstored
  | some issued =>
    obtain ⟨t', hash', validUntil'⟩ := issued
    rw [hlast] at hstored huntil
    obtain rfl : hash = hash' := Option.some.inj hstored
    obtain rfl : validUntil = validUntil' := Option.some.inj huntil
    obtain ⟨req', token', issuedAt, hmade, hissue, rfl⟩ := issue_of_history (lastIssued_mem hlast)
    -- the hash verifies the token it was made of and no other
    obtain ⟨salt, hsalt⟩ := hissue.hashed
    rw [hsalt, K.argon2.verify_hash, decide_eq_true_eq] at hverify
    subst hverify
    exact ⟨token', front, i, back, u, htoken, hes, hf, hread, t', req', hash, issuedAt, hmade, hissue,
      hlast, v, j, hclock, sub_lt_iff_lt_add'.mpr hnow⟩

/-- In every run of logins, verifications, password checks and other requests,
on any sessions, in any interleaving and with any clock, a request is accepted
only when it is safe. -/
theorem admin_sessions_safe (hd : Opened d) {t : ℕ} {req : AdminRequest} {ctx : AdminRequestContext}
    (h : Accepted K d n es t req ctx) : Safe K d n es t req ctx := by
  obtain ⟨-, htrail⟩ := h
  have hguarded := guarded_of_trail htrail
  refine ⟨hguarded.admitted, ?totp, fresh_of_guarded hd hguarded, ?unrevoked⟩
  case totp =>
    obtain ⟨u, i, ⟨u', hread⟩, hin⟩ := hguarded.admitted.session
    obtain ⟨front, back, -, hf, -⟩ := hread
    exact (kept_run hd hf).verified ctx.session hin
  case unrevoked =>
    rintro front back v v' rfl hf hstep u ⟨before, after, rfl, hbefore⟩ row hrow hid
    by_contra hrevoked
    obtain ⟨x, i, ⟨x', hread⟩, hin⟩ := hguarded.admitted.session
    -- the guards have read the session after the request was started
    have hafter := start_before hf hstep hread (stepping_session (takes_step hread))
    obtain ⟨mid, rest, rfl, hmid, -⟩ := hafter
    have hlater : run (adminStep K) u (after ++ .start t (.request req) :: mid) = some x := by
      rw [run_append, hbefore, Option.bind_some] at hf
      simp [run_append, hf, hstep, hmid]
    exact revoked_later hd hbefore hlater hrow hrevoked ctx.session hin hid.symm hguarded.admitted.live

end Runs

section Examples

/-- An admin who has not signed in yet. -/
def oneAdmin : Accounts where
  users := [⟨"U1", "ops@lp.test", "argon2:password", .adminUser, none, some .ops, none, none, none,
    none⟩]
  sessions := []

/-- The admin asks for something sensitive with a token. -/
def sensitive : AdminRequest := ⟨none, some "S1", some "token", .other ⟨false, [.ops], true⟩⟩

/-- Statements that draw nothing. -/
def quietly (t count : ℕ) : List (Event AdminCall Input Failure) :=
  List.replicate count (.step t quiet)

/-- The admin signs in, confirms the password and presents the token. -/
def confirmed : List (Event AdminCall Input Failure) :=
  [.start 0 (.login (.obj [("email", .str "ops@lp.test"), ("password", .str "password")]) none none),
    .step 0 quiet, .step 0 (drawing "S1")] ++ quietly 0 3 ++
  [.start 1 (.request ⟨none, some "S1", none, .reauth (.obj [("password", .str "password")])⟩)] ++
    quietly 1 6 ++ [.step 1 (drawing "token")] ++ quietly 1 3 ++
  [.start 2 (.request sensitive)] ++ quietly 2 7

/-- The session has been answered. -/
def answered (t : ℕ) (w : AdminWorld) : Bool :=
  match w.sessions t with
  | some ⟨.done (), _, _⟩ => true
  | _ => false

theorem answered_session {t : ℕ} {w : AdminWorld} (h : answered t w = true) :
    ∃ txn a, w.sessions t = some ⟨.done (), txn, a⟩ := by
  unfold answered at h
  split at h
  · exact ⟨_, _, ‹_›⟩
  · simp at h

theorem admin_sessions_safe_confirmed : ∃ ctx,
    Accepted plainConfig oneAdmin 0 confirmed 2 sensitive ctx ∧
    Safe plainConfig oneAdmin 0 confirmed 2 sensitive ctx := by
  have hopened : Opened oneAdmin := ⟨by decide, by simp [oneAdmin], by simp [oneAdmin]⟩
  obtain ⟨w, hrun, hcheck⟩ := run_reaches (adminStep plainConfig) (World.initial oneAdmin 0)
    confirmed (answered 2) (by decide +kernel)
  obtain ⟨txn, a, hses⟩ := answered_session hcheck
  have hmade : Made plainConfig oneAdmin 0 confirmed 2 sensitive :=
    mem_takes hrun (by simp [confirmed])
  obtain ⟨ctx, haccepted⟩ := answered_accepted hmade hrun hses
  exact ⟨ctx, haccepted, admin_sessions_safe hopened haccepted⟩

end Examples

end LpPlatform.AdminSessions
