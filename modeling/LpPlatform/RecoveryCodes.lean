import LpPlatform.AdminGuards

/-!
# Recovery codes

A request that presents a recovery code reads its user in the guards, looks
for the code in that copy and removes the element at the position it found
from the stored array. When the stored array still has the code there, codes
are single use. When another request has removed an element in the meantime,
the wrong code goes, or none. Nothing ties the removal to the mark on the
session either: a request that fails or dies between the two has used the code
up for nothing.
-/

namespace LpPlatform.RecoveryCodes

open AdminAuth AdminGuards AdminTables JsValues Ledger RowStore Sessions SessionTrails
open StatementProgram StatementWrites StepRuns

/-- A request that presents a recovery code. -/
structure RecoveryUse where
  authorization : Option String
  cookie : Option String
  body : Json

/-- The request as the guards see it. -/
def RecoveryUse.request (r : RecoveryUse) : AdminRequest :=
  ⟨r.authorization, r.cookie, none, .useRecovery r.body⟩

/-- The endpoint `recovery/use`. -/
def recoveries (K : AdminConfig) (r : RecoveryUse) : AccountProgram Unit := admins K (.request r.request)

/-- The hashes a user has stored. -/
def codesOf (u : UserRow) : List String := u.recoveryCodesHash.getD []

/-- The request presents the code of a hash. -/
def Presents (K : AdminConfig) (r : RecoveryUse) (hash : String) : Prop :=
  ∃ code, recoveryBodySchema r.body = .ok code ∧ K.argon2.verify hash code = true

section Trails

variable {K : AdminConfig} {s : AdminWorld} {es : List (Event RecoveryUse Input Failure)} {t : ℕ}
variable {r : RecoveryUse}

theorem auto_recoveries (r : RecoveryUse) : AutoCommits (recoveries K r) := by
  have hemits : Emits (fun _ => True) (recoveries K r) := by
    refine emits_bind (emits_mono (emits_guards _) fun _ _ => trivial) fun ctx =>
      emits_bind (emits_ofExcept _) fun code => ?_
    unfold consumeRecoveryCode
    split
    · exact emits_throw _
    · exact emits_bind (emits_exec fun _ _ _ _ => trivial) fun _ =>
        emits_exec fun _ _ _ _ => trivial
  exact hemits.auto

/-- The places at which a request may write: in its guards, where it removes a
code, and where it marks its session once it has removed one. -/
inductive Place (K : AdminConfig) (s : AdminWorld) (es : List (Event RecoveryUse Input Failure))
    (t : ℕ) (r : RecoveryUse) :
    (View Accounts → Input → List AccountWrite) → (View Accounts → Input → AccountProgram Unit) →
      Prop where
  | guards {ws k} (h : ∀ v i, ∀ x ∈ ws v i, Touches x) : Place K s es t r ws k
  | removing {ctx code idx} (hctx : Admitted K (recoveries K) s es t r.request ctx)
      (hcode : recoveryBodySchema r.body = .ok code)
      (hidx : matchedIdx K.argon2 (codesOf ctx.user) code = some idx) :
      Place K s es t r (fun _ _ => [.changeUser ctx.user.userId (.consumeRecoveryCode idx)])
        fun _ _ => markTotpVerified ctx.session.sessionId
  | marking {ctx k} (hctx : Admitted K (recoveries K) s es t r.request ctx) :
      Place K s es t r
        (fun _ i => [.changeSession ctx.session.sessionId (.markTotpVerified i.now i.now)]) k

/-- A statement on the trail of a request is at one of these places. -/
theorem place_of_trail {ws : View Accounts → Input → List AccountWrite}
    {k : View Accounts → Input → AccountProgram Unit} {err : Failure → AccountProgram Unit}
    (h : Trail accounts (recoveries K) s es t (recoveries K r) (.stmt ws k err)) :
    Place K s es t r ws k := by
  rcases trail_bind_stmt h with ⟨k', err', hguards⟩ | ⟨ctx, hctx, h⟩
  · exact .guards (trail_emits (emits_guards r.request) hguards)
  · have hadmitted := (guarded_of_trail hctx).admitted
    change Trail accounts (recoveries K) s es t
      ((ofExcept (recoveryBodySchema r.body)).bind fun code =>
        consumeRecoveryCode K ctx.user ctx.session.sessionId code) _ at h
    cases hcode : recoveryBodySchema r.body with
    | error e =>
      rw [hcode] at h
      exact absurd (trail_throw h) (by simp)
    | ok code =>
      rw [hcode] at h
      change Trail accounts (recoveries K) s es t
        (consumeRecoveryCode K ctx.user ctx.session.sessionId code) _ at h
      unfold consumeRecoveryCode at h
      split at h
      · exact absurd (trail_throw h) (by simp)
      · rename_i idx hidx
        rcases trail_stmt h with heq | ⟨e, hthrow⟩ | ⟨u, u', i, k', err', a, -, -, h⟩
        · obtain ⟨rfl, rfl, -⟩ := Prog.stmt.inj heq
          exact .removing hadmitted hcode hidx
        · exact absurd (trail_throw hthrow) (by simp)
        · rcases trail_stmt h with heq | ⟨e, hthrow⟩ | ⟨_, _, _, _, _, _, -, -, hdone⟩
          · obtain ⟨rfl, -, -⟩ := Prog.stmt.inj heq
            exact .marking hadmitted
          · exact absurd (trail_throw hthrow) (by simp)
          · exact absurd (trail_done hdone) (by simp)

end Trails

section Runs

variable (K : AdminConfig) (d : Accounts) (n : ℕ) (es : List (Event RecoveryUse Input Failure))

/-- One event of these worlds. -/
abbrev useStep (K : AdminConfig) : AdminWorld → Event RecoveryUse Input Failure → Option AdminWorld :=
  World.step accounts (recoveries K)

/-- The request was made in the run. -/
def Made (t : ℕ) (r : RecoveryUse) : Prop :=
  ∃ u u', Takes (useStep K) (World.initial d n) es u (.start t r) u'

/-- The session has written in the run. -/
def Wrote (t : ℕ) (x : AccountWrite) : Prop :=
  (t, x) ∈ history accounts (recoveries K) (World.initial d n) es

/-- A request that presented a code has removed one from the user's array. -/
def Spends (t : ℕ) (userId hash : String) : Prop :=
  ∃ r idx, Made K d n es t r ∧ Presents K r hash ∧
    Wrote K d n es t (.changeUser userId (.consumeRecoveryCode idx))

/-- It has marked an admin session as verified. -/
def Marks (t : ℕ) (sessionId : String) : Prop :=
  ∃ totp activity, Wrote K d n es t (.changeSession sessionId (.markTotpVerified totp activity))

/-- A code has verified an admin session. -/
def Verified (userId hash sessionId : String) : Prop :=
  ∃ t, Spends K d n es t userId hash ∧ Marks K d n es t sessionId

/-- The request is about to mark its session. -/
def Marking (w : AdminWorld) (t : ℕ) : Prop :=
  ∃ sessionId, w.sessions t = some ⟨markTotpVerified sessionId, none, true⟩

/-- A code is single use in a run that has come to a world. -/
structure SingleUse (w : AdminWorld) (userId hash : String) : Prop where
  /-- It has verified one session at most. -/
  once : ∀ a b, Verified K d n es userId hash a → Verified K d n es userId hash b → a = b
  /-- When it has verified one it is not stored any more. -/
  spent : ∀ a, Verified K d n es userId hash a →
    ∀ user ∈ w.db.users, user.userId = userId → hash ∉ codesOf user
  /-- When it is not stored any more, a request that presented it has removed
  it, and has verified its session or is about to. -/
  kept : ∀ user ∈ w.db.users, user.userId = userId → hash ∉ codesOf user →
    ∃ t, Spends K d n es t userId hash ∧ ((∃ a, Marks K d n es t a) ∨ Marking w t)

/-- The codes of every admin are hashes of distinct texts. -/
structure DistinctCodes (K : AdminConfig) (d : Accounts) : Prop where
  users : (d.users.map (·.userId)).Nodup
  codes : ∀ user ∈ d.users, ∃ codes : List (String × String), (codes.map (·.2)).Nodup ∧
    codesOf user = codes.map fun c => K.argon2.hash c.1 c.2

/-- Whenever a request removes a code by its position, the stored array has a
code that the request presented at that position. -/
def InPlace : Prop :=
  ∀ t r u u' w e w' userId idx, Takes (useStep K) (World.initial d n) es u (.start t r) u' →
    Takes (useStep K) (World.initial d n) es w e w' →
    (t, .changeUser userId (.consumeRecoveryCode idx)) ∈ committed accounts w e →
    ∀ user ∈ w.db.users, user.userId = userId →
      ∃ hash, (codesOf user)[idx]? = some hash ∧ Presents K r hash

/-- No request that is about to mark its session fails there or dies. -/
def Unbroken : Prop :=
  ∀ t u e u', Takes (useStep K) (World.initial d n) es u e u' → Marking u t →
    e ≠ .crash t ∧ ∀ error, e ≠ .fail t error

end Runs

section Proofs

variable {K : AdminConfig} {d : Accounts} {n : ℕ} {es : List (Event RecoveryUse Input Failure)}

/-- Two hashes of one user that a request presents are one. -/
theorem presents_unique (hd : DistinctCodes K d) {user : UserRow} (huser : user ∈ d.users)
    {r : RecoveryUse} {a b : String} (ha : a ∈ codesOf user) (hb : b ∈ codesOf user)
    (hra : Presents K r a) (hrb : Presents K r b) : a = b := by
  obtain ⟨codes, hnodup, hcodes⟩ := hd.codes user huser
  rw [hcodes] at ha hb
  obtain ⟨x, hx, rfl⟩ := List.mem_map.mp ha
  obtain ⟨y, hy, rfl⟩ := List.mem_map.mp hb
  obtain ⟨code, hcode, hverify⟩ := hra
  obtain ⟨code', hcode', hverify'⟩ := hrb
  obtain rfl := Except.ok.inj (hcode.symm.trans hcode')
  rw [K.argon2.verify_hash, decide_eq_true_eq] at hverify hverify'
  rw [List.inj_on_of_nodup_map hnodup hx hy (hverify.trans hverify'.symm)]

/-- What the array loses with the element at a position. -/
theorem mem_codesOf_remove {user : UserRow} {idx : ℕ} {hash gone : String}
    (hgone : (codesOf user)[idx]? = some gone) :
    hash ∈ codesOf ((UserChange.consumeRecoveryCode idx).apply user) ↔
      hash ∈ codesOf user ∧ hash ≠ gone := by
  cases hcodes : user.recoveryCodesHash with
  | none => simp [codesOf, hcodes] at hgone
  | some codes =>
    have hat : codes[idx]? = some gone := by simpa [codesOf, hcodes] using hgone
    simp [codesOf, UserChange.apply, hcodes, arrayRemove, hat]

/-- The stored codes of a user are the initial ones less those spent, and a
code is spent by one request at most. -/
structure Remaining (K : AdminConfig) (d : Accounts) (n : ℕ)
    (es : List (Event RecoveryUse Input Failure)) (db : Accounts) (H : List (ℕ × AccountWrite)) :
    Prop where
  users : db.users.map (·.userId) = d.users.map (·.userId)
  codes : ∀ user₀ ∈ d.users, ∀ user ∈ db.users, user.userId = user₀.userId → ∀ hash,
    hash ∈ codesOf user ↔ hash ∈ codesOf user₀ ∧ ¬ ∃ t r idx, Made K d n es t r ∧
      Presents K r hash ∧ (t, .changeUser user₀.userId (.consumeRecoveryCode idx)) ∈ H
  once : ∀ user₀ ∈ d.users, ∀ hash ∈ codesOf user₀, ∀ t r idx t' r' idx',
    Made K d n es t r → Presents K r hash →
    (t, .changeUser user₀.userId (.consumeRecoveryCode idx)) ∈ H →
    Made K d n es t' r' → Presents K r' hash →
    (t', .changeUser user₀.userId (.consumeRecoveryCode idx')) ∈ H → t = t'

/-- Writes that leave users alone. -/
theorem remaining_other {db db' : Accounts} {H L : List (ℕ × AccountWrite)}
    (h : Remaining K d n es db H) (husers : db'.users = db.users)
    (hL : ∀ t userId idx, (t, .changeUser userId (.consumeRecoveryCode idx)) ∉ L) :
    Remaining K d n es db' (H ++ L) := by
  have hmem : ∀ t userId idx, (t, .changeUser userId (.consumeRecoveryCode idx)) ∈ H ++ L ↔
      (t, AccountWrite.changeUser userId (.consumeRecoveryCode idx)) ∈ H := fun t userId idx => by
    rw [List.mem_append, or_iff_left (hL t userId idx)]
  refine ⟨husers ▸ h.users, fun user₀ h₀ user hu hid hash => ?_, fun user₀ h₀ hash hhash => ?_⟩
  · simp only [hmem]
    exact h.codes user₀ h₀ user (husers ▸ hu) hid hash
  · simp only [hmem]
    exact h.once user₀ h₀ hash hhash

/-- A session makes one request. -/
theorem made_once {t : ℕ} {r r' : RecoveryUse} (h : Made K d n es t r) (h' : Made K d n es t r') :
    r = r' := by
  obtain ⟨u, u', hstart⟩ := h
  obtain ⟨v, v', hstart'⟩ := h'
  exact start_once hstart hstart'

/-- A request that removes what it presented. -/
theorem remaining_removed (hd : DistinctCodes K d) {db : Accounts} {H : List (ℕ × AccountWrite)}
    (h : Remaining K d n es db H) {t : ℕ} {r : RecoveryUse} (hmade : Made K d n es t r)
    {userId : String} {idx : ℕ} (hplace : ∀ user ∈ db.users, user.userId = userId →
      ∃ hash, (codesOf user)[idx]? = some hash ∧ Presents K r hash) :
    Remaining K d n es (db.apply (.changeUser userId (.consumeRecoveryCode idx)))
      (H ++ [(t, .changeUser userId (.consumeRecoveryCode idx))]) := by
  have hmem : ∀ t' userId' idx', (t', AccountWrite.changeUser userId' (.consumeRecoveryCode idx')) ∈
      H ++ [(t, .changeUser userId (.consumeRecoveryCode idx))] ↔
      (t', AccountWrite.changeUser userId' (.consumeRecoveryCode idx')) ∈ H ∨
        (t' = t ∧ userId' = userId ∧ idx' = idx) := fun t' userId' idx' => by simp
  -- the request has presented one stored code of the user, and it is still there
  have hgone : ∀ user₀ ∈ d.users, ∀ user ∈ db.users, user.userId = user₀.userId →
      user.userId = userId → ∃ gone, (codesOf user)[idx]? = some gone ∧ Presents K r gone ∧
        gone ∈ codesOf user ∧ ∀ hash ∈ codesOf user₀, Presents K r hash → hash = gone := by
    intro user₀ h₀ user hu hid huser
    obtain ⟨gone, hat, hpresents⟩ := hplace user hu huser
    have hin : gone ∈ codesOf user := List.mem_of_getElem? hat
    have hin₀ := ((h.codes user₀ h₀ user hu hid gone).mp hin).1
    exact ⟨gone, hat, hpresents, hin, fun hash hhash hp =>
      presents_unique hd h₀ hhash hin₀ hp hpresents⟩
  refine ⟨?_, fun user₀ h₀ user hu hid hash => ?_, fun user₀ h₀ hash hhash => ?_⟩
  · have hkeeps : (db.apply (.changeUser userId (.consumeRecoveryCode idx))).users.map (·.userId) =
        db.users.map (·.userId) := updateAt_keeps _ (fun u => apply_userId u _) db.users
    rw [hkeeps]
    exact h.users
  · obtain ⟨old, hold, ⟨hkey, rfl⟩ | ⟨hkey, rfl⟩⟩ := mem_updateAt.mp hu
    · rw [apply_userId] at hid
      obtain ⟨gone, hat, hpresents, -, honly⟩ := hgone user₀ h₀ old hold hid hkey
      rw [mem_codesOf_remove hat, h.codes user₀ h₀ old hold hid hash]
      constructor
      · rintro ⟨⟨hhash, hunspent⟩, hne⟩
        refine ⟨hhash, ?_⟩
        rintro ⟨t', r', idx', hmade', hpresents', hin⟩
        rcases (hmem _ _ _).mp hin with hin | ⟨rfl, -, -⟩
        · exact hunspent ⟨t', r', idx', hmade', hpresents', hin⟩
        · obtain rfl := made_once hmade hmade'
          exact hne (honly hash hhash hpresents')
      · rintro ⟨hhash, hunspent⟩
        refine ⟨⟨hhash, ?_⟩, ?_⟩
        · rintro ⟨t', r', idx', hmade', hpresents', hin⟩
          exact hunspent ⟨t', r', idx', hmade', hpresents', (hmem _ _ _).mpr (Or.inl hin)⟩
        · rintro rfl
          exact hunspent ⟨t, r, idx, hmade, hpresents,
            (hmem _ _ _).mpr (Or.inr ⟨rfl, hid.symm.trans hkey, rfl⟩)⟩
    · have hother : user₀.userId ≠ userId := fun heq => hkey (hid.trans heq)
      simp only [hmem, hother, false_and, and_false, or_false]
      exact h.codes user₀ h₀ user hold hid hash
  · -- a code spent before is not stored, so it is not removed again
    have hnew : ∀ r' t' idx', user₀.userId = userId → Made K d n es t r → Presents K r hash →
        Made K d n es t' r' → Presents K r' hash →
        ¬ (t', AccountWrite.changeUser user₀.userId (.consumeRecoveryCode idx')) ∈ H := by
      intro r' t' idx' huser _ hpresents hmade' hpresents' hin
      have hthere : user₀.userId ∈ db.users.map (·.userId) := by
        rw [h.users]
        exact List.mem_map_of_mem h₀
      obtain ⟨user, hu, hid⟩ := List.mem_map.mp hthere
      obtain ⟨gone, -, -, hstored, honly⟩ := hgone user₀ h₀ user hu hid (hid.trans huser)
      obtain rfl := honly hash hhash hpresents
      exact ((h.codes user₀ h₀ user hu hid hash).mp hstored).2
        ⟨t', r', idx', hmade', hpresents', hin⟩
    intro t₁ r₁ idx₁ t₂ r₂ idx₂ hmade₁ hpresents₁ hin₁ hmade₂ hpresents₂ hin₂
    rcases (hmem _ _ _).mp hin₁ with hold₁ | ⟨rfl, huser₁, -⟩
    · rcases (hmem _ _ _).mp hin₂ with hold₂ | ⟨rfl, huser₂, -⟩
      · exact h.once user₀ h₀ hash hhash t₁ r₁ idx₁ t₂ r₂ idx₂ hmade₁ hpresents₁ hold₁ hmade₂
          hpresents₂ hold₂
      · obtain rfl := made_once hmade hmade₂
        exact absurd hold₁ (hnew r₁ t₁ idx₁ huser₂ hmade hpresents₂ hmade₁ hpresents₁)
    · rcases (hmem _ _ _).mp hin₂ with hold₂ | ⟨rfl, -, -⟩
      · obtain rfl := made_once hmade hmade₁
        exact absurd hold₂ (hnew r₂ t₂ idx₂ huser₁ hmade hpresents₁ hmade₂ hpresents₂)
      · rfl

/-- The guards leave users alone. -/
theorem touches_users {db : Accounts} {ws : List AccountWrite} (h : ∀ x ∈ ws, Touches x) :
    (accounts.applyAll db ws).users = db.users := by
  refine applyAll_stable accounts (P := fun x => x.users = db.users) (fun x w hw hx => ?_) rfl
  cases w with
  | changeSession sessionId change => exact hx
  | insertSession row => exact (h _ hw).elim
  | changeUser userId change => exact (h _ hw).elim

/-- In every run whose removals are in place, the stored codes are those not
spent. -/
theorem remaining_run (hd : DistinctCodes K d) (hplace : InPlace K d n es) {w : AdminWorld}
    (hrun : run (useStep K) (World.initial d n) es = some w) :
    Remaining K d n es w.db (history accounts (recoveries K) (World.initial d n) es) := by
  refine history_invariant (I := Remaining K d n es) ?_ ?_ hrun
  · refine ⟨rfl, fun user₀ h₀ user hu hid hash => ?_, fun user₀ h₀ hash hhash => by simp⟩
    obtain rfl : user = user₀ := List.inj_on_of_nodup_map hd.users hu h₀ hid
    simp
  · rintro front w e w' hf hstep ⟨back, hes⟩ h
    have htakes : Takes (useStep K) (World.initial d n) es w e w' := ⟨front, back, hes, hf, hstep⟩
    have hdb := step_committed hstep
    cases hc : w.commit? accounts e with
    | none =>
      have hnone : committed accounts w e = [] := by simp [committed, hc]
      rw [hnone] at hdb ⊢
      exact remaining_other h (by rw [hdb]; rfl) (by simp)
    | some commit =>
      obtain ⟨t, ws⟩ := commit
      obtain ⟨r, u, u', i, f, k, err, a, hstart, rfl, hses, htrail, hws⟩ :=
        committer auto_recoveries hf hc
      have hstart : Takes (useStep K) (World.initial d n) es u (.start t r) u' := by
        rw [hes]
        exact takes_front hstart
      have hmade : Made K d n es t r := ⟨u, u', hstart⟩
      have hlist : committed accounts w (.step t i : Event RecoveryUse Input Failure) =
          ws.map (t, ·) := by simp [committed, hc]
      rw [hlist] at hdb ⊢
      rw [List.map_map, Function.comp_def, List.map_id'] at hdb
      cases place_of_trail htrail with
      | guards htouch =>
        have htouches : ∀ x ∈ ws, Touches x := fun x hx => htouch _ i x (hws ▸ hx)
        refine remaining_other h (by rw [hdb]; exact touches_users htouches) fun t' userId idx hin => ?_
        obtain ⟨x, hx, heq⟩ := List.mem_map.mp hin
        obtain ⟨-, rfl⟩ := Prod.mk.inj heq
        exact htouches _ hx
      | @removing ctx code idx hctx hcode hidx =>
        subst hws
        rw [hdb]
        refine remaining_removed hd h hmade fun user hu huser => ?_
        exact hplace t r u u' w _ w' _ idx hstart htakes (by rw [hlist]; simp) user hu huser
      | marking hctx =>
        subst hws
        exact remaining_other h (by rw [hdb]; rfl) (by simp)

/-- The session a request marks is the one its token names. -/
theorem marks_named {t : ℕ} {sessionId : String} (h : Marks K d n es t sessionId) :
    ∃ r token payload, Made K d n es t r ∧ truthy (extractToken r.request) = some token ∧
      K.jwt.payload token = some payload ∧ sessionId = payload.sid := by
  obtain ⟨totp, activity, hwrote⟩ := h
  obtain ⟨w, e, w', htakes, hin⟩ := mem_history.mp hwrote
  obtain ⟨ws, hc, hx⟩ := (mem_committed accounts).mp hin
  obtain ⟨front, back, rfl, hf, -⟩ := htakes
  obtain ⟨r, u, u', i, f, k, err, a, hstart, -, -, htrail, rfl⟩ := committer auto_recoveries hf hc
  have hmade : Made K d n (front ++ e :: back) t r := ⟨u, u', takes_front hstart⟩
  cases place_of_trail htrail with
  | guards htouch => exact (htouch _ i _ hx).elim
  | removing => simp at hx
  | marking hctx =>
    obtain ⟨token, payload, htoken, hpayload, hsid, -⟩ := hctx.token
    simp only [List.mem_singleton, AccountWrite.changeSession.injEq] at hx
    exact ⟨r, token, payload, hmade, htoken, hpayload, hx.1.trans hsid⟩

/-- A request marks one session. -/
theorem marks_once {t : ℕ} {a b : String} (ha : Marks K d n es t a) (hb : Marks K d n es t b) :
    a = b := by
  obtain ⟨r, token, payload, hmade, htoken, hpayload, rfl⟩ := marks_named ha
  obtain ⟨r', token', payload', hmade', htoken', hpayload', rfl⟩ := marks_named hb
  obtain rfl := made_once hmade hmade'
  obtain rfl := Option.some.inj (htoken.symm.trans htoken')
  exact congrArg _ (Option.some.inj (hpayload.symm.trans hpayload'))

/-- A request that has removed a code is about to mark its session. -/
theorem marking_of_removed {w w' : AdminWorld} {e : Event RecoveryUse Input Failure} {t idx : ℕ}
    {userId : String} (htakes : Takes (useStep K) (World.initial d n) es w e w')
    (hin : (t, .changeUser userId (.consumeRecoveryCode idx)) ∈ committed accounts w e) :
    Marking w' t := by
  obtain ⟨ws, hc, hx⟩ := (mem_committed accounts).mp hin
  obtain ⟨front, back, -, hf, hstep⟩ := htakes
  obtain ⟨r, u, u', i, f, k, err, a, -, rfl, hses, htrail, rfl⟩ := committer auto_recoveries hf hc
  cases place_of_trail htrail with
  | guards htouch => exact (htouch _ i _ hx).elim
  | @removing ctx code found hctx =>
    have halive : a = true := by
      cases step_cases accounts hstep with
      | step hses' halive hadv =>
        obtain rfl := Option.some.inj (hses.symm.trans hses')
        exact halive
    subst halive
    exact ⟨ctx.session.sessionId, step_stmt hses hstep⟩
  | marking => simp at hx

/-- It stays there until it has marked the session. -/
theorem marks_or_marking (hunbroken : Unbroken K d n es) {s w : AdminWorld} {t : ℕ}
    {front back : List (Event RecoveryUse Input Failure)} (hes : es = front ++ back)
    (hf : run (useStep K) (World.initial d n) front = some s) (hmarking : Marking s t)
    (hrun : run (useStep K) s back = some w) : (∃ a, Marks K d n es t a) ∨ Marking w t := by
  by_cases hw : Marking w t
  · exact Or.inr hw
  · obtain ⟨u, e, u', htakes, hu, hu'⟩ := takes_turning (P := fun w => ¬ Marking w t)
      (not_not.mpr hmarking) hw (visits_last hrun)
    have hmark : Marking u t := not_not.mp hu
    obtain ⟨sessionId, hses⟩ := hmark
    have hall : Takes (useStep K) (World.initial d n) es u e u' := by
      obtain ⟨before, after, rfl, hbefore, hstep⟩ := htakes
      exact ⟨front ++ before, after, by simp [hes], by simp [run_append, hf, hbefore], hstep⟩
    obtain ⟨hcrash, hfail⟩ := hunbroken t u e u' hall ⟨sessionId, hses⟩
    have hown : Event.session e = t := by
      by_contra hother
      exact hu' ⟨sessionId, sessions_other hses hother (takes_step htakes)⟩
    cases e with
    | start v r =>
      obtain rfl : v = t := hown
      have hnone := step_cases accounts (takes_step htakes)
      cases hnone with
      | start hnew => exact absurd (hses.symm.trans hnew) (by simp)
    | step v i =>
      obtain rfl : v = t := hown
      refine Or.inl ⟨sessionId, i.now, i.now, mem_history.mpr ⟨u, _, u', hall, ?_⟩⟩
      refine (mem_committed accounts).mpr ⟨_, ?_, List.mem_singleton_self _⟩
      simp [World.commit?, hses, World.commits, markTotpVerified, exec]
    | fail v error => exact absurd (congrArg (Event.fail · error) hown) (hfail error)
    | crash v => exact absurd (congrArg Event.crash hown) hcrash

/-- A run in place is in place up to every world it visits. -/
theorem inPlace_front {front back : List (Event RecoveryUse Input Failure)}
    (h : InPlace K d n (front ++ back)) : InPlace K d n front :=
  fun t r u u' w e w' userId idx hstart htakes =>
    h t r u u' w e w' userId idx (takes_front hstart) (takes_front htakes)

theorem unbroken_front {front back : List (Event RecoveryUse Input Failure)}
    (h : Unbroken K d n (front ++ back)) : Unbroken K d n front :=
  fun t u e u' htakes => h t u e u' (takes_front htakes)

/-- In every world of a run whose removals are in place and whose requests
are not broken off, every code of every admin is single use. -/
theorem recovery_codes_single_use (hd : DistinctCodes K d)
    {front back : List (Event RecoveryUse Input Failure)} (hplace : InPlace K d n (front ++ back))
    (hunbroken : Unbroken K d n (front ++ back)) {w : AdminWorld}
    (hrun : run (useStep K) (World.initial d n) front = some w) {user : UserRow}
    (huser : user ∈ d.users) {hash : String} (hhash : hash ∈ codesOf user) :
    SingleUse K d n front w user.userId hash := by
  have hremaining := remaining_run hd (inPlace_front hplace) hrun
  refine ⟨?once, ?spent, ?kept⟩
  case once =>
    rintro a b ⟨t, ⟨r, idx, hmade, hpresents, hwrote⟩, hmarks⟩
      ⟨t', ⟨r', idx', hmade', hpresents', hwrote'⟩, hmarks'⟩
    obtain rfl := hremaining.once user huser hash hhash t r idx t' r' idx' hmade hpresents hwrote
      hmade' hpresents' hwrote'
    exact marks_once hmarks hmarks'
  case spent =>
    rintro a ⟨t, ⟨r, idx, hmade, hpresents, hwrote⟩, -⟩ now hnow hid hstored
    exact ((hremaining.codes user huser now hnow hid hash).mp hstored).2
      ⟨t, r, idx, hmade, hpresents, hwrote⟩
  case kept =>
    intro now hnow hid hgone
    have hspent : ∃ t r idx, Made K d n front t r ∧ Presents K r hash ∧
        Wrote K d n front t (.changeUser user.userId (.consumeRecoveryCode idx)) := by
      by_contra hunspent
      exact hgone ((hremaining.codes user huser now hnow hid hash).mpr ⟨hhash, hunspent⟩)
    obtain ⟨t, r, idx, hmade, hpresents, hwrote⟩ := hspent
    refine ⟨t, ⟨r, idx, hmade, hpresents, hwrote⟩, ?_⟩
    obtain ⟨u, e, u', htakes, hin⟩ := mem_history.mp hwrote
    have hmarking := marking_of_removed htakes hin
    obtain ⟨before, after, hes, hbefore, hstep⟩ := htakes
    have hafter : run (useStep K) (World.initial d n) (before ++ [e]) = some u' := by
      simp [run_append, hbefore, hstep]
    have hsplit : front = (before ++ [e]) ++ after := by simp [hes]
    refine marks_or_marking (unbroken_front hunbroken) hsplit hafter hmarking ?_
    rw [hsplit, run_append, hafter] at hrun
    exact hrun

end Proofs

section Examples

/-- A session of an admin. -/
def openSession (sessionId : String) : AdminSessionRow :=
  ⟨sessionId, "U1", 0, 1000, 0, some 0, none, none, none, none, none⟩

/-- An admin with two recovery codes and two sessions. -/
def twoCodes : Accounts where
  users := [⟨"U1", "ops@lp.test", "argon2:password", .adminUser, none, some .ops, some "secret",
    some 0, some ["argon2:first-code", "argon2:second-code"], none⟩]
  sessions := [openSession "S1", openSession "S2"]

/-- The first code, presented in a session. -/
def presentFirst (sessionId : String) : RecoveryUse :=
  ⟨none, some sessionId, .obj [("code", .str "first-code")]⟩

/-- Statements of one request. -/
def statements (t count : ℕ) : List (Event RecoveryUse Input Failure) :=
  List.replicate count (.step t quiet)

/-- Both requests pass the guards before either removes a code. -/
def overlapping : List (Event RecoveryUse Input Failure) :=
  [.start 0 (presentFirst "S1"), .start 1 (presentFirst "S2")] ++ statements 0 6 ++
    statements 1 6 ++ statements 0 2 ++ statements 1 2

theorem twoCodes_distinct : DistinctCodes plainConfig twoCodes := by
  refine ⟨by decide, fun user huser => ⟨[("", "first-code"), ("", "second-code")], by decide, ?_⟩⟩
  obtain rfl := List.mem_singleton.mp huser
  decide

/-- The requests made in a run that presents one code. -/
theorem presented_first {es : List (Event RecoveryUse Input Failure)} {t : ℕ} {r : RecoveryUse}
    (hes : ∀ t r, .start t r ∈ es → r.body = (presentFirst "S1").body)
    (hmade : Made plainConfig twoCodes 0 es t r) :
    recoveryBodySchema r.body = .ok "first-code" := by
  obtain ⟨u, u', hstart⟩ := hmade
  rw [hes t r (takes_mem hstart)]
  rfl

/-- The first code verifies two sessions, and the second is removed though no
request has presented it. -/
theorem code_verifies_twice : DistinctCodes plainConfig twoCodes ∧ ∃ w,
    run (useStep plainConfig) (World.initial twoCodes 0) overlapping = some w ∧
    ¬ SingleUse plainConfig twoCodes 0 overlapping w "U1" "argon2:first-code" ∧
    ¬ SingleUse plainConfig twoCodes 0 overlapping w "U1" "argon2:second-code" := by
  obtain ⟨w, hrun, hcheck⟩ := run_reaches (useStep plainConfig) (World.initial twoCodes 0)
    overlapping (fun w => w.db.users.any fun user => user.userId = "U1" ∧ codesOf user = [])
    (by decide +kernel)
  have hbody : ∀ t r, .start t r ∈ overlapping → r.body = (presentFirst "S1").body := by
    intro t r h
    simp only [overlapping, statements, List.cons_append, List.nil_append, List.mem_cons,
      List.mem_append, List.mem_replicate, Event.start.injEq, reduceCtorEq, and_false,
      or_false] at h
    rcases h with ⟨-, rfl⟩ | ⟨-, rfl⟩ <;> rfl
  have hspends : ∀ t sessionId, .start t (presentFirst sessionId) ∈ overlapping →
      Wrote plainConfig twoCodes 0 overlapping t (.changeUser "U1" (.consumeRecoveryCode 0)) →
      Spends plainConfig twoCodes 0 overlapping t "U1" "argon2:first-code" :=
    fun t sessionId hstart hwrote =>
      ⟨_, 0, mem_takes hrun hstart, ⟨"first-code", rfl, by decide⟩, hwrote⟩
  have hfirst : Verified plainConfig twoCodes 0 overlapping "U1" "argon2:first-code" "S1" :=
    ⟨0, hspends 0 "S1" (by simp [overlapping]) (by unfold Wrote; decide +kernel), 0, 0,
      by unfold Wrote; decide +kernel⟩
  have hsecond : Verified plainConfig twoCodes 0 overlapping "U1" "argon2:first-code" "S2" :=
    ⟨1, hspends 1 "S2" (by simp [overlapping]) (by unfold Wrote; decide +kernel), 0, 0,
      by unfold Wrote; decide +kernel⟩
  refine ⟨twoCodes_distinct, w, hrun, fun h => ?_, fun h => ?_⟩
  · exact absurd (h.once "S1" "S2" hfirst hsecond) (by decide)
  · obtain ⟨user, huser, hid⟩ := List.any_eq_true.mp hcheck
    obtain ⟨hid, hcodes⟩ := of_decide_eq_true hid
    obtain ⟨t, ⟨r, idx, hmade, ⟨code, hcode, hverify⟩, -⟩, -⟩ :=
      h.kept user huser hid (by simp [hcodes])
    obtain rfl := Except.ok.inj (hcode.symm.trans (presented_first hbody hmade))
    exact absurd hverify (by decide)

/-- One request, from its start to its end. -/
def alone : List (Event RecoveryUse Input Failure) :=
  .start 0 (presentFirst "S1") :: statements 0 8

/-- The event removes no code but a given one. -/
def removesOnly (hash : String) (w : AdminWorld) (e : Event RecoveryUse Input Failure) : Bool :=
  (committed accounts w e).all fun c => match c.2 with
    | .changeUser userId (.consumeRecoveryCode idx) =>
      w.db.users.all fun user => user.userId ≠ userId ∨ (codesOf user)[idx]? = some hash
    | _ => true

/-- Requests that all present one code and remove no other are in place. -/
theorem inPlace_of_removesOnly {K : AdminConfig} {d : Accounts} {n : ℕ}
    {es : List (Event RecoveryUse Input Failure)} {hash : String}
    (hpresents : ∀ t r, Made K d n es t r → Presents K r hash)
    (hremoves : Along (useStep K) (fun w e => removesOnly hash w e = true) (World.initial d n) es) :
    InPlace K d n es := by
  intro t r u u' w e w' userId idx hstart htakes hin user huser hid
  have honly := (along_iff_takes _ _).mp hremoves w e w' htakes
  have hat := List.all_eq_true.mp (List.all_eq_true.mp honly _ hin) user huser
  rcases of_decide_eq_true hat with hne | hat
  · exact absurd hid hne
  · exact ⟨hash, hat, hpresents t r ⟨u, u', hstart⟩⟩

theorem recovery_codes_single_use_once : ∃ w,
    run (useStep plainConfig) (World.initial twoCodes 0) alone = some w ∧
    Verified plainConfig twoCodes 0 alone "U1" "argon2:first-code" "S1" ∧
    SingleUse plainConfig twoCodes 0 alone w "U1" "argon2:first-code" := by
  obtain ⟨w, hrun, -⟩ := run_reaches (useStep plainConfig) (World.initial twoCodes 0) alone
    (fun _ => true) (by decide +kernel)
  have hbody : ∀ t r, .start t r ∈ alone → r.body = (presentFirst "S1").body := by
    intro t r h
    simp only [alone, statements, List.mem_cons, List.mem_replicate, Event.start.injEq,
      reduceCtorEq, and_false, or_false] at h
    obtain ⟨-, rfl⟩ := h
    rfl
  have hplace : InPlace plainConfig twoCodes 0 (alone ++ []) := by
    rw [List.append_nil]
    refine inPlace_of_removesOnly (fun t r hmade => ?_)
      (by decide +kernel : Along (useStep plainConfig)
        (fun w e => removesOnly "argon2:first-code" w e = true) (World.initial twoCodes 0) alone)
    exact ⟨"first-code", presented_first hbody hmade, by decide⟩
  have hunbroken : Unbroken plainConfig twoCodes 0 (alone ++ []) := by
    intro t u e u' htakes _
    have hin := takes_mem htakes
    simp only [alone, statements, List.append_nil, List.mem_cons, List.mem_replicate] at hin
    rcases hin with rfl | ⟨-, rfl⟩ <;> simp
  have huser : twoCodes.users.head (by decide) ∈ twoCodes.users := List.head_mem _
  have hspends : Spends plainConfig twoCodes 0 alone 0 "U1" "argon2:first-code" :=
    ⟨_, 0, mem_takes hrun List.mem_cons_self, ⟨"first-code", rfl, by decide⟩,
      by unfold Wrote; decide +kernel⟩
  exact ⟨w, hrun, ⟨0, hspends, 0, 0, by unfold Wrote; decide +kernel⟩,
    recovery_codes_single_use twoCodes_distinct hplace hunbroken hrun huser (by decide)⟩

end Examples

end LpPlatform.RecoveryCodes
