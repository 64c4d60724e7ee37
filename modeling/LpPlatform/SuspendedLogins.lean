import LpPlatform.AdminUsers

/-!
# Signing in while suspended

Sign-in to the admin portal looks at the suspension of a user, and sign-in to
the broker portal at the deletion only. Both read the same table, in which the
admins have a role of the broker domain too. So a suspended user who still
knows the password gets a token of the broker domain, and no other user does
whom the table shows as suspended or deleted.
-/

namespace LpPlatform.SuspendedLogins

open AdminTables AdminUsers BrokerPortal InterferenceLogic JsValues Ledger PartPrograms RowStore SessionTrails Sessions
open StatementProgram StepRuns TwoStates UserDirectory

/-- A user who is neither suspended nor deleted. -/
def InForce (u : UserAccount) : Prop := u.suspendedAt = none ∧ u.deletedAt = none

/-- Neither login answers an address and a password with a token for a user
who is suspended or deleted. -/
structure Honours (K : UsersConfig) (d : Directory) (email password : String) : Prop where
  broker : ∀ is r, answer (login K email password) d is = some (.ok r) →
    ∀ u ∈ d.users, u.userId = r.userId → InForce u
  admin : ∀ ua ip is r, answer (signIn (AdminAuth.login K.admin email password ua ip)) d is =
    some (.ok r) → ∀ u ∈ d.users, u.userId = r.user.userId → InForce u

/-- A login of the broker portal answers for a row that is not deleted. -/
theorem login_found {K : UsersConfig} {d : Directory} {email password : String}
    {is : List (Except Failure Input)} {r : BrokerLogin}
    (h : answer (login K email password) d is = some (.ok r)) :
    ∃ u ∈ d.users, u.userId = r.userId ∧ u.email = K.admin.lowerCase email ∧ u.deletedAt = none ∧
      K.admin.argon2.verify u.passwordHash password = true := by
  rw [login, findByEmail, bind_eq] at h
  obtain ⟨i, rest, -, h⟩ := answer_query_bind h
  split at h
  · exact absurd h answer_throw
  · rename_i user hfound
    have hmem := List.mem_filter.mp (List.mem_of_getElem? hfound)
    obtain ⟨hemail, hundeleted⟩ := of_decide_eq_true hmem.2
    split at h
    · rename_i hverify
      obtain ⟨j, rest', -, h⟩ := answer_query_bind h
      exact ⟨user, hmem.1, by rw [answer_done h], hemail, hundeleted, hverify⟩
    · exact absurd h answer_throw

/-- A login of the admin portal answers for a row that is in force. -/
theorem adminLogin_found {K : AdminAuth.AdminConfig} {a : Accounts} {email password : String}
    {ua ip : Option String} {is : List (Except Failure Input)} {r : AdminAuth.LoginResult}
    (h : answer (AdminAuth.login K email password ua ip) a is = some (.ok r)) :
    r.user ∈ a.users ∧ r.user.suspendedAt = none ∧ r.user.deletedAt = none := by
  rw [AdminAuth.login, AdminAuth.findAdminByEmail, bind_eq] at h
  obtain ⟨i, rest, -, h⟩ := answer_query_bind h
  split at h
  · exact absurd h answer_throw
  · rename_i user hfound
    have hmem := List.mem_filter.mp (List.mem_of_getElem? hfound)
    obtain ⟨-, -, hundeleted⟩ := of_decide_eq_true hmem.2
    split at h
    · exact absurd h answer_throw
    · rename_i hsuspended
      split at h
      · split at h
        · exact absurd h answer_throw
        · obtain ⟨_, _, -, h⟩ := answer_query_bind h
          obtain ⟨_, _, -, h⟩ := answer_query_bind h
          obtain ⟨_, _, -, h⟩ := answer_exec_bind h
          obtain ⟨_, _, -, h⟩ := answer_query_bind h
          rw [answer_done h]
          exact ⟨hmem.1, by simpa using hsuspended, hundeleted⟩
      · exact absurd h answer_throw

/-- A row that the address finds is found by some order of the rows. -/
theorem login_answers {K : UsersConfig} {d : Directory} {email password : String} {u : UserAccount}
    (hu : u ∈ d.users) (hemail : u.email = K.admin.lowerCase email) (hundeleted : u.deletedAt = none)
    (hverify : K.admin.argon2.verify u.passwordHash password = true) :
    ∃ is, answer (login K email password) d is =
      some (.ok ⟨u.userId, K.sign ⟨u.userId, u.email, u.role, u.brokerId⟩ 0⟩) := by
  have hmem : u ∈ d.users.filter fun u => u.email = K.admin.lowerCase email ∧ u.deletedAt = none :=
    List.mem_filter.mpr ⟨hu, decide_eq_true ⟨hemail, hundeleted⟩⟩
  obtain ⟨k, hk, hget⟩ := List.getElem_of_mem hmem
  have hfound : anyRow (d.users.filter fun u => u.email = K.admin.lowerCase email ∧ u.deletedAt = none)
      k = some u := by
    rw [anyRow, Nat.mod_eq_of_lt hk, List.getElem?_eq_getElem hk, hget]
  refine ⟨[.ok ⟨0, [], k⟩, .ok quiet], ?_⟩
  rw [login, findByEmail, bind_eq, answer_query_run]
  simp only [still, hfound, hverify, if_true]
  rfl

/-- No statement gives two users one id. -/
theorem userIds_nodup {d : Directory} {x : DirectoryWrite} (h : (d.users.map (·.userId)).Nodup)
    (hvalid : directory.valid d x = true) : ((directory.apply d x).users.map (·.userId)).Nodup := by
  cases x with
  | insertUser row =>
    have hnew : (rowsAt (fun u : UserAccount => u.userId) row.userId d.users).isEmpty = true :=
      (Bool.and_eq_true_iff.mp hvalid).1
    exact nodup_insert h hnew
  | changeUser userId change =>
    have hkept : ((updateAt (fun u : UserAccount => u.userId) userId (fun u => change.apply u)
        d.users).map fun u => u.userId) = d.users.map fun u => u.userId :=
      updateAt_keeps _ (fun u => account_userId u change) d.users
    exact hkept.symm ▸ h
  | insertSession row => exact h
  | changeSession sessionId change => exact h
  | insertAudit row => exact h

section Runs

variable {K : UsersConfig} {start : Directory} {n : ℕ} {es : List (Event UsersCall Input Failure)}
variable {w : UsersWorld}

/-- In every table that admins, brokers' users and their sign-ins can reach,
both logins honour suspension and deletion for an address and a password
exactly when no suspended row answers to them. -/
theorem logins_honoured_iff (hids : (start.users.map (·.userId)).Nodup)
    (h : Visits (usersStep K) (World.initial start n) es w) (email password : String) :
    Honours K w.db email password ↔ ∀ u ∈ w.db.users, u.email = K.admin.lowerCase email →
      u.deletedAt = none → K.admin.argon2.verify u.passwordHash password = true →
      u.suspendedAt = none := by
  have hunique : (w.db.users.map (·.userId)).Nodup :=
    valid_visits (P := fun d => (d.users.map (·.userId)).Nodup) (fun _ _ hd hvalid => userIds_nodup hd hvalid)
      hids h
  have hsame : ∀ {u v : UserAccount}, u ∈ w.db.users → v ∈ w.db.users → u.userId = v.userId → u = v :=
    fun hu hv huv => List.inj_on_of_nodup_map hunique hu hv huv
  constructor
  · intro hhonours u hu hemail hundeleted hverify
    obtain ⟨is, hanswer⟩ := login_answers hu hemail hundeleted hverify
    exact (hhonours.broker is _ hanswer u hu rfl).1
  · intro hcondition
    refine ⟨fun is r hanswer u hu hid => ?_, fun ua ip is r hanswer u hu hid => ?_⟩
    · obtain ⟨v, hv, hvid, hemail, hundeleted, hverify⟩ := login_found hanswer
      obtain rfl := hsame hu hv (hid.trans hvid.symm)
      exact ⟨hcondition u hu hemail hundeleted hverify, hundeleted⟩
    · rw [signIn, answer_onPart] at hanswer
      obtain ⟨hmem, hunsuspended, hundeleted⟩ := adminLogin_found hanswer
      obtain ⟨v, hv, hrow⟩ := List.mem_map.mp hmem
      have hvid : v.userId = r.user.userId := by rw [← hrow]
      obtain rfl := hsame hu hv (hid.trans hvid.symm)
      rw [← hrow] at hunsuspended hundeleted
      exact ⟨hunsuspended, hundeleted⟩

end Runs

section Examples

/-- One super admin, signed in. -/
def oneSuper : Directory := ⟨[superAdmin "U1" "one@lp.test"], [confirmedSession "S1" "U1"], []⟩

/-- The body of a new admin. -/
def opsBody : Json :=
  .obj [("email", .str "ops@lp.test"), ("displayName", .str "Ops"), ("adminRole", .str "ops"),
    ("temporaryPassword", .str "temporary password")]

/-- The super admin creates another admin. -/
def created : List (Event UsersCall Input Failure) :=
  .start 1 (.create (requestOf "S1") opsBody) :: calmly 1 9 ++
    [.step 1 (drawing "U2"), .step 1 quiet, .step 1 (drawing "L1"), .step 1 quiet]

/-- And suspends it. -/
def createdAndSuspended : List (Event UsersCall Input Failure) :=
  created ++ .start 2 (.suspend (requestOf "S1") "U2") :: calmly 2 9 ++
    [.step 2 (drawing "L2"), .step 2 quiet]

/-- The row of the new admin answers to its password. -/
def answers (suspended : Bool) (u : UserAccount) : Bool :=
  u.userId = "U2" ∧ u.email = "ops@lp.test" ∧ u.role = .lpAdmin ∧ u.brokerId = none ∧
    u.deletedAt = none ∧ u.suspendedAt.isSome = suspended ∧
    plainUsers.admin.argon2.verify u.passwordHash "temporary password" = true

/-- The admin portal turns the suspended admin away. -/
def turnsAway (d : Directory) : Bool :=
  match answer (signIn (AdminAuth.login plainUsers.admin "ops@lp.test" "temporary password" none none)) d
    [.ok quiet] with
  | some (.error e) => e.message = "Account suspended"
  | _ => false

/-- The suspended admin whom the admin portal turns away gets a token of the
broker portal with the role of an LP admin. -/
theorem suspended_admin_logs_in : ∃ w,
    run (usersStep plainUsers) (World.initial oneSuper 0) createdAndSuspended = some w ∧
    turnsAway w.db = true ∧
    (∃ is r, answer (login plainUsers "ops@lp.test" "temporary password") w.db is = some (.ok r) ∧
      r.accessToken = plainUsers.sign ⟨"U2", "ops@lp.test", .lpAdmin, none⟩ 0) ∧
    ¬ Honours plainUsers w.db "ops@lp.test" "temporary password" := by
  obtain ⟨w, hrun, hcheck⟩ := run_reaches (usersStep plainUsers) (World.initial oneSuper 0)
    createdAndSuspended (fun w => turnsAway w.db && w.db.users.any (answers true)) (by decide +kernel)
  obtain ⟨haway, hany⟩ := Bool.and_eq_true_iff.mp hcheck
  obtain ⟨u, hu, hanswers⟩ := List.any_eq_true.mp hany
  obtain ⟨hid, hemail, hrole, hbroker, hundeleted, hsuspended, hverify⟩ := of_decide_eq_true hanswers
  obtain ⟨is, hanswer⟩ := login_answers (K := plainUsers) hu hemail hundeleted hverify
  refine ⟨w, hrun, haway, ⟨is, _, hanswer, ?_⟩, fun hhonours => ?_⟩
  · rw [hid, hemail, hrole, hbroker]
  · have hforce := (hhonours.broker is _ hanswer u hu rfl).1
    simp [hforce] at hsuspended

/-- Before the suspension both logins answer for an admin in force. -/
theorem logins_honoured_created : ∃ w,
    run (usersStep plainUsers) (World.initial oneSuper 0) created = some w ∧
    w.db.users.any (answers false) = true ∧
    Honours plainUsers w.db "ops@lp.test" "temporary password" := by
  obtain ⟨w, hrun, hcheck⟩ := run_reaches (usersStep plainUsers) (World.initial oneSuper 0) created
    (fun w => w.db.users.any (answers false) && w.db.users.all (·.suspendedAt = none)) (by decide +kernel)
  obtain ⟨hany, hall⟩ := Bool.and_eq_true_iff.mp hcheck
  refine ⟨w, hrun, hany, (logins_honoured_iff (by decide) (visits_last hrun) _ _).mpr ?_⟩
  exact fun u hu _ _ _ => of_decide_eq_true (List.all_eq_true.mp hall u hu)

end Examples

end LpPlatform.SuspendedLogins
