import LpPlatform.AdminSessions
import LpPlatform.AdminUsers

/-!
# Some super admin remains

A super admin cannot suspend itself, and whoever suspends is a super admin
when the guards read the row. The row is not read again, so by the time the
suspension is committed its author may have been suspended too. As long as
that never happens the author remains, and some super admin with it.
-/

namespace LpPlatform.LastSuperAdmin

open AdminAuth (adminJwtGuard adminRoleGuard guards reauthGuard totpVerifiedGuard truthy)
open AdminSessions (auto_admins)
open AdminTables AdminUsers AuditInterceptor AuditedTransactions InterferenceLogic JsValues Ledger
open PartPrograms RowStore SessionTrails Sessions StatementProgram StepRuns Tables UserDirectory

/-- There is an unsuspended super admin. -/
def Remaining (d : Directory) : Prop :=
  ∃ u ∈ d.users, u.adminRole = some .superAdmin ∧ u.suspendedAt = none

/-- A super admin, suspended or not. -/
def SuperIn (userId : String) (d : Directory) : Prop :=
  ∃ u ∈ d.users, u.userId = userId ∧ u.adminRole = some .superAdmin

/-- A super admin who is not suspended. -/
def Stands (userId : String) (d : Directory) : Prop :=
  ∃ u ∈ d.users, u.userId = userId ∧ u.adminRole = some .superAdmin ∧ u.suspendedAt = none

/-- The user that a write suspends. -/
def suspended? : DirectoryWrite → Option String
  | .changeUser userId (.suspend _) => some userId
  | _ => none

/-- Super admins stay what they are. -/
theorem superIn_applyAll {userId : String} {d : Directory} (ws : List DirectoryWrite)
    (h : SuperIn userId d) : SuperIn userId (directory.applyAll d ws) := by
  refine applyAll_stable directory (fun d x _ hd => ?_) h
  obtain ⟨u, hu, hid, hrole⟩ := hd
  cases x with
  | insertUser row => exact ⟨u, List.mem_append_left _ hu, hid, hrole⟩
  | changeUser other change =>
    by_cases hother : u.userId = other
    · exact ⟨change.apply u, mem_updateAt.mpr ⟨u, hu, Or.inl ⟨hother, rfl⟩⟩, by simpa using hid,
        by simpa using hrole⟩
    · exact ⟨u, mem_updateAt.mpr ⟨u, hu, Or.inr ⟨hother, rfl⟩⟩, hid, hrole⟩
  | insertSession row => exact ⟨u, hu, hid, hrole⟩
  | changeSession sessionId change => exact ⟨u, hu, hid, hrole⟩
  | insertAudit row => exact ⟨u, hu, hid, hrole⟩

theorem change_suspendedAt {u : UserAccount} {change : AccountChange}
    (h : suspended? (.changeUser u.userId change) = none) :
    (change.apply u).suspendedAt = u.suspendedAt := by
  cases change with
  | signIn change => cases change <;> rfl
  | suspend at_ => simp [suspended?] at h
  | resetTotp => rfl

/-- Who is not suspended by any of the writes is not suspended after them. -/
theorem stands_applyAll {userId : String} {d : Directory} {ws : List DirectoryWrite}
    (hws : ∀ x ∈ ws, suspended? x ≠ some userId) (h : Stands userId d) :
    Stands userId (directory.applyAll d ws) := by
  refine applyAll_stable directory (fun d x hx hd => ?_) h
  obtain ⟨u, hu, hid, hrole, hstands⟩ := hd
  cases x with
  | insertUser row => exact ⟨u, List.mem_append_left _ hu, hid, hrole, hstands⟩
  | changeUser other change =>
    by_cases hother : u.userId = other
    · have hnot : suspended? (.changeUser u.userId change) = none := by
        have hne := hws _ hx
        cases change with
        | suspend at_ => exact absurd (congrArg some (hother.symm.trans hid)) hne
        | signIn change => rfl
        | resetTotp => rfl
      exact ⟨change.apply u, mem_updateAt.mpr ⟨u, hu, Or.inl ⟨hother, rfl⟩⟩, by simpa using hid,
        by simpa using hrole, by rw [change_suspendedAt hnot, hstands]⟩
    · exact ⟨u, mem_updateAt.mpr ⟨u, hu, Or.inr ⟨hother, rfl⟩⟩, hid, hrole, hstands⟩
  | insertSession row => exact ⟨u, hu, hid, hrole, hstands⟩
  | changeSession sessionId change => exact ⟨u, hu, hid, hrole, hstands⟩
  | insertAudit row => exact ⟨u, hu, hid, hrole, hstands⟩

/-- What suspends someone is committed with the audit row of a super admin,
who is not among the suspended. -/
def Authored (d : Directory) (ws : List DirectoryWrite) : Prop :=
  (∀ x ∈ ws, suspended? x = none) ∨ ∃ row, DirectoryWrite.insertAudit row ∈ ws ∧
    row.action = "admin_user.suspend" ∧ SuperIn row.actorId d ∧
    ∀ x ∈ ws, suspended? x ≠ some row.actorId

/-- The calls guarantee this of every commit. -/
def authorship : Contract directory where
  inv _ _ := True
  guar v ws := Authored v.committed ws
  inv_mono h _ := h
  inv_commit _ _ _ := trivial

section Rules

variable {K : UsersConfig} {t : ℕ} {d d' : Directory} {n n' : ℕ} {held : List DirectoryKey}

theorem superIn_env {userId : String} (henv : authorship.Env t held d n d' n')
    (h : SuperIn userId d) : SuperIn userId d' :=
  env_stable (fun x _ => SuperIn userId x) (fun _ _ _ _ hx => hx)
    (fun _ ws _ _ _ _ _ _ hx => superIn_applyAll ws hx) henv h

/-- Admin sign-in suspends nobody. -/
theorem authored_account (v : View Directory) (xs : List AccountWrite) :
    authorship.guar v (xs.map .ofAccount) := by
  refine Or.inl fun x hx => ?_
  obtain ⟨y, -, rfl⟩ := List.mem_map.mp hx
  cases y <;> rfl

/-- A super admin has been read. -/
def Read (user : UserRow) (d : Directory) : Prop :=
  user.adminRole = some .superAdmin → SuperIn user.userId d

variable {E : Failure → Assertion Directory DirectoryWrite}

theorem wp_adminJwtGuard {req : AdminAuth.AdminRequest}
    {Q : AdminAuth.AdminRequestContext → Assertion Directory DirectoryWrite} (hE : ∀ e d n, E e none d n)
    (hQ : ∀ ctx d n, Read ctx.user d → Q ctx none d n) :
    wp authorship t (signIn (adminJwtGuard K.admin req)) Q E none d n := by
  rw [signIn]
  unfold adminJwtGuard
  split
  · exact hE _ _ _
  · rw [bind_eq, onPart_bind, wp_bind]
    refine wp_query_auto hE fun _ _ d₁ n₁ _ _ _ => ?_
    split
    · exact hE _ _ _
    · rw [bind_eq, onPart_bind, wp_bind]
      refine wp_query_auto hE fun _ _ d₂ n₂ _ _ _ => ?_
      split
      · exact hE _ _ _
      · rw [bind_eq, onPart_bind, wp_bind]
        refine wp_query_auto hE fun _ _ d₃ n₃ _ _ _ => ?_
        split
        · exact hE _ _ _
        · rw [bind_eq, onPart_bind, wp_bind]
          refine wp_query_auto hE fun _ _ d₄ n₄ _ _ _ => ?_
          split
          · rw [bind_eq, onPart_bind, wp_bind]
            exact wp_exec_auto hE (fun v _ _ _ _ _ _ _ _ => authored_account v _)
              fun _ _ _ _ _ _ _ _ => hE _ _ _
          · rw [bind_eq, onPart_bind, wp_bind]
            refine wp_query_auto hE fun v i d₅ n₅ _ _ hv => ?_
            split
            · exact hE _ _ _
            · rename_i user hfound
              split
              · exact hE _ _ _
              · rw [bind_eq, onPart_bind, wp_bind]
                refine wp_exec_auto hE (fun v _ _ _ _ _ _ _ _ => authored_account v _)
                  fun _ _ _ _ henv _ _ _ => hQ _ _ _ fun hrole => ?_
                have hmem := (List.mem_filter.mp (List.mem_of_getElem? hfound)).1
                obtain ⟨u, hu, hrow⟩ := List.mem_map.mp hmem
                have hread : SuperIn user.userId d₅ :=
                  ⟨u, hv.own_none ▸ hu, by rw [← hrow], by rw [← hrole, ← hrow]⟩
                exact superIn_applyAll _ (superIn_env henv hread)

theorem wp_totpVerifiedGuard {endpoint : AdminAuth.Endpoint} {ctx : AdminAuth.AdminRequestContext}
    {Q : Unit → Assertion Directory DirectoryWrite} (hE : ∀ e d n, E e none d n) (hQ : Q () none d n) :
    wp authorship t (signIn (totpVerifiedGuard endpoint ctx)) Q E none d n := by
  rw [totpVerifiedGuard]
  split
  · exact hQ
  · split
    · exact hE _ _ _
    · exact hQ

theorem wp_adminRoleGuard {ctx : AdminAuth.AdminRequestContext} {Q : Unit → Assertion Directory DirectoryWrite}
    (hE : ∀ e d n, E e none d n) (hQ : ctx.user.adminRole = some .superAdmin → Q () none d n) :
    wp authorship t (signIn (adminRoleGuard superAdmins ctx)) Q E none d n := by
  rw [adminRoleGuard, if_neg (by simp [superAdmins])]
  split
  · rename_i hany
    obtain ⟨role, hrole, hmem⟩ := (Option.any_eq_true ..).mp hany
    obtain rfl : role = .superAdmin := by simpa [superAdmins] using hmem
    exact hQ hrole
  · exact hE _ _ _

theorem wp_reauthGuard {req : AdminAuth.AdminRequest} {ctx : AdminAuth.AdminRequestContext}
    {Q : Unit → Assertion Directory DirectoryWrite} (hE : ∀ e d n, E e none d n)
    (hQ : ∀ d' n', authorship.Env t [] d n d' n' → Q () none d' n') :
    wp authorship t (signIn (reauthGuard K.admin req ctx)) Q E none d n := by
  unfold reauthGuard
  split
  · split
    · exact hE _ _ _
    · split
      · rw [signIn, bind_eq, onPart_bind, wp_bind]
        refine wp_query_auto hE fun _ _ d₁ n₁ henv _ _ => ?_
        split
        · exact hE _ _ _
        · split
          · exact hQ d₁ n₁ henv
          · exact hE _ _ _
      · exact hE _ _ _
  · exact hQ d n env_refl

/-- Whoever passes the guards of the controller is a super admin. -/
theorem wp_enter {r : UsersRequest} {Q : AdminRequestContext → Assertion Directory DirectoryWrite}
    (hE : ∀ e d n, E e none d n) (hQ : ∀ ctx d n, SuperIn ctx.userId d → Q ctx none d n) :
    wp authorship t (enter K r) Q E none d n := by
  rw [enter, bind_eq, wp_bind, signIn, guards, bind_eq, onPart_bind, wp_bind]
  refine wp_adminJwtGuard hE fun ctx d₁ n₁ hread => ?_
  rw [bind_eq, onPart_bind, wp_bind]
  refine wp_totpVerifiedGuard hE ?_
  rw [bind_eq, onPart_bind, wp_bind]
  refine wp_adminRoleGuard hE fun hrole => ?_
  rw [bind_eq, onPart_bind, wp_bind]
  refine wp_reauthGuard hE fun d₂ n₂ henv => ?_
  exact hQ _ d₂ n₂ (superIn_env henv (hread hrole))

/-- What suspends nobody is fit to be committed. -/
theorem authored_plain {d : Directory} {ws : List DirectoryWrite} (h : ∀ x ∈ ws, suspended? x = none) :
    Authored d ws := Or.inl h

/-- Every call guarantees the authorship of its suspensions. -/
theorem keeps_users (call : UsersCall) : authorship.Keeps t (users K call) none d n := by
  cases call with
  | brokerLogin body =>
    rw [users, bind_eq, Contract.Keeps, wp_bind, brokerLogin, bind_eq, wp_bind]
    refine wp_ofExcept (fun _ _ => trivial) fun credentials _ => ?_
    rw [bind_eq, wp_bind, login, findByEmail, bind_eq, wp_bind]
    refine wp_query_auto (fun _ _ _ => trivial) fun _ _ d₁ n₁ _ _ _ => ?_
    split
    · trivial
    · split
      · rw [bind_eq, wp_bind]
        refine wp_query_auto (fun _ _ _ => trivial) fun _ _ d₂ n₂ _ _ _ => ?_
        rw [pure_eq, wp, bind_eq, wp_bind, record, wp_tryCatch]
        refine wp_exec_auto (fun _ _ _ => trivial) (fun v i _ _ _ _ _ _ _ => authored_plain ?_)
          fun _ _ _ _ _ _ _ _ => trivial
        simp [suspended?]
      · trivial
  | admin call => exact keeps_onPart authored_account (auto_admins call) t d n
  | create req body =>
    rw [users, bind_eq, Contract.Keeps, wp_bind]
    refine wp_enter (fun _ _ _ => trivial) fun ctx d₁ n₁ _ => ?_
    rw [bind_eq, wp_bind]
    refine wp_mono _ (fun _ _ _ _ _ => trivial) (fun _ _ _ _ h => h) (keeps_audited fun d₂ n₂ _ _ => ?_)
    rw [create, bind_eq, wp_bind]
    refine wp_ofExcept (fun _ _ => ⟨_, rfl⟩) fun admin _ => ?_
    rw [bind_eq, wp_bind]
    refine wp_query (fun _ T _ _ => ⟨T, rfl⟩) fun v i d₃ n₃ _ _ _ => ?_
    rw [bind_eq, wp_bind]
    refine wp_query (fun _ T _ _ => ⟨T, rfl⟩) fun v' i' d₄ n₄ _ _ _ => ?_
    rw [bind_eq, wp_bind]
    refine wp_exec (fun _ T _ _ => ⟨T, rfl⟩) fun _ _ d₅ n₅ _ _ _ _ => ?_
    refine ⟨_, rfl, rfl, fun id auditId d₆ n₆ _ _ _ => authored_plain ?_⟩
    simp [Txn.opened, suspended?]
  | suspend req userId =>
    rw [users, bind_eq, Contract.Keeps, wp_bind]
    refine wp_enter (fun _ _ _ => trivial) fun ctx d₁ n₁ hsuper => ?_
    refine keeps_audited fun d₂ n₂ henv₂ _ => ?_
    unfold suspend
    split
    · exact ⟨_, rfl⟩
    · rename_i hother
      rw [bind_eq, wp_bind]
      refine wp_exec (fun _ T _ _ => ⟨T, rfl⟩) fun v i d₃ n₃ henv₃ _ _ _ => ?_
      refine ⟨_, rfl, rfl, fun id auditId d₄ n₄ v' henv₄ hv' => Or.inr ⟨_,
        List.mem_append_right _ (List.mem_singleton.mpr rfl), rfl, ?_, ?_⟩⟩
      · rw [hv'.committed]
        exact superIn_env henv₄ (superIn_env henv₃ (superIn_env henv₂ hsuper))
      · simp [Txn.opened, suspended?, auditRow, hother]
  | reset2fa req userId =>
    rw [users, bind_eq, Contract.Keeps, wp_bind]
    refine wp_enter (fun _ _ _ => trivial) fun ctx d₁ n₁ _ => ?_
    refine keeps_audited fun d₂ n₂ henv₂ _ => ?_
    unfold reset2fa
    split
    · exact ⟨_, rfl⟩
    · rw [bind_eq, wp_bind]
      refine wp_exec (fun _ T _ _ => ⟨T, rfl⟩) fun v i d₃ n₃ _ _ _ _ => ?_
      refine ⟨_, rfl, rfl, fun id auditId d₄ n₄ v' _ _ => authored_plain ?_⟩
      simp [Txn.opened, suspended?]

end Rules

/-- When the write is the audit row of a suspension, its author is not
suspended. -/
def authorStands (d : Directory) : DirectoryWrite → Bool
  | .insertAudit row =>
    row.action ≠ "admin_user.suspend" || d.users.all fun u => u.userId ≠ row.actorId || u.suspendedAt = none
  | _ => true

/-- The author of every suspension that the event commits is still not
suspended. -/
def Standing (w : UsersWorld) (e : Event UsersCall Input Failure) : Prop :=
  w.commitsAll directory e (authorStands w.db) = true

instance (w : UsersWorld) (e : Event UsersCall Input Failure) : Decidable (Standing w e) :=
  inferInstanceAs (Decidable (_ = true))

section Runs

variable {K : UsersConfig} {d : Directory} {n : ℕ} {es : List (Event UsersCall Input Failure)}
variable {w w' : UsersWorld} {e : Event UsersCall Input Failure}

/-- A commit whose author stands leaves a super admin: one whom it does not
suspend, or its author. -/
theorem remaining_applyAll {ws : List DirectoryWrite} (hauthored : Authored d ws)
    (hstands : ∀ x ∈ ws, authorStands d x = true) (h : Remaining d) :
    Remaining (directory.applyAll d ws) := by
  have hremains : ∀ userId, (∀ x ∈ ws, suspended? x ≠ some userId) → Stands userId d →
      Remaining (directory.applyAll d ws) := by
    intro userId hws hd
    obtain ⟨u, hu, -, hrole, hunsuspended⟩ := stands_applyAll hws hd
    exact ⟨u, hu, hrole, hunsuspended⟩
  rcases hauthored with hplain | ⟨row, hrow, haction, ⟨u, hu, hid, hrole⟩, hother⟩
  · obtain ⟨u, hu, hrole, hunsuspended⟩ := h
    exact hremains u.userId (fun x hx => by rw [hplain x hx]; simp) ⟨u, hu, rfl, hrole, hunsuspended⟩
  · have hauthor := hstands _ hrow
    simp only [authorStands, haction, ne_eq, not_true_eq_false, decide_false, Bool.false_or,
      List.all_eq_true, Bool.or_eq_true, decide_eq_true_eq] at hauthor
    have hunsuspended := (hauthor u hu).resolve_left (not_not_intro hid)
    exact hremains row.actorId hother ⟨u, hu, hid, hrole, hunsuspended⟩

theorem remaining_step (hs : Sound authorship w) (hstep : usersStep K w e = some w')
    (hstands : Standing w e) (h : Remaining w.db) : Remaining w'.db := by
  have hdb := step_db directory hstep
  rw [Standing, World.commitsAll] at hstands
  cases hc : w.commit? directory e with
  | none =>
    rw [hc] at hdb
    exact hdb ▸ h
  | some commit =>
    obtain ⟨t, ws⟩ := commit
    rw [hc] at hdb hstands
    obtain ⟨v, hv⟩ := committed_of_step hs hstep hc
    have hauthored : Authored w.db ws := hv.committed ▸ hv.guar
    rw [hdb]
    exact remaining_applyAll hauthored (List.all_eq_true.mp hstands) h

/-- In every run of suspensions and the other calls on users, by any admins and
in any interleaving, in which the author of each suspension is not suspended
when it is committed, some unsuspended super admin remains. -/
theorem super_admin_remains (hd : Remaining d)
    (hstands : Along (usersStep K) Standing (World.initial d n) es)
    (h : Visits (usersStep K) (World.initial d n) es w) : Remaining w.db := by
  have hboth := visits_invariant (I := fun w : UsersWorld => Sound authorship w ∧ Remaining w.db)
    (fun w e w' hw he hstep => ⟨sound_step (fun _ call _ _ _ => keeps_users call) hw.1 hstep,
      remaining_step hw.1 hstep he hw.2⟩) ⟨sound_initial trivial, hd⟩ hstands h
  exact hboth.2

end Runs

section Examples

/-- Two super admins, signed in. -/
def twoSupers : Directory :=
  ⟨[superAdmin "U1" "one@lp.test", superAdmin "U2" "two@lp.test"],
    [confirmedSession "S1" "U1", confirmedSession "S2" "U2"], []⟩

/-- The transaction of a suspension. -/
def suspending (t : ℕ) (auditId : String) : List (Event UsersCall Input Failure) :=
  calmly t 2 ++ [.step t (drawing auditId), .step t quiet]

/-- Both pass the guards before either suspends the other. -/
def eachOther : List (Event UsersCall Input Failure) :=
  .start 1 (.suspend (requestOf "S1") "U2") :: calmly 1 7 ++
    .start 2 (.suspend (requestOf "S2") "U1") :: calmly 2 7 ++ suspending 1 "L1" ++ suspending 2 "L2"

/-- Two super admins lock each other out. -/
theorem both_suspended : Remaining twoSupers ∧ ∃ w,
    run (usersStep plainUsers) (World.initial twoSupers 0) eachOther = some w ∧ ¬ Remaining w.db := by
  refine ⟨⟨superAdmin "U1" "one@lp.test", by decide, rfl, rfl⟩, ?_⟩
  obtain ⟨w, hrun, hcheck⟩ := run_reaches (usersStep plainUsers) (World.initial twoSupers 0) eachOther
    (fun w => w.db.users.all (·.suspendedAt ≠ none)) (by decide +kernel)
  refine ⟨w, hrun, ?_⟩
  rintro ⟨u, hu, -, hunsuspended⟩
  exact of_decide_eq_true (List.all_eq_true.mp hcheck u hu) hunsuspended

/-- One super admin suspends the other. -/
def oneSuspended : List (Event UsersCall Input Failure) :=
  .start 1 (.suspend (requestOf "S1") "U2") :: calmly 1 7 ++ suspending 1 "L1"

theorem super_admin_remains_oneSuspended : ∃ w,
    run (usersStep plainUsers) (World.initial twoSupers 0) oneSuspended = some w ∧
    (w.db.users.any fun u => u.suspendedAt ≠ none) = true ∧ Remaining w.db := by
  obtain ⟨w, hrun, hcheck⟩ := run_reaches (usersStep plainUsers) (World.initial twoSupers 0)
    oneSuspended (fun w => w.db.users.any fun u => u.suspendedAt ≠ none) (by decide +kernel)
  have hstands : Along (usersStep plainUsers) Standing (World.initial twoSupers 0) oneSuspended := by
    decide +kernel
  exact ⟨w, hrun, hcheck, super_admin_remains ⟨superAdmin "U1" "one@lp.test", by decide, rfl, rfl⟩
    hstands (visits_last hrun)⟩

end Examples

end LpPlatform.LastSuperAdmin
