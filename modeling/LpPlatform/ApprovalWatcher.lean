import Mathlib.Data.List.Sort
import LpPlatform.PendingActions
import LpPlatform.StepRuns

/-!
# The approval watcher

A watcher polls the approved actions and executes each in a transaction of its
own: it claims the row by marking it executed, dispatches the action, records
an audit row and commits. A claim of no row is rolled back, and an exception is
rolled back and recorded outside. The dispatcher has a handler for wallet
adjustments. For every other type it returns a tag, which is not an exception,
so the claim commits with nothing done.
-/

namespace LpPlatform.ApprovalWatcher

open Amounts AuditInterceptor InterferenceLogic JsValues Ledger PendingActions RowStore Sessions
open StatementProgram StepRuns Tables WalletAdjust

/-- What the dispatcher returns. -/
inductive DispatchResult where
  | walletAdjust (result : WalletAdjustResult)
  | notImplemented (actionType : PendingActionType)

/-- The result as it stands in the audit row. -/
def DispatchResult.json : DispatchResult → Json
  | .walletAdjust result =>
    .obj [("type", .str "wallet.adjust"), ("result", .obj [
      ("entryIds", .arr (result.entryIds.map Json.str)), ("walletId", .str result.walletId),
      ("referenceId", .str result.referenceId)])]
  | .notImplemented actionType =>
    .obj [("type", .str "not_implemented"), ("actionType", .str (actionTypeText actionType))]

/-- Route a pending action to its handler. -/
def dispatch (type : PendingActionType) (payload : Json) (ops : LedgerOps) :
    Program DispatchResult :=
  match type with
  | .walletAdjust => do
    let fields ← ofExcept (WalletAdjustPayload.ofJson payload)
    let result ← executeWalletAdjust fields ops
    return .walletAdjust result
  | .chargesRateUpdate | .tradeReverse | .brokerSuspend | .brokerLimitsUpdate =>
    return .notImplemented type

/-- What the watcher reads of an approved action. -/
structure ActionRow where
  actionId : String
  type : PendingActionType
  payload : Json
  approvedBy : Option String

/-- An audit row of the watcher. -/
def watcherRow (actionId : String) (outcome : Outcome) (metadata : Json) (id : ℕ)
    (auditId : String) : AuditLog :=
  ⟨id, auditId, .system, "approval-watcher", "pending.execute", some "pending_action",
    some actionId, outcome, metadata, none, none⟩

/-- The metadata of an execution. -/
def executedMetadata (args : ActionRow) (result : DispatchResult) : Json :=
  .obj [("type", .str (actionTypeText args.type)), ("approvedBy", nullable args.approvedBy),
    ("result", result.json)]

/-- The metadata of a failed execution. -/
def failedMetadata (args : ActionRow) (err : Failure) : Json :=
  .obj [("type", .str (actionTypeText args.type)), ("error", errToObject err)]

/-- Insert an audit row of the watcher. -/
def record (actionId : String) (outcome : Outcome) (metadata : Json) : Program Unit :=
  exec (fun v i => [.insertAudit (watcherRow actionId outcome metadata v.seq (i.id 0))])
    fun _ _ => ()

/-- The rows a claim changes. -/
def claimable (actionId : String) (v : View Store) : List PendingAction :=
  (rowsAt (·.actionId) actionId v.own.actions).filter fun a => a.status = .approved

/-- Mark an approved action executed, and count the rows. -/
def claim (actionId : String) : Program ℕ :=
  exec (fun v i =>
      if (claimable actionId v).isEmpty then [] else [.changeAction actionId (.execute i.now)])
    fun v _ => (claimable actionId v).length

/-- Reach the server, or fail to. -/
def reach : Program Unit := query fun _ _ => ()

/-- `ApprovalWatcher.executeOne`. -/
def executeOne (D : Driver) (args : ActionRow) : Program Bool := do
  -- a connection that cannot be had is not caught
  reach
  (Prog.begin false (do
    let rowCount ← claim args.actionId
    if rowCount = 0 then
      reach
      .rollback (.done false)
    else
      let result ← dispatch args.type args.payload (pgLedgerOps D)
      record args.actionId .success (executedMetadata args result)
      .commit (.done true) .throw) .throw).tryCatch fun err =>
    .rollback do
      -- a failure audit that cannot be written is only logged
      (record args.actionId .failure (failedMetadata args err)).tryCatch fun _ => .done ()
      return false

/-- The count of one poll. -/
structure PollResult where
  processed : ℕ
  failed : ℕ

/-- Execute actions one after the other. -/
def executeAll (D : Driver) : List ActionRow → PollResult → Program PollResult
  | [], counts => return counts
  | row :: rows, counts => do
    let ok ← executeOne D row
    executeAll D rows (if ok then { counts with processed := counts.processed + 1 }
      else { counts with failed := counts.failed + 1 })

/-- In ascending order of approval, without an approval last. -/
def approvedBefore (a b : PendingAction) : Bool :=
  match a.approvedAt, b.approvedAt with
  | some x, some y => x ≤ y
  | some _, none => true
  | none, some _ => false
  | none, none => true

/-- The approved actions of one poll: the oldest 25, in any order among equals. -/
def approvedRows (actions : List PendingAction) (pick : ℕ) : List ActionRow :=
  (((anyOrder (actions.filter fun a => a.status = .approved) pick).insertionSort
    fun a b => approvedBefore a b).take 25).map fun a =>
      ⟨a.actionId, a.actionType, a.payload, a.approvedBy⟩

/-- `ApprovalWatcher.pollOnce`. -/
def pollOnce (D : Driver) : Program PollResult := do
  let rows ← query fun v i => approvedRows v.own.actions i.pick
  executeAll D rows ⟨0, 0⟩

/-- The pending actions that were requested too long ago. -/
def staleRows (retentionHours : ℚ) (now : Instant) (actions : List PendingAction) :
    List PendingAction :=
  actions.filter fun a =>
    a.status = .pending ∧ (a.requestedAt : ℚ) < now - retentionHours * 3600000

/-- `ApprovalWatcher.expireStale`. -/
def expireStale (retentionHours : ℚ) : Program ℕ :=
  exec (fun v i => (staleRows retentionHours i.now v.own.actions).map fun a =>
      .changeAction a.actionId .expire)
    fun v i => (staleRows retentionHours i.now v.own.actions).length

/-- What dispatching an action of some type and payload has written, over the
rows it was committed on. -/
inductive Dispatched (D : Driver) (d : Store) :
    PendingActionType → Json → List Write → DispatchResult → Prop where
  | walletAdjust {payload fields amount wallet referenceId pre a b}
      (hfields : WalletAdjustPayload.ofJson payload = .ok fields)
      (hwallet : (pre = [] ∧ wallet ∈ d.wallets) ∨ pre = [.insertWallet wallet])
      (hpair : AdjustPair D fields amount wallet referenceId a b) :
      Dispatched D d .walletAdjust payload (pre ++ [.insertEntry a, .insertEntry b])
        (.walletAdjust ⟨[a.entryId, b.entryId], wallet.walletId, referenceId⟩)
  | notImplemented {type payload} (htype : type ≠ .walletAdjust) :
      Dispatched D d type payload [] (.notImplemented type)

/-- What a watcher has committed, over the rows it was committed on. -/
inductive Watched (D : Driver) (d : Store) : List Write → Prop where
  | expired {rows : List PendingAction} (hrows : ∀ a ∈ rows, a ∈ d.actions ∧ a.status = .pending) :
      Watched D d (rows.map fun a => .changeAction a.actionId .expire)
  | executed {a : PendingAction} {now ws result approvedBy id auditId} (ha : a ∈ d.actions)
      (happroved : a.status = .approved)
      (hdispatched : Dispatched D d a.actionType a.payload ws result) :
      Watched D d (.changeAction a.actionId (.execute now) :: ws ++ [.insertAudit
        (watcherRow a.actionId .success
          (executedMetadata ⟨a.actionId, a.actionType, a.payload, approvedBy⟩ result) id auditId)])
  | failed {actionId metadata id auditId} :
      Watched D d [.insertAudit (watcherRow actionId .failure metadata id auditId)]

/-- Calls around pending actions, by admins and by watchers. -/
inductive ActionCall where
  | admin (call : AdminCall)
  | pollOnce
  | expireStale (retentionHours : ℚ)

/-- A call, without its result. -/
def actions (D : Driver) (paise : ℕ) : ActionCall → Program Unit
  | .admin call => admin D paise call
  | .pollOnce => do
    let _ ← pollOnce D
    return ()
  | .expireStale retentionHours => do
    let _ ← expireStale retentionHours
    return ()

/-- What a call has committed. -/
inductive Acted (D : Driver) (paise : ℕ) (d : Store) (ws : List Write) : Prop where
  | requested (h : Requested D paise d ws)
  | watched (h : Watched D d ws)

/-- Action ids are unique. -/
def UniqueActions (d : Store) : Prop := (d.actions.map (·.actionId)).Nodup

section Rules

variable {C : Contract platform} {t : ℕ} {d : Store} {n : ℕ} {D : Driver} {paise : ℕ}

/-- Actions with one id are one action. -/
theorem action_unique {a b : PendingAction} (h : UniqueActions d) (ha : a ∈ d.actions)
    (hb : b ∈ d.actions) (hid : a.actionId = b.actionId) : a = b :=
  List.inj_on_of_nodup_map h ha hb hid

theorem wp_reach_auto {Q : Unit → Assertion Store Write} {E : Failure → Assertion Store Write}
    (hE : ∀ e d n, E e none d n)
    (hQ : ∀ d' n', C.Env t [] d n d' n' → C.inv d' n' → Q () none d' n') :
    wp C t reach Q E none d n :=
  wp_query_auto hE fun _ _ d' n' henv hinv _ => hQ d' n' henv hinv

/-- Dispatching an action in a transaction that has changed no wallet. -/
theorem wp_dispatch {type : PendingActionType} {payload : Json} {T : Txn Store Write}
    {Q : DispatchResult → Assertion Store Write} {E : Failure → Assertion Store Write}
    (hinv : C.inv d n) (hown : ∀ x, (T.own platform x).wallets = x.wallets)
    (hE : ∀ e T d n, E e (some T) d n)
    (hQ : ∀ result ws d' n', C.Env t (platform.keysOf T.writes) d n d' n' → C.inv d' n' →
      (∀ d₁ n₁, C.Env t [] d' n' d₁ n₁ → Dispatched D d₁ type payload ws result) →
      Q result (some (T.add ws)) d' n') :
    wp C t (dispatch type payload (pgLedgerOps D)) Q E (some T) d n := by
  have hother : type ≠ .walletAdjust → Q (.notImplemented type) (some T) d n := by
    intro htype
    have hdone := hQ (.notImplemented type) [] d n env_refl hinv fun _ _ _ => .notImplemented htype
    simpa using hdone
  cases type with
  | walletAdjust =>
    rw [dispatch, bind_eq, wp_bind]
    refine wp_ofExcept (fun e _ => hE e T d n) fun fields hfields => ?_
    rw [bind_eq, wp_bind]
    refine wp_executeWalletAdjust (pgLedgerOps_meets D) hE
      fun amount wallet referenceId pre a b d₁ n₁ d₂ n₂ henv₁ hwallet henv₂ hinv₂ hpair => ?_
    refine hQ _ _ d₂ n₂ (env_trans henv₁ henv₂) hinv₂ fun d₃ n₃ henv₃ => ?_
    have henv₁₃ : C.Env t [] d₁ n₁ d₃ n₃ := env_trans (env_mono (by simp) henv₂) henv₃
    refine .walletAdjust hfields (hwallet.imp_left fun h => ⟨h.1, ?_⟩) hpair
    have hmem := h.2
    rw [hown] at hmem
    exact env_growing walletRows henv₁₃ hmem
  | chargesRateUpdate => exact hother (by decide)
  | tradeReverse => exact hother (by decide)
  | brokerSuspend => exact hother (by decide)
  | brokerLimitsUpdate => exact hother (by decide)

/-- The rows of a claim that changes something hold an approved action. -/
theorem claimable_row {actionId : String} {v : View Store}
    (h : (claimable actionId v).isEmpty = false) :
    ∃ a ∈ v.own.actions, a.actionId = actionId ∧ a.status = .approved := by
  obtain ⟨a, ha⟩ := List.isEmpty_eq_false_iff_exists_mem.mp h
  simp only [claimable, List.mem_filter, mem_rowsAt, decide_eq_true_eq] at ha
  exact ⟨a, ha.1.1, ha.1.2, ha.2⟩

/-- What a row read by a poll says of the action under its id. -/
def Describes (args : ActionRow) (d : Store) : Prop :=
  ∃ terms ∈ actionTerms.rows d, terms.actionId = args.actionId ∧ terms.actionType = args.type ∧
    terms.payload = args.payload

/-- The description of an action stays true. -/
theorem describes_applyAll {args : ActionRow} (ws : List Write) (h : Describes args d) :
    Describes args (platform.applyAll d ws) := by
  obtain ⟨terms, hterms, hargs⟩ := h
  exact ⟨terms, actionTerms.mono ws hterms, hargs⟩

theorem describes_env {args : ActionRow} {held : List Key} {d' : Store} {n' : ℕ}
    (henv : C.Env t held d n d' n') (h : Describes args d) : Describes args d' := by
  obtain ⟨terms, hterms, hargs⟩ := h
  exact ⟨terms, env_growing actionTerms henv hterms, hargs⟩

/-- The claimed row is the action that was read. -/
theorem describes_row {args : ActionRow} {a : PendingAction} (hids : UniqueActions d)
    (h : Describes args d) (ha : a ∈ d.actions) (hid : a.actionId = args.actionId) :
    args = ⟨a.actionId, a.actionType, a.payload, args.approvedBy⟩ := by
  obtain ⟨terms, hterms, hidTerms, htype, hpayload⟩ := h
  obtain ⟨b, hb, rfl⟩ := List.mem_map.mp hterms
  obtain rfl : b = a := action_unique hids hb ha (hidTerms.trans hid.symm)
  simp [hidTerms, htype, hpayload]

/-- Executing an action that was read keeps a contract that allows what the
watcher commits. -/
theorem wp_executeOne {args : ActionRow} {Q : Bool → Assertion Store Write}
    {E : Failure → Assertion Store Write} (hids : ∀ d n, C.inv d n → UniqueActions d)
    (hguar : ∀ v ws, Watched D v.committed ws → C.guar v ws) (hargs : Describes args d)
    (hE : ∀ e txn d n, E e txn d n) (hQ : ∀ ok d n, Q ok none d n) :
    wp C t (executeOne D args) Q E none d n := by
  rw [executeOne, bind_eq, wp_bind]
  refine wp_reach_auto (fun _ _ _ => hE _ _ _ _) fun d₁ n₁ henv₁ _ => ?_
  rw [wp_tryCatch]
  -- whatever went wrong is recorded outside the transaction
  have hcatch : ∀ err txn x m, wp C t (.rollback do
      (record args.actionId .failure (failedMetadata args err)).tryCatch fun _ => .done ()
      return false) Q E txn x m := by
    intro err txn x m
    simp only [wp, bind_eq]
    rw [wp_bind, wp_tryCatch]
    exact wp_exec_auto (fun _ _ _ => hQ _ _ _) (fun v i _ _ _ _ _ _ _ => hguar v _ .failed)
      fun v i _ _ _ _ _ _ => hQ _ _ _
  intro d₂ n₂ henv₂ _
  refine ⟨fun _ => ?_, fun e => hcatch e none d₂ n₂⟩
  rw [bind_eq, wp_bind]
  refine wp_exec (fun e _ _ _ => hcatch e _ _ _) fun v i d₃ n₃ henv₃ hinv₃ hv₃ _ => ?_
  by_cases hrows : (claimable args.actionId v).isEmpty = true
  · simp only [if_true, List.isEmpty_iff.mp hrows, List.length_nil, bind_eq]
    rw [wp_bind]
    exact wp_query (fun e _ _ _ => hcatch e _ _ _) fun _ _ _ _ _ _ _ => hQ _ _ _
  · obtain ⟨a, ha, hid, happroved⟩ := claimable_row (by simpa using hrows)
    have hcount : ¬ (claimable args.actionId v).length = 0 := by
      rwa [List.length_eq_zero_iff, ← List.isEmpty_iff]
    simp only [hrows, hcount, if_false, bind_eq, Bool.false_eq_true]
    rw [hv₃.own_some] at ha
    have henv₀₃ : C.Env t [] d n d₃ n₃ :=
      env_trans henv₁ (env_trans (env_mono (by simp) henv₂) (env_mono (by simp) henv₃))
    have hrow := describes_row (hids _ _ hinv₃) (describes_env henv₀₃ hargs) ha hid
    rw [wp_bind]
    refine wp_dispatch (D := D) (C.inv_mono hinv₃ (Nat.le_add_right _ _)) (fun _ => rfl)
      (fun e _ _ _ => hcatch e _ _ _) fun result ws d₄ n₄ henv₄ hinv₄ hdispatched => ?_
    rw [wp_bind]
    refine wp_exec (fun e _ _ _ => hcatch e _ _ _) fun v₅ i₅ d₅ n₅ henv₅ _ _ _ => ?_
    simp only [add_add]
    refine wp_commit rfl (fun e _ _ => hcatch e _ _ _) fun d₆ n₆ henv₆ _ _ _ => ?_
    refine ⟨fun v₆ hv₆ => hguar v₆ _ ?_, hQ _ _ _⟩
    have hheld : C.Env t [.action a.actionId] d₃ (n₃ + 1) d₆ n₆ := by
      refine env_trans (env_mono ?_ henv₄) (env_trans (env_wait (env_mono ?_ henv₅) _)
        (env_mono ?_ henv₆)) <;> simp [hid, KeyedRows.keysOf, platform, Write.keys]
    have ha₆ := env_action hheld (by simp) ha
    have hdispatched₆ := hdispatched d₆ n₆
      (env_trans (env_wait (env_mono (by simp) henv₅) _) (env_mono (by simp) henv₆))
    rw [hrow] at hdispatched₆
    rw [hv₆.committed, hrow]
    exact Watched.executed ha₆ happroved hdispatched₆

/-- So does executing a list of them. -/
theorem keeps_executeAll (hids : ∀ d n, C.inv d n → UniqueActions d)
    (hguar : ∀ v ws, Watched D v.committed ws → C.guar v ws) (rows : List ActionRow)
    (counts : PollResult) (hrows : ∀ row ∈ rows, Describes row d) :
    C.Keeps t (executeAll D rows counts) none d n := by
  induction rows generalizing counts d n with
  | nil => trivial
  | cons row rows ih =>
    rw [Contract.Keeps, executeAll, bind_eq, wp_bind]
    refine wp_frame (fun x => ∀ row ∈ rows, Describes row x)
      (fun x ws hx r hr => describes_applyAll ws (hx r hr)) _
      (fun r hr => hrows r (List.mem_cons_of_mem row hr)) ?_
    exact wp_executeOne hids hguar (hrows row List.mem_cons_self) (fun _ _ _ _ _ => trivial)
      fun ok d' n' hrest => ih _ hrest

/-- A poll reads rows that describe actions. -/
theorem approvedRows_describe {actions : List PendingAction} {pick : ℕ} {row : ActionRow}
    (hd : d.actions = actions) (h : row ∈ approvedRows actions pick) : Describes row d := by
  obtain ⟨a, ha, rfl⟩ := List.mem_map.mp h
  have hmem := (List.mem_insertionSort _).mp (List.mem_of_mem_take ha)
  have hin : a ∈ d.actions := by
    rw [hd]
    exact (List.mem_filter.mp ((anyOrder_perm _ pick).mem_iff.mp hmem)).1
  exact ⟨a.toActionTerms, List.mem_map_of_mem hin, rfl, rfl, rfl⟩

/-- Every call around pending actions keeps a contract that allows what they
commit. -/
theorem keeps_actions {call : ActionCall} (hids : ∀ d n, C.inv d n → UniqueActions d)
    (hguar : ∀ v ws, Acted D paise v.committed ws → C.guar v ws) :
    C.Keeps t (actions D paise call) none d n := by
  cases call with
  | admin call => exact keeps_admin fun v ws h => hguar v ws (.requested h)
  | pollOnce =>
    have hpoll : C.Keeps t (pollOnce D) none d n := by
      rw [Contract.Keeps, pollOnce, bind_eq, wp_bind]
      refine wp_query_auto (fun _ _ _ => trivial) fun v i d' n' _ _ hv => ?_
      exact keeps_executeAll hids (fun v ws h => hguar v ws (.watched h)) _ _ fun row hrow =>
        approvedRows_describe (by rw [hv.own_none]) hrow
    rw [Contract.Keeps, actions, bind_eq, wp_bind]
    exact wp_mono _ (fun _ _ _ _ _ => trivial) (fun _ _ _ _ h => h) hpoll
  | expireStale retentionHours =>
    rw [Contract.Keeps, actions, bind_eq, wp_bind]
    refine wp_exec_auto (fun _ _ _ => trivial) (fun v i d' n' _ _ hv _ _ => ?_)
      fun _ _ _ _ _ _ _ _ => trivial
    refine hguar v _ (.watched (.expired fun a ha => ?_))
    have hstale := List.mem_filter.mp ha
    rw [hv.committed, ← hv.own_none]
    exact ⟨hstale.1, (of_decide_eq_true hstale.2).1⟩

end Rules

/-- The action a write marks executed. -/
def executed? : Write → Option String
  | .changeAction actionId (.execute _) => some actionId
  | _ => none

/-- The actions that a commit marks executed. -/
def executions (d : Store) (ws : List Write) : List PendingAction :=
  d.actions.filter fun a => a.actionId ∈ ws.filterMap executed?

/-- A write to something else than a pending action or the audit log. -/
def changesState : Write → Bool
  | .changeAction _ _ => false
  | .insertAudit _ => false
  | _ => true

/-- The writes apply what an action asks for: the pair of an adjustment as its
payload says, and for any other type at least some change of the platform's
state. -/
def Applied (D : Driver) (a : PendingAction) (ws : List Write) : Prop :=
  match a.actionType with
  | .walletAdjust => ∃ fields amount wallet referenceId x y,
    WalletAdjustPayload.ofJson a.payload = .ok fields ∧
    AdjustPair D fields amount wallet referenceId x y ∧
    Write.insertEntry x ∈ ws ∧ Write.insertEntry y ∈ ws
  | _ => ∃ w ∈ ws, changesState w = true

/-- The worlds of calls around pending actions. -/
abbrev ActionWorld := World Store Write Key Input Failure Unit

/-- A write marks no action executed but a wallet adjustment. -/
def handled (actions : List PendingAction) (w : Write) : Bool :=
  match executed? w with
  | none => true
  | some actionId => (rowsAt (·.actionId) actionId actions).all fun a => a.actionType = .walletAdjust

/-- Every action the event marks executed is a wallet adjustment. -/
def Handled (w : ActionWorld) (e : Event ActionCall Input Failure) : Prop :=
  w.commitsAll platform e (handled w.db.actions) = true

instance (w : ActionWorld) (e : Event ActionCall Input Failure) : Decidable (Handled w e) :=
  inferInstanceAs (Decidable (_ = true))

/-- Every action the event marks executed has been applied with it. -/
def Truthful (D : Driver) (w : ActionWorld) (e : Event ActionCall Input Failure) : Prop :=
  match w.commit? platform e with
  | none => True
  | some (_, ws) => ∀ a ∈ executions w.db ws, Applied D a ws

/-- Action ids stay unique. -/
theorem uniqueActions_applyAll {d : Store} {ws : List Write} (h : UniqueActions d)
    (hvalid : platform.validAll d ws = true) : UniqueActions (platform.applyAll d ws) := by
  refine applyAll_invariant platform (P := UniqueActions) (fun d w hd hw => ?_) h hvalid
  cases w with
  | insertAction row => exact nodup_insert hd hw
  | changeAction actionId change =>
    have hkeeps : (updateAt (·.actionId) actionId (fun a => change.apply a) d.actions).map
        (·.actionId) = d.actions.map (·.actionId) :=
      updateAt_keeps _ (fun a => by rw [apply_actionTerms]) d.actions
    exact (congrArg List.Nodup hkeeps).mpr hd
  | _ => exact hd

/-- Commits are those of admins and watchers. -/
def actionContract (D : Driver) (paise : ℕ) : Contract platform where
  inv d _ := UniqueActions d
  guar v ws := Acted D paise v.committed ws
  inv_mono h _ := h
  inv_commit h hvalid _ := uniqueActions_applyAll h hvalid

/-- Along every run an action keeps its terms. -/
theorem terms_visits {D : Driver} {paise : ℕ} {u w : ActionWorld}
    {es : List (Event ActionCall Input Failure)} {terms : ActionTerms}
    (hvisits : Visits (World.step platform (actions D paise)) u es w)
    (h : terms ∈ actionTerms.rows u.db) : terms ∈ actionTerms.rows w.db := by
  refine visits_of_step (I := fun x : ActionWorld => terms ∈ actionTerms.rows x.db)
    (fun x e x' hx hstep => ?_) h hvisits
  rw [step_db platform hstep]
  cases x.commit? platform e with
  | none => exact hx
  | some commit => exact actionTerms.mono commit.2 hx

/-- The condition on writes is the condition on the actions they execute. -/
theorem handled_iff {d : Store} {ws : List Write} : ws.all (handled d.actions) = true ↔
    ∀ a ∈ executions d ws, a.actionType = .walletAdjust := by
  simp only [List.all_eq_true, executions, List.mem_filter, List.mem_filterMap, decide_eq_true_eq]
  constructor
  · rintro h a ⟨ha, w, hw, hexec⟩
    have hrows := h w hw
    simp only [handled, hexec, List.all_eq_true, mem_rowsAt, decide_eq_true_eq] at hrows
    exact hrows a ⟨ha, rfl⟩
  · intro h w hw
    cases hexec : executed? w with
    | none => simp [handled, hexec]
    | some actionId =>
      simp only [handled, hexec, List.all_eq_true, mem_rowsAt, decide_eq_true_eq]
      rintro a ⟨ha, rfl⟩
      exact h a ⟨ha, w, hw, hexec⟩

/-- Endpoints of admins mark nothing executed. -/
theorem executed?_requested {D : Driver} {paise : ℕ} {d : Store} {ws : List Write}
    (h : Requested D paise d ws) : ws.filterMap executed? = [] := by
  cases h with
  | adjusted hwallet hpair hscale hthreshold hbelow haudit hnames =>
    rcases hwallet with ⟨rfl, _⟩ | rfl <;> rfl
  | _ => rfl

/-- Neither does a handler. -/
theorem executed?_dispatched {D : Driver} {d : Store} {type : PendingActionType} {payload : Json}
    {ws : List Write} {result : DispatchResult} (h : Dispatched D d type payload ws result) :
    ws.filterMap executed? = [] := by
  cases h with
  | walletAdjust hfields hwallet hpair => rcases hwallet with ⟨rfl, _⟩ | rfl <;> rfl
  | notImplemented htype => rfl

/-- What a dispatched action has written applies it when it is a wallet
adjustment, and nothing when it is not. -/
theorem applied_dispatched {D : Driver} {d : Store} {a : PendingAction} {now : Instant}
    {ws : List Write} {result : DispatchResult} {audit : AuditLog}
    (h : Dispatched D d a.actionType a.payload ws result) :
    Applied D a (.changeAction a.actionId (.execute now) :: ws ++ [.insertAudit audit]) ↔
      a.actionType = .walletAdjust := by
  generalize htype : a.actionType = type at h
  generalize hpayload : a.payload = payload at h
  cases h with
  | @walletAdjust _ fields amount wallet referenceId pre x y hfields hwallet hpair =>
    simp only [Applied, htype, hpayload, iff_true]
    exact ⟨fields, amount, wallet, referenceId, x, y, hfields, hpair, by simp, by simp⟩
  | notImplemented hother =>
    simp only [hother, iff_false]
    cases type <;> simp [Applied, htype, changesState] at hother ⊢

/-- An action that a commit marks executed is applied by it exactly when it is
a wallet adjustment. -/
theorem applied_iff {D : Driver} {paise : ℕ} {d : Store} {ws : List Write} {a : PendingAction}
    (hids : UniqueActions d) (h : Acted D paise d ws) (ha : a ∈ executions d ws) :
    Applied D a ws ↔ a.actionType = .walletAdjust := by
  simp only [executions, List.mem_filter, decide_eq_true_eq] at ha
  obtain ⟨hmem, hexec⟩ := ha
  cases h with
  | requested h => simp [executed?_requested h] at hexec
  | watched h =>
    cases h with
    | @expired rows hrows => simp [executed?] at hexec
    | @executed b now ws result approvedBy id auditId hb happroved hdispatched =>
      have hid : a.actionId = b.actionId := by
        simpa [executed?, executed?_dispatched hdispatched] using hexec
      obtain rfl : a = b := action_unique hids hmem hb hid
      exact applied_dispatched hdispatched
    | failed => simp [executed?] at hexec

/-- A store with one pending action. -/
def oneAction (a : PendingAction) : Store := { Store.empty with actions := [a] }

/-- An approved action. -/
def approvedAction (type : PendingActionType) (payload : Json) : PendingAction :=
  ⟨⟨1, "A1", type, payload, "fraud review", "U1", 0, 86400000⟩, some "U2", some 1000, none, none,
    none, none, none, .approved⟩

/-- A call run to its end, one input for each statement. -/
def runCall (t : ℕ) (call : ActionCall) (inputs : List Input) :
    List (Event ActionCall Input Failure) :=
  .start t call :: inputs.map (Event.step t)

/-- One poll, up to the commit of its first action. -/
def onePoll (inputs : List Input) : List (Event ActionCall Input Failure) :=
  .start 1 .pollOnce :: inputs.map (Event.step 1)

/-- The approved suspension of a broker. -/
def suspension : PendingAction :=
  approvedAction .brokerSuspend (.obj [("brokerId", .str "B1")])

/-- A poll commits the suspension of a broker as executed, with an audit row of
its success, and has changed nothing else. -/
theorem suspension_executed : ∃ es w e w',
    Takes (World.step platform (actions plainDriver 1000000)) (World.initial (oneAction suspension) 2)
      es w e w' ∧
    (∃ a ∈ w'.db.actions, a.actionType = .brokerSuspend ∧ a.status = .executed) ∧
    (∃ row ∈ w'.db.audits, row.action = "pending.execute" ∧ row.resourceId = some "A1" ∧
      row.outcome = .success) ∧
    ¬ Truthful plainDriver w e := by
  obtain ⟨w, hrun, hcheck⟩ := run_reaches (World.step platform (actions plainDriver 1000000))
    (World.initial (oneAction suspension) 2) (onePoll [quiet, quiet, quiet, quiet, drawing "L1"])
    (fun w => (w.step platform (actions plainDriver 1000000) (.step 1 quiet)).any (fun w' =>
        (w'.db.actions.any fun a => a.actionType = .brokerSuspend ∧ a.status = .executed) ∧
        (w'.db.audits.any fun row => row.action = "pending.execute" ∧ row.resourceId = some "A1" ∧
          row.outcome = .success)) &&
      (w.commit? platform (.step (γ := ActionCall) (ε := Failure) 1 quiet)).any (fun commit =>
        ((executions w.db commit.2).any fun a => a.actionType = .brokerSuspend) ∧
        commit.2.all fun write => !changesState write)) (by decide +kernel)
  rw [Bool.and_eq_true] at hcheck
  obtain ⟨w', hstep, hafter⟩ := (Option.any_eq_true ..).mp hcheck.1
  obtain ⟨⟨t, ws⟩, hcommit, hbefore⟩ := (Option.any_eq_true ..).mp hcheck.2
  have hboth := of_decide_eq_true hafter
  have hwritten := of_decide_eq_true hbefore
  simp only [List.any_eq_true, decide_eq_true_eq] at hboth hwritten
  obtain ⟨⟨a, ha, htype⟩, hnone⟩ := hwritten
  refine ⟨_, w, .step 1 quiet, w', ⟨_, [], rfl, hrun, hstep⟩, hboth.1, hboth.2, fun htrue => ?_⟩
  simp only [Truthful, hcommit] at htrue
  have happlied := htrue a ha
  simp only [Applied, htype] at happlied
  obtain ⟨write, hwrite, hchanges⟩ := happlied
  simpa [hchanges] using List.all_eq_true.mp hnone write hwrite

/-- Every action that is marked executed along a run is applied when it is,
exactly when all of them are wallet adjustments. -/
theorem executed_truthful_iff {D : Driver} {paise : ℕ} {d : Store} {n : ℕ} (hd : UniqueActions d)
    (es : List (Event ActionCall Input Failure)) :
    Along (World.step platform (actions D paise)) Handled (World.initial d n) es ↔
      ∀ w e w', Takes (World.step platform (actions D paise)) (World.initial d n) es w e w' →
        Truthful D w e := by
  rw [along_iff_takes]
  refine forall_congr' fun w => forall_congr' fun e => forall_congr' fun w' =>
    forall_congr' fun htakes => ?_
  have hsound : Sound (actionContract D paise) w :=
    sound_visits (fun _ call _ _ _ => keeps_actions (fun _ _ h => h) fun _ _ h => h)
      (sound_initial hd) (takes_before htakes)
  obtain ⟨_, _, _, _, hstep⟩ := htakes
  unfold Handled Truthful World.commitsAll
  cases hcommit : w.commit? platform e with
  | none => simp
  | some commit =>
    obtain ⟨t, ws⟩ := commit
    obtain ⟨v, hv⟩ := committed_of_step hsound hstep hcommit
    have hacted : Acted D paise w.db ws := hv.committed ▸ hv.guar
    rw [handled_iff]
    exact forall_congr' fun a => forall_congr' fun ha => (applied_iff hsound.inv hacted ha).symm

/-- An approved wallet adjustment. -/
def adjustment : PendingAction :=
  approvedAction .walletAdjust (.obj [("brokerId", .str "B1"), ("direction", .str "CREDIT"),
    ("amount", .str "25000"), ("currency", .str "INR"), ("reason", .str "fraud review")])

/-- A poll that executes it. -/
def adjustmentPoll : List (Event ActionCall Input Failure) :=
  onePoll [quiet, quiet, quiet, quiet, quiet, drawing "W1", drawing "R1", drawing "E1",
    drawing "E2", drawing "L1", quiet]

theorem adjustment_executed : ∃ w,
    run (World.step platform (actions plainDriver 1000000)) (World.initial (oneAction adjustment) 2)
      adjustmentPoll = some w ∧
    w.db.entries.length = 2 ∧
    ∀ u e u', Takes (World.step platform (actions plainDriver 1000000))
      (World.initial (oneAction adjustment) 2) adjustmentPoll u e u' → Truthful plainDriver u e := by
  obtain ⟨w, hrun, hentries⟩ := run_reaches (World.step platform (actions plainDriver 1000000))
    (World.initial (oneAction adjustment) 2) adjustmentPoll (fun w => w.db.entries.length = 2)
    (by decide +kernel)
  have hc : Along (World.step platform (actions plainDriver 1000000)) Handled
      (World.initial (oneAction adjustment) 2) adjustmentPoll := by decide +kernel
  exact ⟨w, hrun, of_decide_eq_true hentries,
    (executed_truthful_iff (by simp [UniqueActions, oneAction]) _).mp hc⟩

end LpPlatform.ApprovalWatcher
