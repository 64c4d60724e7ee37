import LpPlatform.AloneRuns
import LpPlatform.ApprovalWatcher
import LpPlatform.AuditedTransactions
import LpPlatform.WindowedRounds

/-!
# The queue of approved actions

A poll executes the 25 actions that were approved first. Those that fail stay
approved under their old time and stand in front again at the next poll, so
that failures take the place of actions that were never tried. Every action is
attempted in as many polls as their number needs, whatever the actions are,
exactly when the failures leave room for all of them.
-/

namespace LpPlatform.ApprovalQueue

open AloneRuns ApprovalWatcher AuditInterceptor AuditedTransactions InterferenceLogic JsValues Ledger
open PendingActions RowStore SessionTrails StatementProgram StatementWrites Tables WalletAdjust
open WindowedRounds

/-- The approved actions. -/
def approved (d : Store) : List PendingAction := d.actions.filter fun a => a.status = .approved

/-- Their ids. -/
def approvedIds (d : Store) : Finset String := ((approved d).map (·.actionId)).toFinset

/-- The actions that attempts of the watcher name. -/
def attempted (audits : List AuditLog) : Finset String :=
  ((audits.filter fun row => row.action = "pending.execute").filterMap (·.resourceId)).toFinset

/-- The actions that failed attempts name. -/
def failures (audits : List AuditLog) : Finset String := attempted (audits.filter fun row => row.outcome = .failure)

/-- The audit rows that were added. -/
def since (d d' : Store) : List AuditLog := d'.audits.drop d.audits.length

/-- Consecutive polls, each run alone, with the next identity value. -/
inductive Polls (D : Driver) : ℕ → Store × ℕ → Store × ℕ → Prop where
  | none {s} : Polls D 0 s s
  | poll {m s d n is r d' n'} (h : Polls D m s (d, n))
      (hpoll : (pollOnce D).solo platform is d n none = some (r, d', n')) : Polls D (m + 1) s (d', n')

/-- How many polls so many actions need, 25 at a time. -/
def pollsFor (count : ℕ) : ℕ := (count + 24) / 25

/-- Every approved action is attempted in these polls, whatever the actions
are, as long as few of them fail. -/
def Covers (D : Driver) (count fails : ℕ) : Prop :=
  ∀ d n d' n', UniqueActions d → (approved d).length = count →
    Polls D (pollsFor count) (d, n) (d', n') → (failures (since d d')).card ≤ fails →
    ∀ a ∈ approved d, a.actionId ∈ attempted (since d d')

/-- A write of the ledger. -/
def posts : Write → Bool
  | .insertWallet _ | .insertEntry _ => true
  | _ => false

section Executing

variable {D : Driver} {d : Store} {n : ℕ}

/-- Dispatching only writes to the ledger. -/
theorem emits_dispatch (type : PendingActionType) (payload : Json) :
    Emits (fun w => posts w = true) (dispatch type payload (pgLedgerOps D)) := by
  have hleg : ∀ leg, Emits (fun w => posts w = true) (postLeg D leg) := fun leg =>
    emits_bind (emits_ofExcept _) fun row => emits_exec fun v i x hx => by
      obtain rfl := List.mem_singleton.mp hx
      rfl
  have hwallet : ∀ brokerId currency,
      Emits (fun w => posts w = true) ((pgLedgerOps D).findOrCreateWallet brokerId currency) := by
    intro brokerId currency
    refine emits_bind (emits_bind (emits_query _) fun existing => ?_) fun _ => emits_done _
    cases existing with
    | some wallet => exact emits_done _
    | none =>
      exact emits_bind (emits_ofExcept _) fun broker => emits_bind (emits_ofExcept _) fun unit =>
        emits_exec fun v i x hx => by
          obtain rfl := List.mem_singleton.mp hx
          rfl
  have hpair : ∀ legA legB, Emits (fun w => posts w = true) ((pgLedgerOps D).postPair legA legB) :=
    fun legA legB => emits_bind (hleg legA) fun _ => emits_bind (hleg legB) fun _ => emits_done _
  cases type with
  | walletAdjust =>
    refine emits_bind (emits_ofExcept _) fun fields => emits_bind ?_ fun _ => emits_done _
    refine emits_bind (emits_ofExcept _) fun amount => ?_
    split
    · exact emits_throw _
    · exact emits_bind (hwallet _ _) fun _ => emits_bind (emits_query _) fun _ =>
        emits_bind (hpair _ _) fun _ => emits_done _
  | _ => exact emits_done _

/-- Writes of the ledger leave actions and audit rows as they are. -/
theorem applyAll_posts {ws : List Write} (h : ∀ w ∈ ws, posts w = true) (d : Store) :
    (platform.applyAll d ws).actions = d.actions ∧ (platform.applyAll d ws).audits = d.audits := by
  induction ws generalizing d with
  | nil => exact ⟨rfl, rfl⟩
  | cons w ws ih =>
    obtain ⟨hw, hws⟩ := List.forall_mem_cons.mp h
    obtain ⟨hactions, haudits⟩ := ih hws (d.apply w)
    have hone : (d.apply w).actions = d.actions ∧ (d.apply w).audits = d.audits := by
      cases w <;> first | exact ⟨rfl, rfl⟩ | simp [posts] at hw
    exact ⟨hactions.trans hone.1, haudits.trans hone.2⟩

/-- What executing an approved action leaves. -/
inductive Executed (D : Driver) (args : ActionRow) (d : Store) : Bool → AuditLog → Store → Prop where
  | success (now : Instant) {row d' s s' result}
      (hdispatch : alone platform (dispatch args.type args.payload (pgLedgerOps D)) s =
        some (.ok result, s'))
      (hactions : d'.actions =
        updateAt (·.actionId) args.actionId (fun a => (ActionChange.execute now).apply a) d.actions)
      (haudits : d'.audits = d.audits ++ [row]) (houtcome : row.outcome = .success) :
      Executed D args d true row d'
  | failure {row d' s s' err}
      (hdispatch : alone platform (dispatch args.type args.payload (pgLedgerOps D)) s =
        some (.error err, s'))
      (hactions : d'.actions = d.actions) (haudits : d'.audits = d.audits ++ [row])
      (houtcome : row.outcome = .failure) : Executed D args d false row d'

/-- A failed execution is rolled back and recorded. -/
theorem alone_failed {args : ActionRow} {err : Failure} {txn : Option (List Write)} {is : List Input}
    {r : Except Failure Bool} {s' : Rest Store Write Input}
    (h : alone platform (.rollback (((record args.actionId .failure (failedMetadata args err)).tryCatch
      fun _ => .done ()).bind fun _ => .done false)) ⟨d, is, n, txn⟩ = some (r, s')) :
    ∃ id auditId is' n', r = .ok false ∧ s' = ⟨d.apply (.insertAudit (watcherRow args.actionId .failure
      (failedMetadata args err) id auditId)), is', n', none⟩ := by
  have hbind : alone platform (((record args.actionId .failure (failedMetadata args err)).tryCatch
      fun _ => .done ()).bind fun _ => .done false) ⟨d, is, n, none⟩ = some (r, s') := h
  rcases bind_inv hbind with ⟨_, mid, hrecord, hdone⟩ | ⟨e, hrecord, -⟩
  · obtain ⟨rfl, rfl⟩ := Prod.mk.inj (Option.some.inj hdone)
    rcases tryCatch_inv hrecord with ⟨_, hexec, -⟩ | ⟨e, _, hexec, -⟩
    · obtain ⟨i, is', -, -, rfl⟩ := alone_exec hexec
      exact ⟨_, _, _, _, rfl, rfl⟩
    · obtain ⟨i, is', -, he, -⟩ := alone_exec hexec
      simp at he
  · rcases tryCatch_inv hrecord with ⟨_, -, he⟩ | ⟨_, _, -, hcaught⟩
    · simp at he
    · simp [alone] at hcaught

/-- The transaction of an approved action commits its execution, or has
dispatched it in vain. -/
theorem alone_attempt {args : ActionRow} {is : List Input} {r : Except Failure Bool}
    {s' : Rest Store Write Input} {a : PendingAction} (ha : a ∈ approved d) (hid : a.actionId = args.actionId)
    (h : alone platform (.begin false (do
      let rowCount ← claim args.actionId
      if rowCount = 0 then
        reach
        .rollback (.done false)
      else
        let result ← dispatch args.type args.payload (pgLedgerOps D)
        record args.actionId .success (executedMetadata args result)
        .commit (.done true) .throw) .throw) ⟨d, is, n, none⟩ = some (r, s')) :
    (∃ result s t now ws id auditId, r = .ok true ∧
      alone platform (dispatch args.type args.payload (pgLedgerOps D)) s = some (.ok result, t) ∧
      (∀ w ∈ ws, posts w = true) ∧ s'.txn = none ∧
      s'.db = platform.applyAll d (.changeAction args.actionId (.execute now) :: (ws ++
        [.insertAudit (watcherRow args.actionId .success (executedMetadata args result) id auditId)]))) ∨
    ∃ err s t, r = .error err ∧ s'.db = d ∧
      alone platform (dispatch args.type args.payload (pgLedgerOps D)) s = some (.error err, t) := by
  have hbody : alone platform (do
      let rowCount ← claim args.actionId
      if rowCount = 0 then
        reach
        .rollback (.done false)
      else
        let result ← dispatch args.type args.payload (pgLedgerOps D)
        record args.actionId .success (executedMetadata args result)
        .commit (.done true) .throw) ⟨d, is, n, some []⟩ = some (r, s') := h
  obtain ⟨i, is', -, hclaimed⟩ := exec_bind_inv hbody
  obtain ⟨hmem, happroved⟩ := List.mem_filter.mp ha
  have hrow : a ∈ claimable args.actionId (Rest.view platform (⟨d, is, n, some []⟩ : Rest Store Write Input)) :=
    List.mem_filter.mpr ⟨mem_rowsAt.mpr ⟨hmem, hid⟩, happroved⟩
  have hempty : (claimable args.actionId (Rest.view platform
      (⟨d, is, n, some []⟩ : Rest Store Write Input))).isEmpty = false := by
    simpa [List.isEmpty_eq_false_iff] using List.ne_nil_of_mem hrow
  have hcount : ¬ (claimable args.actionId (Rest.view platform
      (⟨d, is, n, some []⟩ : Rest Store Write Input))).length = 0 := by
    simpa using List.ne_nil_of_mem hrow
  rw [if_neg hcount] at hclaimed
  simp only [hempty, Bool.false_eq_true, if_false] at hclaimed
  rcases bind_inv hclaimed with ⟨result, mid, hdispatch, hrest⟩ | ⟨err, hdispatch, rfl⟩
  · obtain ⟨is₁, n₁, ws, rfl, hposts⟩ := alone_emits (emits_dispatch _ _) hdispatch
    obtain ⟨j, is₂, -, hcommit⟩ := exec_bind_inv hrest
    obtain ⟨rfl, rfl⟩ := Prod.mk.inj (Option.some.inj hcommit)
    refine Or.inl ⟨result, _, _, i.now, ws, n₁, j.id 0, rfl, hdispatch, hposts, rfl, ?_⟩
    simp only [Rest.own, Rest.write, Rest.view, Option.getD_some, List.nil_append,
      List.cons_append]
  · obtain ⟨is₁, n₁, ws, rfl, -⟩ := alone_emits (emits_dispatch _ _) hdispatch
    exact Or.inr ⟨err, _, _, rfl, rfl, hdispatch⟩

/-- Executing an approved action alone succeeds or fails, and is recorded. -/
theorem alone_executeOne {args : ActionRow} {is : List Input} {r : Except Failure Bool}
    {s' : Rest Store Write Input} (h : alone platform (executeOne D args) ⟨d, is, n, none⟩ = some (r, s'))
    {a : PendingAction} (ha : a ∈ approved d) (hid : a.actionId = args.actionId) :
    ∃ ok row d' is' n', r = .ok ok ∧ s' = ⟨d', is', n', none⟩ ∧ Executed D args d ok row d' ∧
      row.action = "pending.execute" ∧ row.resourceId = some args.actionId := by
  rw [executeOne, bind_eq] at h
  obtain ⟨i₀, is₀, -, h⟩ := query_bind_inv h
  rcases tryCatch_inv h with ⟨ok, hbody, rfl⟩ | ⟨err, ⟨d₁, is₁, n₁, txn⟩, hbody, hfailed⟩
  · rcases alone_attempt ha hid hbody with ⟨result, s, t, now, ws, rowId, auditId, hok, hdispatch, hposts,
      htxn, hdb⟩ | ⟨err, s, t, herr, -⟩
    · obtain rfl := Except.ok.inj hok
      obtain ⟨d', is', n', txn⟩ := s'
      obtain rfl : txn = none := htxn
      obtain rfl : d' = _ := hdb
      have hrows := applyAll_posts hposts (d.apply (.changeAction args.actionId (.execute now)))
      have hafter : platform.applyAll d (.changeAction args.actionId (.execute now) :: (ws ++ [.insertAudit
          (watcherRow args.actionId .success (executedMetadata args result) rowId auditId)])) =
          (platform.applyAll (d.apply (.changeAction args.actionId (.execute now))) ws).apply (.insertAudit
            (watcherRow args.actionId .success (executedMetadata args result) rowId auditId)) :=
        applyAll_append platform _ ws _
      refine ⟨true, watcherRow args.actionId .success (executedMetadata args result) rowId auditId, _, is', n',
        rfl, rfl, .success now hdispatch ?_ ?_ rfl, rfl, rfl⟩
      · rw [hafter]
        exact hrows.1
      · rw [hafter]
        exact congrArg (· ++ _) hrows.2
    · simp at herr
  · rcases alone_attempt ha hid hbody with ⟨result, s, t, now, ws, rowId, auditId, hok, -⟩ |
      ⟨err', s, t, herr, hdb, hdispatch⟩
    · simp at hok
    · obtain rfl := Except.error.inj herr
      obtain rfl : d₁ = d := hdb
      obtain ⟨rowId, auditId, is', n', rfl, rfl⟩ := alone_failed hfailed
      exact ⟨false, _, _, is', n', rfl, rfl, .failure hdispatch rfl rfl rfl, rfl, rfl⟩

/-- What executing some approved actions one after the other leaves. -/
structure Batch (D : Driver) (rows : List ActionRow) (d : Store) (new : List AuditLog) (d' : Store) :
    Prop where
  audits : d'.audits = d.audits ++ new
  tried : attempted new = (rows.map (·.actionId)).toFinset
  /-- What succeeded is no longer approved. -/
  left : approvedIds d' = approvedIds d \ (attempted new \ failures new)
  kept : ∀ a ∈ approved d', a ∈ approved d
  unique : UniqueActions d'
  failed : ∀ row ∈ rows, row.actionId ∈ failures new → ∃ s e t,
    alone platform (dispatch row.type row.payload (pgLedgerOps D)) s = some (.error e, t)
  succeeded : ∀ row ∈ rows, row.actionId ∉ failures new → ∃ s x t,
    alone platform (dispatch row.type row.payload (pgLedgerOps D)) s = some (.ok x, t)

theorem attempted_cons {row : AuditLog} {id : String} (haction : row.action = "pending.execute")
    (hid : row.resourceId = some id) (audits : List AuditLog) :
    attempted (row :: audits) = insert id (attempted audits) := by
  simp [attempted, haction, hid]

theorem failures_cons {row : AuditLog} {id : String} (haction : row.action = "pending.execute")
    (hid : row.resourceId = some id) (audits : List AuditLog) : failures (row :: audits) =
      if row.outcome = .failure then insert id (failures audits) else failures audits := by
  by_cases hfailure : row.outcome = .failure
  · simp only [failures, List.filter_cons, hfailure, decide_true, if_true]
    exact attempted_cons haction hid _
  · simp [failures, hfailure]

theorem failures_subset (audits : List AuditLog) : failures audits ⊆ attempted audits := by
  intro id hid
  simp only [failures, attempted, List.mem_toFinset, List.mem_filterMap, List.mem_filter] at hid ⊢
  obtain ⟨row, ⟨⟨hrow, -⟩, haction⟩, hname⟩ := hid
  exact ⟨row, ⟨hrow, haction⟩, hname⟩

theorem mem_approvedIds {id : String} :
    id ∈ approvedIds d ↔ ∃ a ∈ approved d, a.actionId = id := by
  simp [approvedIds]

/-- An executed action is no longer approved, the others are as before. -/
theorem approved_executed {id : String} {now : Instant} {d' : Store}
    (h : d'.actions = updateAt (·.actionId) id (fun a => (ActionChange.execute now).apply a) d.actions)
    {a : PendingAction} : a ∈ approved d' ↔ a ∈ approved d ∧ a.actionId ≠ id := by
  simp only [approved, h, updateAt, List.mem_filter, List.mem_map, decide_eq_true_eq]
  constructor
  · rintro ⟨⟨b, hb, hab⟩, happroved⟩
    by_cases hid : b.actionId = id
    · rw [if_pos hid] at hab
      rw [← hab] at happroved
      simp [ActionChange.apply] at happroved
    · rw [if_neg hid] at hab
      exact hab ▸ ⟨⟨hb, hab.symm ▸ happroved⟩, hid⟩
  · rintro ⟨⟨ha, happroved⟩, hid⟩
    exact ⟨⟨a, ha, if_neg hid⟩, happroved⟩

theorem unique_executed {id : String} {now : Instant} {d' : Store} (hids : UniqueActions d)
    (h : d'.actions = updateAt (·.actionId) id (fun a => (ActionChange.execute now).apply a) d.actions) :
    UniqueActions d' := by
  have hkeeps : (updateAt (·.actionId) id (fun a => (ActionChange.execute now).apply a) d.actions).map
      (·.actionId) = d.actions.map (·.actionId) :=
    updateAt_keeps _ (fun a => by rw [apply_actionTerms]) d.actions
  rw [UniqueActions, h]
  exact (congrArg List.Nodup hkeeps).mpr hids

/-- One success in front of a batch. -/
theorem batch_success {row : ActionRow} {rows : List ActionRow} {audit : AuditLog} {now : Instant}
    {new : List AuditLog} {d₁ d' : Store} {s t : Rest Store Write Input} {result : DispatchResult}
    (hnew : row.actionId ∉ rows.map (·.actionId))
    (hdispatch : alone platform (dispatch row.type row.payload (pgLedgerOps D)) s = some (.ok result, t))
    (hactions : d₁.actions =
      updateAt (·.actionId) row.actionId (fun a => (ActionChange.execute now).apply a) d.actions)
    (haudits : d₁.audits = d.audits ++ [audit]) (houtcome : audit.outcome = .success)
    (haction : audit.action = "pending.execute") (hname : audit.resourceId = some row.actionId)
    (h : Batch D rows d₁ new d') : Batch D (row :: rows) d (audit :: new) d' := by
  have htried := attempted_cons haction hname new
  have hfailures : failures (audit :: new) = failures new := by
    rw [failures_cons haction hname, houtcome, if_neg (by decide)]
  have hout : row.actionId ∉ failures new := fun hmem => by
    have hmem := failures_subset new hmem
    rw [h.tried, List.mem_toFinset] at hmem
    exact hnew hmem
  refine ⟨by rw [h.audits, haudits, List.append_assoc]; rfl, by rw [htried, h.tried]; simp, ?_,
    fun a ha => ((approved_executed hactions).mp (h.kept a ha)).1, h.unique, ?_, ?_⟩
  · have herase : approvedIds d₁ = (approvedIds d).erase row.actionId := by
      ext id
      simp only [mem_approvedIds, Finset.mem_erase, approved_executed hactions]
      constructor
      · rintro ⟨a, ⟨ha, hne⟩, rfl⟩
        exact ⟨hne, a, ha, rfl⟩
      · rintro ⟨hne, a, ha, rfl⟩
        exact ⟨a, ⟨ha, hne⟩, rfl⟩
    rw [h.left, herase, htried, hfailures]
    ext id
    simp only [Finset.mem_sdiff, Finset.mem_erase, Finset.mem_insert]
    by_cases hid : id = row.actionId
    · simp [hid, hout]
    · simp [hid]
  · intro x hx hfailed
    rw [hfailures] at hfailed
    rcases List.mem_cons.mp hx with rfl | hx
    · exact absurd hfailed hout
    · exact h.failed x hx hfailed
  · intro x hx hfine
    rw [hfailures] at hfine
    rcases List.mem_cons.mp hx with rfl | hx
    · exact ⟨s, result, t, hdispatch⟩
    · exact h.succeeded x hx hfine

/-- One failure in front of a batch. -/
theorem batch_failure {row : ActionRow} {rows : List ActionRow} {audit : AuditLog}
    {new : List AuditLog} {d₁ d' : Store} {s t : Rest Store Write Input} {err : Failure}
    (hnew : row.actionId ∉ rows.map (·.actionId))
    (hdispatch : alone platform (dispatch row.type row.payload (pgLedgerOps D)) s = some (.error err, t))
    (hactions : d₁.actions = d.actions)
    (haudits : d₁.audits = d.audits ++ [audit]) (houtcome : audit.outcome = .failure)
    (haction : audit.action = "pending.execute") (hname : audit.resourceId = some row.actionId)
    (h : Batch D rows d₁ new d') : Batch D (row :: rows) d (audit :: new) d' := by
  have hsame : approved d₁ = approved d := by rw [approved, approved, hactions]
  have htried := attempted_cons haction hname new
  have hfailures : failures (audit :: new) = insert row.actionId (failures new) := by
    rw [failures_cons haction hname, if_pos houtcome]
  have hout : row.actionId ∉ attempted new := by
    rw [h.tried, List.mem_toFinset]
    exact hnew
  refine ⟨by rw [h.audits, haudits, List.append_assoc]; rfl, by rw [htried, h.tried]; simp, ?_,
    fun a ha => hsame ▸ h.kept a ha, h.unique, ?_, ?_⟩
  · rw [h.left, approvedIds, approvedIds, hsame, htried, hfailures]
    ext id
    simp only [Finset.mem_sdiff, Finset.mem_insert]
    by_cases hid : id = row.actionId
    · simp [hid, hout]
    · simp [hid]
  · intro x hx hfailed
    rw [hfailures, Finset.mem_insert] at hfailed
    rcases List.mem_cons.mp hx with rfl | hx
    · exact ⟨s, err, t, hdispatch⟩
    · refine h.failed x hx (hfailed.resolve_left fun hid => hnew ?_)
      exact List.mem_map.mpr ⟨x, hx, hid⟩
  · intro x hx hfine
    rw [hfailures, Finset.mem_insert, not_or] at hfine
    rcases List.mem_cons.mp hx with rfl | hx
    · exact absurd rfl hfine.1
    · exact h.succeeded x hx hfine.2

/-- Executing approved actions one after the other. -/
theorem alone_executeAll {rows : List ActionRow} {counts : PollResult} {is : List Input}
    {r : Except Failure PollResult} {s' : Rest Store Write Input} (hids : UniqueActions d)
    (hnodup : (rows.map (·.actionId)).Nodup) (hrows : ∀ row ∈ rows, row.actionId ∈ approvedIds d)
    (h : alone platform (executeAll D rows counts) ⟨d, is, n, none⟩ = some (r, s')) :
    s'.txn = none ∧ ∃ new, Batch D rows d new s'.db := by
  induction rows generalizing d n is counts with
  | nil =>
    obtain ⟨-, rfl⟩ := Prod.mk.inj (Option.some.inj h)
    exact ⟨rfl, [], by simp, rfl, by simp [attempted], fun a ha => ha, hids, by simp, by simp⟩
  | cons row rows ih =>
    obtain ⟨hfirst, hrest⟩ := List.forall_mem_cons.mp hrows
    rw [List.map_cons, List.nodup_cons] at hnodup
    obtain ⟨a, ha, hid⟩ := mem_approvedIds.mp hfirst
    rw [executeAll, bind_eq] at h
    rcases bind_inv h with ⟨ok, mid, hone, hlater⟩ | ⟨e, hone, -⟩
    · obtain ⟨ok', audit, d₁, is₁, n₁, hok, rfl, hexecuted, haction, hname⟩ := alone_executeOne hone ha hid
      cases hexecuted with
      | success now hdispatch hactions haudits houtcome =>
        have hafter : ∀ x ∈ rows, x.actionId ∈ approvedIds d₁ := by
          intro x hx
          obtain ⟨b, hb, hbid⟩ := mem_approvedIds.mp (hrest x hx)
          refine mem_approvedIds.mpr ⟨b, (approved_executed hactions).mpr ⟨hb, fun hsame => ?_⟩, hbid⟩
          exact hnodup.1 (List.mem_map.mpr ⟨x, hx, hbid.symm.trans hsame⟩)
        obtain ⟨htxn, new, hbatch⟩ := ih (unique_executed hids hactions) hnodup.2 hafter hlater
        exact ⟨htxn, audit :: new, batch_success hnodup.1 hdispatch hactions haudits houtcome haction hname
          hbatch⟩
      | failure hdispatch hactions haudits houtcome =>
        have hsame : approved d₁ = approved d := by rw [approved, approved, hactions]
        have hids₁ : UniqueActions d₁ := by rwa [UniqueActions, hactions]
        have hafter : ∀ x ∈ rows, x.actionId ∈ approvedIds d₁ := by
          rw [approvedIds, hsame]
          exact hrest
        obtain ⟨htxn, new, hbatch⟩ := ih hids₁ hnodup.2 hafter hlater
        exact ⟨htxn, audit :: new, batch_failure hnodup.1 hdispatch hactions haudits houtcome haction hname
          hbatch⟩
    · obtain ⟨ok', audit, d₁, is₁, n₁, hok, -⟩ := alone_executeOne hone ha hid
      simp at hok

/-- The approved actions as a poll sorts them. -/
def sorted (d : Store) (pick : ℕ) : List PendingAction :=
  (anyOrder (approved d) pick).insertionSort fun a b => approvedBefore a b

theorem sorted_perm (d : Store) (pick : ℕ) : (sorted d pick).Perm (approved d) :=
  (List.perm_insertionSort _ _).trans (anyOrder_perm _ _)

/-- The rows of a poll are the first 25. -/
theorem approvedRows_eq (d : Store) (pick : ℕ) : approvedRows d.actions pick =
    ((sorted d pick).take 25).map fun a => ⟨a.actionId, a.actionType, a.payload, a.approvedBy⟩ := rfl

theorem sorted_nodup (hids : UniqueActions d) (pick : ℕ) : ((sorted d pick).map (·.actionId)).Nodup :=
  ((sorted_perm d pick).map _).nodup_iff.mpr ((List.filter_sublist.map _).nodup hids)

theorem approvedRows_ids (d : Store) (pick : ℕ) : (approvedRows d.actions pick).map (·.actionId) =
    ((sorted d pick).take 25).map (·.actionId) := by
  rw [approvedRows_eq, List.map_map]
  rfl

/-- A poll executes the rows it has read. -/
theorem poll_batch {is : List Input} {r : Except Failure PollResult} {d' : Store} {n' : ℕ}
    (hids : UniqueActions d) (h : (pollOnce D).solo platform is d n none = some (r, d', n')) :
    ∃ pick new, Batch D (approvedRows d.actions pick) d new d' := by
  have halone := solo_eq (S := platform) (pollOnce D) ⟨d, is, n, none⟩
  rw [h] at halone
  obtain ⟨⟨r', s'⟩, hrun, hs⟩ := Option.map_eq_some_iff.mp halone.symm
  obtain ⟨-, rfl, -⟩ : r' = r ∧ s'.db = d' ∧ s'.seq = n' := by simpa using hs
  rw [pollOnce, bind_eq] at hrun
  obtain ⟨i, is', -, hrest⟩ := query_bind_inv hrun
  have hnodup : ((approvedRows d.actions i.pick).map (·.actionId)).Nodup := by
    rw [approvedRows_ids]
    exact ((List.take_sublist 25 _).map _).nodup (sorted_nodup hids i.pick)
  have hrows : ∀ row ∈ approvedRows d.actions i.pick, row.actionId ∈ approvedIds d := by
    intro row hrow
    obtain ⟨a, ha, rfl⟩ := List.mem_map.mp (approvedRows_eq d i.pick ▸ hrow)
    exact mem_approvedIds.mpr ⟨a, (sorted_perm d i.pick).subset (List.mem_of_mem_take ha), rfl⟩
  obtain ⟨-, new, hbatch⟩ := alone_executeAll hids hnodup hrows hrest
  exact ⟨i.pick, new, hbatch⟩

/-- A batch of a poll is a round over the approved actions. -/
theorem batch_round {pick : ℕ} {new : List AuditLog} {d' : Store} (hids : UniqueActions d)
    (h : Batch D (approvedRows d.actions pick) d new d') :
    Round 25 (approvedIds d) (attempted new) (failures new) (approvedIds d') := by
  have hwindow : attempted new = (((sorted d pick).take 25).map (·.actionId)).toFinset := by
    rw [h.tried, approvedRows_ids]
  have hall : ((sorted d pick).map (·.actionId)).toFinset = approvedIds d := by
    ext id
    simp only [approvedIds, List.mem_toFinset, ((sorted_perm d pick).map (·.actionId)).mem_iff]
  refine ⟨?_, ?_, failures_subset new, h.left⟩
  · rw [hwindow, ← hall]
    intro id hid
    rw [List.mem_toFinset] at hid ⊢
    exact ((List.take_sublist 25 _).map _).subset hid
  · have hnodup := sorted_nodup hids pick
    rw [hwindow, ← hall, List.toFinset_card_of_nodup hnodup,
      List.toFinset_card_of_nodup (((List.take_sublist 25 _).map _).nodup hnodup), List.length_map,
      List.length_map, List.length_take]

end Executing

section Covering

variable {D : Driver} {d : Store} {n m : ℕ}

theorem attempted_append (us ws : List AuditLog) : attempted (us ++ ws) = attempted us ∪ attempted ws := by
  simp [attempted, List.toFinset_append]

theorem failures_append (us ws : List AuditLog) : failures (us ++ ws) = failures us ∪ failures ws := by
  rw [failures, List.filter_append, attempted_append]
  rfl

/-- Consecutive polls are rounds over the approved actions, whose windows meet
a condition that holds of the first rows of every store on the way. -/
theorem polls_rounds (cond : Finset String → Prop) (inv : Store → Prop) {s s' : Store × ℕ}
    (h : Polls D m s s') (hinv : inv s.1) (hids : UniqueActions s.1)
    (hstep : ∀ {d pick new d'}, inv d → UniqueActions d → Batch D (approvedRows d.actions pick) d new d' →
      cond (attempted new) ∧ inv d') :
    ∃ new, s'.1.audits = s.1.audits ++ new ∧ UniqueActions s'.1 ∧ inv s'.1 ∧
      Rounds 25 cond (approvedIds s.1) m (attempted new) (failures new) (approvedIds s'.1) := by
  induction h with
  | none => exact ⟨[], by simp, hids, hinv, .none⟩
  | @poll m s d n is r d' n' h hpoll ih =>
    obtain ⟨old, haudits, hunique, hold, hrounds⟩ := ih hinv hids
    obtain ⟨pick, new, hbatch⟩ := poll_batch hunique hpoll
    obtain ⟨hcond, hnext⟩ := hstep hold hunique hbatch
    refine ⟨old ++ new, by rw [hbatch.audits, haudits, List.append_assoc], hbatch.unique, hnext, ?_⟩
    rw [attempted_append, failures_append]
    exact .round hrounds (batch_round hunique hbatch) hcond

theorem approvedIds_card (hids : UniqueActions d) : (approvedIds d).card = (approved d).length := by
  have hnodup : ((approved d).map (·.actionId)).Nodup := (List.filter_sublist.map _).nodup hids
  rw [approvedIds, List.toFinset_card_of_nodup hnodup, List.length_map]

theorem since_eq {d d' : Store} {new : List AuditLog} (h : d'.audits = d.audits ++ new) :
    since d d' = new := by
  rw [since, h, List.drop_left]

/-- Few failures leave room for every action. -/
theorem covers_of_room {count fails : ℕ}
    (hroom : fails * (pollsFor count - 1) ≤ pollsFor count * 25 - count) : Covers D count fails := by
  intro d n d' n' hids hcount hpolls hfails a ha
  obtain ⟨new, haudits, -, -, hrounds⟩ := polls_rounds (fun _ => True) (fun _ => True) hpolls trivial hids
    fun _ _ _ => ⟨trivial, trivial⟩
  rw [since_eq haudits] at hfails ⊢
  have hcard := approvedIds_card hids
  rw [hcount] at hcard
  have hneeded : (approvedIds d).card ≤ pollsFor count * 25 := by
    rw [hcard, pollsFor]
    omega
  rw [rounds_cover hrounds hfails hneeded (by rw [hcard]; exact hroom)]
  exact mem_approvedIds.mpr ⟨a, ha, rfl⟩

end Covering

end LpPlatform.ApprovalQueue
