import Mathlib.Data.Fintype.EquivFin
import LpPlatform.ApprovalQueue

/-!
# Actions that never leave the queue

Wallet adjustments by nothing fail whenever they are dispatched. When the
oldest approved actions are such adjustments, they stand in every poll, and
only what is left of its 25 places goes to other actions. So an action that no
poll attempts exists as soon as the failures leave no room for it.
-/

namespace LpPlatform.StuckActions

open AloneRuns ApprovalQueue ApprovalWatcher JsValues Ledger PendingActions RowStore
open StatementProgram Tables WalletAdjust WindowedRounds

/-- The id of an action of the queue. -/
def queueId (i : ℕ) : String := String.ofList (List.replicate (i + 1) 'A')

/-- An adjustment by nothing, which the handler refuses. -/
def emptyAdjustment : Json :=
  .obj [("brokerId", .str "B1"), ("direction", .str "CREDIT"), ("amount", .str "0"),
    ("currency", .str "INR"), ("reason", .str "fraud review")]

/-- An approved action. The first ones are adjustments by nothing. -/
def queueAction (stuck i : ℕ) : PendingAction :=
  ⟨⟨i, queueId i, if i < stuck then .walletAdjust else .brokerSuspend,
    if i < stuck then emptyAdjustment else .obj [("brokerId", .str "B1")], "fraud review", "U1", 0, 86400000⟩,
    some "U2", some i, none, none, none, none, none, .approved⟩

/-- A store with a queue of approved actions. -/
def queueStore (count stuck : ℕ) : Store :=
  { Store.empty with actions := (List.range count).map (queueAction stuck) }

/-- The ids of the adjustments that always fail. -/
def stuckIds (stuck : ℕ) : Finset String := (Finset.range stuck).image queueId

section Window

variable {α : Type} {p : α → Bool}

/-- Few rows with a property that stand in front are among the first. -/
theorem mem_take_of_front {l : List α} {k : ℕ} {a : α} (hfront : l.Pairwise fun x y => p y → p x)
    (hcount : l.countP p ≤ k) (ha : a ∈ l) (hp : p a) : a ∈ l.take k := by
  induction l generalizing k with
  | nil => exact absurd ha (by simp)
  | cons x l ih =>
    obtain ⟨hx, hl⟩ := List.pairwise_cons.mp hfront
    have hpx : p x := by
      rcases List.mem_cons.mp ha with rfl | ha
      · exact hp
      · exact hx a ha hp
    rw [List.countP_cons_of_pos hpx] at hcount
    obtain ⟨j, rfl⟩ : ∃ j, k = j + 1 := ⟨k - 1, by omega⟩
    rw [List.take_succ_cons, List.mem_cons]
    rcases List.mem_cons.mp ha with rfl | ha
    · exact Or.inl rfl
    · exact Or.inr (ih hl (by omega) ha)

/-- Rows with different keys are not more than the keys. -/
theorem countP_mem_le {f : α → String} {l : List α} (h : (l.map f).Nodup) (s : Finset String) :
    l.countP (fun x => decide (f x ∈ s)) ≤ s.card := by
  have hnodup : ((l.filter fun x => decide (f x ∈ s)).map f).Nodup := (List.filter_sublist.map f).nodup h
  rw [List.countP_eq_length_filter, ← List.length_map f, ← List.toFinset_card_of_nodup hnodup]
  refine Finset.card_le_card fun key hkey => ?_
  obtain ⟨x, hx, rfl⟩ := List.mem_map.mp (List.mem_toFinset.mp hkey)
  exact of_decide_eq_true (List.mem_filter.mp hx).2

end Window

theorem approvedBefore_total (a b : PendingAction) : approvedBefore a b = true ∨ approvedBefore b a = true := by
  unfold approvedBefore
  cases a.approvedAt <;> cases b.approvedAt <;> simp
  exact le_total _ _

theorem approvedBefore_trans {a b c : PendingAction} (hab : approvedBefore a b = true)
    (hbc : approvedBefore b c = true) : approvedBefore a c = true := by
  unfold approvedBefore at *
  cases ha : a.approvedAt <;> cases hb : b.approvedAt <;> cases hc : c.approvedAt <;> simp_all
  exact hab.trans hbc

theorem pairwise_sorted (d : Store) (pick : ℕ) : (sorted d pick).Pairwise fun a b => approvedBefore a b := by
  have : Std.Total fun a b : PendingAction => approvedBefore a b = true := ⟨approvedBefore_total⟩
  have : IsTrans PendingAction fun a b => approvedBefore a b = true := ⟨fun _ _ _ => approvedBefore_trans⟩
  exact List.pairwise_insertionSort _ _

theorem queueId_injective : Function.Injective queueId := by
  intro i j h
  have hlists := congrArg (fun s => s.toList.length) h
  simpa [queueId] using hlists

section Queue

variable {count stuck : ℕ}

theorem approved_queueStore : approved (queueStore count stuck) = (List.range count).map (queueAction stuck) := by
  refine List.filter_eq_self.mpr fun a ha => ?_
  obtain ⟨i, -, rfl⟩ := List.mem_map.mp ha
  rfl

theorem unique_queueStore : UniqueActions (queueStore count stuck) := by
  have hids : (queueStore count stuck).actions.map (·.actionId) = (List.range count).map queueId := by
    rw [queueStore, List.map_map]
    rfl
  rw [UniqueActions, hids]
  exact List.nodup_range.map queueId_injective

/-- What holds of the store before every poll. -/
structure Clogged (count stuck : ℕ) (d : Store) : Prop where
  kept : ∀ a ∈ approved d, a ∈ approved (queueStore count stuck)
  /-- The adjustments stay approved. -/
  waits : stuckIds stuck ⊆ approvedIds d
  /-- Nothing else has failed. -/
  only : failures d.audits ⊆ stuckIds stuck

theorem clogged_queueStore (h : stuck ≤ count) : Clogged count stuck (queueStore count stuck) := by
  refine ⟨fun a ha => ha, ?_, by simp [queueStore, Store.empty, failures, attempted]⟩
  intro id hid
  obtain ⟨i, hi, rfl⟩ := Finset.mem_image.mp hid
  refine mem_approvedIds.mpr ⟨queueAction stuck i, ?_, rfl⟩
  rw [approved_queueStore]
  exact List.mem_map_of_mem (List.mem_range.mpr ((Finset.mem_range.mp hi).trans_le h))

/-- The two kinds of actions in the queue. -/
theorem approved_kinds {a : PendingAction} (ha : a ∈ approved (queueStore count stuck)) :
    ∃ i, a = queueAction stuck i ∧ (a.actionId ∈ stuckIds stuck ↔ i < stuck) := by
  rw [approved_queueStore] at ha
  obtain ⟨i, -, rfl⟩ := List.mem_map.mp ha
  refine ⟨i, rfl, ?_⟩
  simp only [stuckIds, Finset.mem_image, Finset.mem_range, queueAction]
  constructor
  · rintro ⟨j, hj, hid⟩
    exact queueId_injective hid ▸ hj
  · exact fun hi => ⟨i, hi, rfl⟩

/-- An adjustment by nothing is not dispatched. -/
theorem dispatch_stuck {D : Driver} {i : ℕ} (h : i < stuck) : ∃ err,
    dispatch (queueAction stuck i).actionType (queueAction stuck i).payload (pgLedgerOps D) = .throw err := by
  simp only [queueAction, if_pos h]
  exact ⟨_, rfl⟩

/-- The others are dispatched, to no effect. -/
theorem dispatch_fine {D : Driver} {i : ℕ} (h : ¬ i < stuck) :
    dispatch (queueAction stuck i).actionType (queueAction stuck i).payload (pgLedgerOps D) =
      .done (.notImplemented .brokerSuspend) := by
  simp only [queueAction, if_neg h]
  rfl

/-- A poll reads all adjustments that fail. -/
theorem stuck_among {d : Store} {pick : ℕ} (hids : UniqueActions d) (h : Clogged count stuck d)
    (hsize : stuck ≤ 25) : stuckIds stuck ⊆ ((approvedRows d.actions pick).map (·.actionId)).toFinset := by
  intro id hid
  obtain ⟨a, ha, rfl⟩ := mem_approvedIds.mp (h.waits hid)
  have hmem : ∀ {b}, b ∈ sorted d pick → b ∈ approved (queueStore count stuck) := fun hb =>
    h.kept _ ((sorted_perm d pick).subset hb)
  have hfront : (sorted d pick).Pairwise fun x y =>
      decide (y.actionId ∈ stuckIds stuck) → decide (x.actionId ∈ stuckIds stuck) := by
    refine (pairwise_sorted d pick).imp_of_mem fun {x y} hx hy hbefore => ?_
    obtain ⟨i, rfl, hi⟩ := approved_kinds (hmem hx)
    obtain ⟨j, rfl, hj⟩ := approved_kinds (hmem hy)
    have hle : i ≤ j := by simpa [approvedBefore, queueAction] using hbefore
    simp only [decide_eq_true_eq, hi, hj]
    exact hle.trans_lt
  have hcount : (sorted d pick).countP (fun x => decide (x.actionId ∈ stuckIds stuck)) ≤ 25 := by
    refine (countP_mem_le (sorted_nodup hids pick) (stuckIds stuck)).trans ?_
    rw [stuckIds, Finset.card_image_of_injective _ queueId_injective, Finset.card_range]
    exact hsize
  rw [approvedRows_ids, List.mem_toFinset]
  exact List.mem_map_of_mem (mem_take_of_front hfront hcount ((sorted_perm d pick).symm.subset ha)
    (decide_eq_true hid))

/-- What a poll of the queue tries and leaves. -/
theorem clogged_batch {D : Driver} {d d' : Store} {pick : ℕ} {new : List AuditLog}
    (h : Clogged count stuck d) (hsize : stuck ≤ 25) (hids : UniqueActions d)
    (hbatch : Batch D (approvedRows d.actions pick) d new d') :
    stuckIds stuck ⊆ attempted new ∧ Clogged count stuck d' := by
  have hwindow : stuckIds stuck ⊆ attempted new := hbatch.tried ▸ stuck_among hids h hsize
  have hrows : ∀ row ∈ approvedRows d.actions pick, ∃ i, row.actionId = queueId i ∧
      row.type = (queueAction stuck i).actionType ∧ row.payload = (queueAction stuck i).payload ∧
      (row.actionId ∈ stuckIds stuck ↔ i < stuck) := by
    intro row hrow
    obtain ⟨a, ha, rfl⟩ := List.mem_map.mp (approvedRows_eq d pick ▸ hrow)
    obtain ⟨i, rfl, hi⟩ := approved_kinds (h.kept _ ((sorted_perm d pick).subset (List.mem_of_mem_take ha)))
    exact ⟨i, rfl, rfl, rfl, hi⟩
  have hrow : ∀ {id}, id ∈ attempted new → ∃ row ∈ approvedRows d.actions pick, row.actionId = id := by
    intro id hid
    rw [hbatch.tried, List.mem_toFinset] at hid
    exact List.mem_map.mp hid
  have hfailed : failures new = stuckIds stuck := by
    ext id
    constructor
    · intro hid
      obtain ⟨row, hmem, rfl⟩ := hrow (failures_subset new hid)
      obtain ⟨i, -, htype, hpayload, hi⟩ := hrows row hmem
      obtain ⟨s, err, t, hdispatch⟩ := hbatch.failed row hmem hid
      refine hi.mpr (by_contra fun hfine => ?_)
      rw [htype, hpayload, dispatch_fine hfine] at hdispatch
      simp [alone] at hdispatch
    · intro hid
      obtain ⟨row, hmem, rfl⟩ := hrow (hwindow hid)
      obtain ⟨i, -, htype, hpayload, hi⟩ := hrows row hmem
      refine by_contra fun hfine => ?_
      obtain ⟨s, x, t, hdispatch⟩ := hbatch.succeeded row hmem hfine
      obtain ⟨err, hthrow⟩ := @dispatch_stuck stuck D i (hi.mp hid)
      rw [htype, hpayload, hthrow] at hdispatch
      simp [alone] at hdispatch
  refine ⟨hwindow, fun a ha => h.kept a (hbatch.kept a ha), fun id hid => ?_, ?_⟩
  · rw [hbatch.left, Finset.mem_sdiff, Finset.mem_sdiff, hfailed]
    exact ⟨h.waits hid, fun hleft => hleft.2 hid⟩
  · rw [hbatch.audits, failures_append, hfailed]
    exact Finset.union_subset h.only subset_rfl

end Queue

section Polling

variable {D : Driver}

/-- An audit id that no row has. -/
theorem fresh_audit (d : Store) (row : String → AuditLog) (h : ∀ auditId, (row auditId).auditId = auditId) :
    ∃ auditId, platform.validAll d [.insertAudit (row auditId)] = true := by
  obtain ⟨auditId, hfresh⟩ := Infinite.exists_notMem_finset (d.audits.map (·.auditId)).toFinset
  have hnone : rowsAt (·.auditId) (row auditId).auditId d.audits = [] := by
    refine List.eq_nil_iff_forall_not_mem.mpr fun x hx => hfresh ?_
    obtain ⟨hmem, hid⟩ := mem_rowsAt.mp hx
    exact List.mem_toFinset.mpr (List.mem_map.mpr ⟨x, hmem, hid.trans (h auditId)⟩)
  refine ⟨auditId, ?_⟩
  simp [platform, Store.valid, hnone]

/-- A claim runs, however many rows it finds. -/
theorem claim_runs {β : Type} (actionId : String) (d : Store) (n : ℕ) : ∃ count ws,
    ∀ (g : ℕ → Program β) is, alone platform ((claim actionId).bind g) ⟨d, quiet :: is, n, some []⟩ =
      alone platform (g count) ⟨d, is, n + List.length ws, some ws⟩ := by
  let v := Rest.view platform (⟨d, [], n, some []⟩ : Rest Store Write Input)
  refine ⟨(claimable actionId v).length,
    if (claimable actionId v).isEmpty then [] else [.changeAction actionId (.execute 0)], fun g is => ?_⟩
  have hvalid : platform.validAll d
      (if (claimable actionId v).isEmpty then [] else [.changeAction actionId (.execute 0)]) = true := by
    split
    · rfl
    · simp [platform, Store.valid, ActionChange.allowed]
  exact if_pos hvalid

/-- An audit row with a new id is recorded. -/
theorem record_runs {β : Type} {actionId auditId : String} {outcome : Outcome} {metadata : Json}
    {d : Store} {n : ℕ} {held : List Write} (g : Unit → Program β) (rest : List Input)
    (hvalid : platform.validAll (platform.applyAll d held)
      [.insertAudit (watcherRow actionId outcome metadata n auditId)] = true) :
    alone platform ((record actionId outcome metadata).bind g) ⟨d, drawing auditId :: rest, n, some held⟩ =
      alone platform (g ()) ⟨d, rest, n + 1,
        some (held ++ [.insertAudit (watcherRow actionId outcome metadata n auditId)])⟩ :=
  if_pos hvalid

/-- A failed execution is rolled back and recorded. -/
theorem failed_runs (args : ActionRow) (err : Failure) (d : Store) (n : ℕ) : ∃ i d', ∀ rest txn,
    alone platform (.rollback (((record args.actionId .failure (failedMetadata args err)).tryCatch
      fun _ => .done ()).bind fun _ => .done false)) ⟨d, i :: rest, n, txn⟩ =
        some (.ok false, ⟨d', rest, n + 1, none⟩) := by
  obtain ⟨auditId, hvalid⟩ := fresh_audit d
    (watcherRow args.actionId .failure (failedMetadata args err) n) fun _ => rfl
  refine ⟨drawing auditId, d.apply (.insertAudit (watcherRow args.actionId .failure
    (failedMetadata args err) n auditId)), fun rest txn => ?_⟩
  have hexec : alone platform (record args.actionId .failure (failedMetadata args err))
      ⟨d, drawing auditId :: rest, n, none⟩ = some (.ok (), ⟨d.apply (.insertAudit (watcherRow args.actionId
        .failure (failedMetadata args err) n auditId)), rest, n + 1, none⟩) := if_pos hvalid
  rw [alone, alone_bind, alone_tryCatch, hexec]
  rfl

/-- The transaction of an action that needs nothing more than its dispatch
returns, or throws what the dispatch threw. -/
theorem attempt_runs {args : ActionRow} (hdispatch :
      (∃ err, dispatch args.type args.payload (pgLedgerOps D) = .throw err) ∨
        ∃ result, dispatch args.type args.payload (pgLedgerOps D) = .done result) (d : Store) (n : ℕ)
    {body : Program Bool} (hbody : body = do
      let rowCount ← claim args.actionId
      if rowCount = 0 then
        reach
        .rollback (.done false)
      else
        let result ← dispatch args.type args.payload (pgLedgerOps D)
        record args.actionId .success (executedMetadata args result)
        .commit (.done true) .throw) :
    (∃ is ok d' n', ∀ rest,
      alone platform body ⟨d, is ++ rest, n, some []⟩ = some (.ok ok, ⟨d', rest, n', none⟩)) ∨
    ∃ is err n' txn, ∀ rest,
      alone platform body ⟨d, is ++ rest, n, some []⟩ = some (.error err, ⟨d, rest, n', txn⟩) := by
  obtain ⟨count, ws, hclaim⟩ := claim_runs args.actionId d n
  subst hbody
  by_cases hcount : count = 0
  · refine Or.inl ⟨[quiet, quiet], false, d, n + ws.length, fun rest => (hclaim _ _).trans ?_⟩
    rw [if_pos hcount]
    exact query_bind_run _ _
  · rcases hdispatch with ⟨err, hdispatch⟩ | ⟨result, hdispatch⟩
    · refine Or.inr ⟨[quiet], err, n + ws.length, some ws, fun rest => (hclaim _ _).trans ?_⟩
      rw [if_neg hcount, hdispatch]
      rfl
    · let row := watcherRow args.actionId .success (executedMetadata args result) (n + ws.length)
      obtain ⟨auditId, hvalid⟩ := fresh_audit (platform.applyAll d ws) row fun _ => rfl
      refine Or.inl ⟨[quiet, drawing auditId], true, platform.applyAll d (ws ++ [.insertAudit (row auditId)]),
        n + ws.length + 1 + (ws ++ [Write.insertAudit (row auditId)]).length,
        fun rest => (hclaim _ _).trans ?_⟩
      rw [if_neg hcount, hdispatch]
      exact record_runs _ rest hvalid

/-- An action that needs nothing more than its dispatch is executed alone. -/
theorem executeOne_runs {args : ActionRow} (hdispatch :
      (∃ err, dispatch args.type args.payload (pgLedgerOps D) = .throw err) ∨
        ∃ result, dispatch args.type args.payload (pgLedgerOps D) = .done result) (d : Store) (n : ℕ) :
    ∃ is ok d' n', ∀ rest, alone platform (executeOne D args) ⟨d, is ++ rest, n, none⟩ =
      some (.ok ok, ⟨d', rest, n', none⟩) := by
  rcases attempt_runs hdispatch d n rfl with ⟨is, ok, d', n', hrun⟩ | ⟨is, err, n', txn, hrun⟩
  · refine ⟨quiet :: is, ok, d', n', fun rest => ?_⟩
    rw [executeOne, bind_eq, List.cons_append]
    refine (query_bind_run _ _).trans ?_
    rw [alone_tryCatch]
    exact (congrArg (Option.bind · _) (hrun rest)).trans rfl
  · obtain ⟨i, d', hfailed⟩ := failed_runs args err d n'
    refine ⟨quiet :: is ++ [i], false, d', n' + 1, fun rest => ?_⟩
    rw [executeOne, bind_eq, List.append_assoc, List.cons_append]
    refine (query_bind_run _ _).trans ?_
    rw [alone_tryCatch]
    exact (congrArg (Option.bind · _) (hrun ([i] ++ rest))).trans (hfailed rest txn)

/-- So are such actions one after the other. -/
theorem executeAll_runs {rows : List ActionRow} (counts : PollResult) (hdispatch : ∀ row ∈ rows,
      (∃ err, dispatch row.type row.payload (pgLedgerOps D) = .throw err) ∨
        ∃ result, dispatch row.type row.payload (pgLedgerOps D) = .done result) (d : Store) (n : ℕ) :
    ∃ is r s', alone platform (executeAll D rows counts) ⟨d, is, n, none⟩ = some (r, s') := by
  induction rows generalizing d n counts with
  | nil => exact ⟨[], _, _, rfl⟩
  | cons row rows ih =>
    obtain ⟨hfirst, hrest⟩ := List.forall_mem_cons.mp hdispatch
    obtain ⟨is, ok, d₁, n₁, hrun⟩ := executeOne_runs hfirst d n
    obtain ⟨is₁, r, s', hlater⟩ := ih (if ok then { counts with processed := counts.processed + 1 }
      else { counts with failed := counts.failed + 1 }) hrest d₁ n₁
    refine ⟨is ++ is₁, r, s', ?_⟩
    rw [executeAll, bind_eq, alone_bind, hrun]
    exact hlater

/-- The queue can be polled. -/
theorem poll_runs {count stuck : ℕ} {d : Store} (h : Clogged count stuck d) (n : ℕ) :
    ∃ is r d' n', (pollOnce D).solo platform is d n none = some (r, d', n') := by
  have hrows : ∀ row ∈ approvedRows d.actions 0,
      (∃ err, dispatch row.type row.payload (pgLedgerOps D) = .throw err) ∨
        ∃ result, dispatch row.type row.payload (pgLedgerOps D) = .done result := by
    intro row hrow
    obtain ⟨a, ha, rfl⟩ := List.mem_map.mp (approvedRows_eq d 0 ▸ hrow)
    obtain ⟨i, rfl, -⟩ := approved_kinds (h.kept _ ((sorted_perm d 0).subset (List.mem_of_mem_take ha)))
    by_cases hi : i < stuck
    · exact Or.inl (dispatch_stuck hi)
    · exact Or.inr ⟨_, dispatch_fine hi⟩
  obtain ⟨is, r, s', hrun⟩ := executeAll_runs ⟨0, 0⟩ hrows d n
  refine ⟨quiet :: is, r, s'.db, s'.seq, ?_⟩
  have hpoll : alone platform (pollOnce D) ⟨d, quiet :: is, n, none⟩ = some (r, s') := by
    rw [pollOnce, bind_eq, query_bind_run]
    exact hrun
  rw [solo_eq (pollOnce D) ⟨d, quiet :: is, n, none⟩, hpoll]
  rfl

/-- It can be polled as often as one likes. -/
theorem polls_run {count stuck : ℕ} (hcount : stuck ≤ count) (hsize : stuck ≤ 25) (m : ℕ) :
    ∃ d n, Polls D m (queueStore count stuck, 0) (d, n) := by
  induction m with
  | zero => exact ⟨_, _, .none⟩
  | succ m ih =>
    obtain ⟨d, n, hpolls⟩ := ih
    obtain ⟨-, -, -, hclogged, -⟩ := polls_rounds (fun _ => True) (Clogged count stuck) hpolls
      (clogged_queueStore hcount) unique_queueStore fun h hids hbatch =>
        ⟨trivial, (clogged_batch h hsize hids hbatch).2⟩
    obtain ⟨is, r, d', n', hpoll⟩ := poll_runs hclogged n
    exact ⟨d', n', .poll hpolls hpoll⟩

/-- Adjustments that fail keep an action from every poll when they leave too
few places. -/
theorem never_tried {count stuck m : ℕ} (hcount : stuck ≤ count) (hsize : stuck ≤ 25) (hm : m ≠ 0)
    (hroom : 25 + (m - 1) * (25 - stuck) < count) : ∃ d n, Polls D m (queueStore count stuck, 0) (d, n) ∧
      (failures (since (queueStore count stuck) d)).card ≤ stuck ∧
      ∃ a ∈ approved (queueStore count stuck), a.actionId ∉ attempted (since (queueStore count stuck) d) := by
  obtain ⟨d, n, hpolls⟩ := polls_run (D := D) hcount hsize m
  obtain ⟨new, haudits, -, hclogged, hrounds⟩ := polls_rounds (stuckIds stuck ⊆ ·) (Clogged count stuck)
    hpolls (clogged_queueStore hcount) unique_queueStore fun h hids hbatch => clogged_batch h hsize hids hbatch
  have hcard : (stuckIds stuck).card = stuck := by
    rw [stuckIds, Finset.card_image_of_injective _ queueId_injective, Finset.card_range]
  refine ⟨d, n, hpolls, ?_, ?_⟩
  · rw [since_eq haudits]
    have honly := hclogged.only
    rw [haudits, failures_append] at honly
    exact (Finset.card_le_card (Finset.union_subset_right honly)).trans_eq hcard
  · rw [since_eq haudits]
    have hfew := ((tried_card_le hrounds).resolve_left hm).2
    rw [hcard] at hfew
    have hall : (approvedIds (queueStore count stuck)).card = count := by
      rw [approvedIds_card unique_queueStore, approved_queueStore, List.length_map, List.length_range]
    obtain ⟨id, hid, hout⟩ := Finset.exists_mem_notMem_of_card_lt_card
      ((hfew.trans_lt hroom).trans_eq hall.symm)
    obtain ⟨a, ha, rfl⟩ := mem_approvedIds.mp hid
    exact ⟨a, ha, hout⟩

end Polling

/-- Every approved action is attempted in as many polls as their number needs,
whichever of them fail, exactly when the failures, in every poll after the
first, fit in the places that are left over. -/
theorem covers_iff {D : Driver} {count fails : ℕ} :
    Covers D count fails ↔ fails * (pollsFor count - 1) ≤ pollsFor count * 25 - count := by
  refine ⟨fun hcovers => by_contra fun hroom => ?_, covers_of_room⟩
  have hmany : 25 < count ∧ pollsFor count ≠ 0 ∧ count ≤ pollsFor count * 25 := by
    have hpolls : pollsFor count - 1 ≠ 0 := fun h => hroom (by simp [h])
    unfold pollsFor at *
    omega
  obtain ⟨hmore, hpolls, hneeded⟩ := hmany
  obtain ⟨p, hp⟩ : ∃ p, pollsFor count = p + 1 := ⟨pollsFor count - 1, by omega⟩
  have hroom' : 25 + p * (25 - min fails 25) < count := by
    rw [hp, Nat.add_sub_cancel] at hroom
    rcases le_or_gt fails 25 with hle | hgt
    · have hmul : p * (25 - fails) + fails * p = p * 25 := by
        rw [Nat.mul_comm fails p, ← Nat.mul_add, Nat.sub_add_cancel hle]
      rw [min_eq_left hle]
      omega
    · rw [min_eq_right hgt.le]
      omega
  obtain ⟨d, n, hrun, hfailures, a, ha, hout⟩ := @never_tried D count (min fails 25) (pollsFor count)
    (by omega) (min_le_right _ _) hpolls (by rw [hp]; exact hroom')
  have hlength : (approved (queueStore count (min fails 25))).length = count := by
    rw [approved_queueStore, List.length_map, List.length_range]
  exact hout (hcovers _ _ d n unique_queueStore hlength hrun (hfailures.trans (min_le_left _ _)) a ha)

/-- With 25 adjustments by nothing in front, the two polls that 26 actions need
attempt one of them never. -/
theorem last_action_waits : pollsFor 26 = 2 ∧ UniqueActions (queueStore 26 25) ∧
    (approved (queueStore 26 25)).length = 26 ∧ ∃ d n, Polls plainDriver 2 (queueStore 26 25, 0) (d, n) ∧
      ∃ a ∈ approved (queueStore 26 25), a.actionId ∉ attempted (since (queueStore 26 25) d) := by
  have hlength : (approved (queueStore 26 25)).length = 26 := by
    rw [approved_queueStore, List.length_map, List.length_range]
  obtain ⟨d, n, hpolls, -, hout⟩ := @never_tried plainDriver 26 25 2 (by decide) (by decide) (by decide)
    (by decide)
  exact ⟨rfl, unique_queueStore, hlength, d, n, hpolls, hout⟩

end LpPlatform.StuckActions
