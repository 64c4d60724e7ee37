import LpPlatform.AuditInterceptor
import LpPlatform.StepRuns

/-!
# Decisions on funding requests

An admin approves or rejects a pending request inside an audited transaction.
The status is read first, the ledger entry is posted and the status is
written last, each in a statement of its own, and the update names only the
request. Nothing keeps two decisions of one request from both reading it
pending, so what the table and the ledger agree on depends on the order of
the commits.
-/

namespace LpPlatform.DepositsAdmin

open Amounts AuditInterceptor InterferenceLogic JsValues Ledger RowStore Sessions StatementProgram
open StepRuns Tables

/-- The kind column. -/
def kindText : RequestKind → String
  | .deposit => "deposit"
  | .withdrawal => "withdrawal"

/-- The status column. -/
def statusText : RequestStatus → String
  | .pending => "PENDING"
  | .approved => "APPROVED"
  | .rejected => "REJECTED"

/-- The status in lower case. -/
def statusLower : RequestStatus → String
  | .pending => "pending"
  | .approved => "approved"
  | .rejected => "rejected"

/-- `Number` of the text of a numeric column, which always parses. -/
def number (text : String) : ℚ := (number? text).getD 0

/-- The entry that an approval posts. -/
def approvalEntry (requestId : String) (req : RequestTerms) (walletId : String) (amount : Numeric)
    (id : ℕ) (entryId : String) : LedgerEntry :=
  { id := id
    entryId := entryId
    walletId := walletId
    direction := if req.kind = .withdrawal then .debit else .credit
    amount := amount
    currency := req.currency
    referenceType := if req.kind = .withdrawal then .withdrawal else .deposit
    referenceId := requestId
    description :=
      let label := if req.kind = .withdrawal then "Withdrawal" else "Deposit"
      s!"{label} via {req.method} (approved)" }

/-- The guard of a withdrawal: the amount is not above the balance plus a
billionth, in doubles. -/
def checkOverdraft (req : DepositRequest) (walletId : String) : Program Unit :=
  match req.kind with
  | .deposit => return ()
  | .withdrawal => do
    let text ← getBalance walletId
    let bal := number text
    ensure (number req.amount.text ≤ toDouble (bal + toDouble (1 / 10 ^ 9)))
      (.domain "CONFLICT"
        s!"Insufficient balance to approve withdrawal (have {toFixed bal 2} {req.currency})" 409)

/-- The status update of a decision. -/
def setStatus (ctx : AdminRequestContext) (requestId : String) (status : RequestStatus) :
    Program Unit :=
  exec (fun v i =>
    if (rowsAt (·.requestId) requestId v.own.requests).isEmpty then []
    else [.decideRequest requestId status ctx.email i.now]) fun _ _ => ()

/-- `DepositsAdminController.approve`. -/
def approve (D : Driver) (ctx : AdminRequestContext) (requestId : String) (audit : AdminAudit) :
    Program (RequestStatus × AdminAudit) := do
  let found ← query fun v i => anyRow (rowsAt (·.requestId) requestId v.own.requests) i.pick
  match found with
  | none => .throw (.domain "NOT_FOUND" "Request not found" 404)
  | some req =>
    ensure (req.status = .pending)
      (.domain "CONFLICT" s!"Request already {statusLower req.status}" 409)
    let wallet ← findOrCreateWallet D (some (.str req.brokerId)) (some (.str req.currency))
    checkOverdraft req wallet.walletId
    let amount ← ofExcept (Numeric.insert req.amount.text)
    exec (fun v i =>
      [.insertEntry (approvalEntry requestId req.toRequestTerms wallet.walletId amount v.seq
        (i.id 0))]) fun _ _ => ()
    setStatus ctx requestId .approved
    return (.approved, { audit with
      resourceId := some requestId
      afterState := some (.obj [("kind", .str (kindText req.kind)), ("brokerId", .str req.brokerId),
        ("amount", .str req.amount.text), ("currency", .str req.currency),
        ("status", .str "APPROVED")]) })

/-- `DepositsAdminController.reject`. -/
def reject (ctx : AdminRequestContext) (requestId : String) (audit : AdminAudit) :
    Program (RequestStatus × AdminAudit) := do
  let found ← query fun v i => anyRow (rowsAt (·.requestId) requestId v.own.requests) i.pick
  match found with
  | none => .throw (.domain "NOT_FOUND" "Deposit request not found" 404)
  | some req =>
    ensure (req.status = .pending)
      (.domain "CONFLICT" s!"Deposit request already {statusLower req.status}" 409)
    setStatus ctx requestId .rejected
    return (.rejected, { audit with
      resourceId := some requestId
      afterState := some (.obj [("brokerId", .str req.brokerId), ("status", .str "REJECTED")]) })

/-- The audited decision endpoints. -/
inductive DecisionCall where
  | approve (ctx : AdminRequestContext) (requestId : String)
  | reject (ctx : AdminRequestContext) (requestId : String)

/-- A decision in the transaction of its audit row. -/
def decision (D : Driver) : DecisionCall → Program RequestStatus
  | .approve ctx requestId =>
    runInTx ctx (.ofConfig "deposit.approve" "deposit" (some requestId)) (approve D ctx requestId)
  | .reject ctx requestId =>
    runInTx ctx (.ofConfig "deposit.reject" "deposit" (some requestId)) (reject ctx requestId)

/-- What a committed decision has written, over the rows it was committed on. -/
inductive Decided (d : Store) : List Write → Prop where
  | approve {req wallet pre entryRow decidedBy decidedAt audit}
      (hreq : req ∈ requestTerms.rows d)
      (hwallet : (pre = [] ∧ wallet ∈ d.wallets) ∨ pre = [.insertWallet wallet])
      (hbroker : wallet.brokerId = req.brokerId) (hcurrency : wallet.currency = req.currency)
      (hentry : entryRow = approvalEntry req.requestId req wallet.walletId req.amount entryRow.id
        entryRow.entryId) :
      Decided d (pre ++ [.insertEntry entryRow,
        .decideRequest req.requestId .approved decidedBy decidedAt, .insertAudit audit])
  | reject {req decidedBy decidedAt audit} (hreq : req ∈ requestTerms.rows d) :
      Decided d [.decideRequest req.requestId .rejected decidedBy decidedAt, .insertAudit audit]

section Rules

variable {C : Contract platform} {t : ℕ} {d : Store} {n : ℕ} {D : Driver}

/-- The status update changes a request that is there. -/
theorem wp_setStatus {ctx : AdminRequestContext} {req : RequestTerms} {status : RequestStatus}
    {d₀ : Store} {ws : List Write} {Q : Unit → Assertion Store Write}
    {E : Failure → Assertion Store Write} (hE : ∀ e T d n, E e (some T) d n)
    (hreq : req ∈ requestTerms.rows d)
    (hQ : ∀ decidedAt d' n', C.Env t (platform.keysOf ws) d n d' n' → C.inv d' n' →
      Q () (some ((Txn.opened false d₀).add (ws ++
        [.decideRequest req.requestId status ctx.email decidedAt]))) d' n') :
    wp C t (setStatus ctx req.requestId status) Q E (some ((Txn.opened false d₀).add ws)) d n := by
  refine wp_exec hE fun v i d' n' henv hinv hv _ => ?_
  have hthere : req ∈ requestTerms.rows v.own := by
    rw [hv.own_some, own_opened]
    exact requestTerms.mono ws (env_growing requestTerms henv hreq)
  obtain ⟨row, hrow, hterms⟩ := List.mem_map.mp hthere
  have hne : (rowsAt (·.requestId) req.requestId v.own.requests).isEmpty = false := by
    rw [List.isEmpty_eq_false_iff_exists_mem]
    exact ⟨row, mem_rowsAt.mpr ⟨hrow, by rw [← hterms]⟩⟩
  simp only [hne, Bool.false_eq_true, if_false, add_add]
  exact hQ i.now d' _ (env_wait henv _) (C.inv_mono hinv (Nat.le_add_right _ _))

theorem wp_checkOverdraft {req : DepositRequest} {walletId : String} {T : Txn Store Write}
    {Q : Unit → Assertion Store Write} {E : Failure → Assertion Store Write}
    (hE : ∀ e T d n, E e (some T) d n)
    (hQ : ∀ d' n', C.Env t (platform.keysOf T.writes) d n d' n' → C.inv d' n' →
      Q () (some T) d' n') (hinv : C.inv d n) :
    wp C t (checkOverdraft req walletId) Q E (some T) d n := by
  rw [checkOverdraft]
  split
  · exact hQ d n env_refl hinv
  · rw [bind_eq, wp_bind]
    refine wp_query hE fun v i d' n' henv hinv' _ => ?_
    exact wp_ensure (fun _ => hE _ _ _ _) fun _ => hQ d' n' henv hinv'

/-- An approval gets ready to commit a decision. -/
theorem wp_approve {ctx : AdminRequestContext} {requestId : String} {audit : AdminAudit}
    {d₀ : Store} (hguar : ∀ v ws, Decided v.committed ws → C.guar v ws) :
    wp C t (approve D ctx requestId audit) (fun r => ReadyToCommit C t ctx r.2) InTxn
      (some (.opened false d₀)) d n := by
  have hE : ∀ e T d n, InTxn e (some T) d n := fun _ T _ _ => ⟨T, rfl⟩
  rw [approve, bind_eq, wp_bind]
  refine wp_query hE fun v i d₁ n₁ henv₁ hinv₁ hv₁ => ?_
  cases hfound : anyRow (rowsAt (·.requestId) requestId v.own.requests) i.pick with
  | none => exact hE _ _ _ _
  | some req =>
    have hrow := mem_rowsAt.mp (anyRow_mem hfound)
    have hreq₁ : req.toRequestTerms ∈ requestTerms.rows d₁ := by
      have hmem := hrow.1
      rw [hv₁.own_some] at hmem
      exact List.mem_map_of_mem hmem
    have hid : requestId = req.requestId := hrow.2.symm
    subst hid
    simp only [bind_eq]
    rw [wp_bind]
    refine wp_ensure (fun _ => hE _ _ _ _) fun _ => ?_
    rw [wp_bind]
    refine wp_findOrCreateWallet hE fun wallet ws d₂ n₂ henv₂ hinv₂ hbroker hcurrency hwallet => ?_
    rw [wp_bind]
    refine wp_checkOverdraft hE (fun d₃ n₃ henv₃ hinv₃ => ?_) hinv₂
    rw [wp_bind, insert_text]
    refine wp_ofExcept (fun e he => by simp at he) fun amount hamount => ?_
    obtain rfl : req.amount = amount := Except.ok.inj hamount
    rw [wp_bind]
    refine wp_exec hE fun v₄ i₄ d₄ n₄ henv₄ hinv₄ _ _ => ?_
    rw [add_add, wp_bind]
    have henv₂₄ : C.Env t [] d₂ n₂ d₄ n₄ := env_mono (by simp) (env_trans henv₃ henv₄)
    have hreq₄ := env_growing requestTerms (env_trans (env_mono (by simp) henv₂) henv₂₄) hreq₁
    refine wp_setStatus hE hreq₄ fun at₅ d₅ n₅ henv₅ hinv₅ => ?_
    refine ⟨_, rfl, rfl, fun id auditId d₆ n₆ v₆ henv₆ _ hd₆ _ _ _ => hguar v₆ _ ?_⟩
    have henv₄₆ : C.Env t [] d₄ n₄ d₆ n₆ := env_trans (env_wait env_refl _)
      (env_trans (env_mono (by simp) henv₅) (env_mono (by simp) henv₆))
    have hreq₆ := env_growing requestTerms henv₄₆ hreq₄
    have hwallet₆ : (ws = [] ∧ wallet ∈ d₆.wallets) ∨ ws = [.insertWallet wallet] :=
      hwallet.imp_left fun h =>
        ⟨h.1, env_growing walletRows (env_trans henv₂₄ henv₄₆) h.2⟩
    simp only [hd₆, add_writes, Txn.opened, List.nil_append, List.append_assoc, List.cons_append]
    exact Decided.approve hreq₆ hwallet₆ (column_str hbroker) (column_str hcurrency) rfl

/-- A rejection gets ready to commit a decision. -/
theorem wp_reject {ctx : AdminRequestContext} {requestId : String} {audit : AdminAudit}
    {d₀ : Store} (hguar : ∀ v ws, Decided v.committed ws → C.guar v ws) :
    wp C t (reject ctx requestId audit) (fun r => ReadyToCommit C t ctx r.2) InTxn
      (some (.opened false d₀)) d n := by
  have hE : ∀ e T d n, InTxn e (some T) d n := fun _ T _ _ => ⟨T, rfl⟩
  rw [reject, bind_eq, wp_bind]
  refine wp_query hE fun v i d₁ n₁ henv₁ hinv₁ hv₁ => ?_
  cases hfound : anyRow (rowsAt (·.requestId) requestId v.own.requests) i.pick with
  | none => exact hE _ _ _ _
  | some req =>
    have hrow := mem_rowsAt.mp (anyRow_mem hfound)
    have hreq₁ : req.toRequestTerms ∈ requestTerms.rows d₁ := by
      have hmem := hrow.1
      rw [hv₁.own_some] at hmem
      exact List.mem_map_of_mem hmem
    have hid : requestId = req.requestId := hrow.2.symm
    subst hid
    simp only [bind_eq]
    rw [wp_bind]
    refine wp_ensure (fun _ => hE _ _ _ _) fun _ => ?_
    rw [wp_bind, ← add_nil (Txn.opened false d₀)]
    refine wp_setStatus hE hreq₁ fun at₂ d₂ n₂ henv₂ _ => ?_
    refine ⟨_, rfl, rfl, fun id auditId d₃ n₃ v₃ henv₃ _ hd₃ _ _ _ => hguar v₃ _ ?_⟩
    have henv₁₃ : C.Env t [] d₁ n₁ d₃ n₃ := env_trans henv₂ (env_mono (by simp) henv₃)
    simp only [hd₃, add_writes, Txn.opened, List.nil_append, List.cons_append]
    exact Decided.reject (env_growing requestTerms henv₁₃ hreq₁)

/-- Every decision keeps a contract that allows decided requests. -/
theorem keeps_decision {call : DecisionCall}
    (hguar : ∀ v ws, Decided v.committed ws → C.guar v ws) :
    C.Keeps t (decision D call) none d n := by
  cases call with
  | approve ctx requestId => exact keeps_runInTx fun _ _ _ _ => wp_approve hguar
  | reject ctx requestId => exact keeps_runInTx fun _ _ _ _ => wp_reject hguar

end Rules

/-- Entries that carry a request's id. -/
def entriesFor (d : Store) (requestId : String) : List LedgerEntry :=
  d.entries.filter fun e => e.referenceId = requestId

/-- Every approved request has one entry, every other request none. -/
def Settled (d : Store) : Prop :=
  ∀ r ∈ d.requests, (entriesFor d r.requestId).length = if r.status = .approved then 1 else 0

/-- No decided request has changed its status. -/
def StatusKept (d d' : Store) : Prop :=
  ∀ r ∈ d.requests, r.status ≠ .pending →
    ∃ r' ∈ d'.requests, r'.requestId = r.requestId ∧ r'.status = r.status

/-- The worlds of decisions. -/
abbrev DecisionWorld := World Store Write Key Input Failure RequestStatus

/-- A decision may be committed on a request in this status: it is pending, or
it is rejected and rejected again. -/
def mayDecide (before after : RequestStatus) : Bool :=
  before = .pending || (before = .rejected && after = .rejected)

/-- The decision a write records, if any, may be committed on this table. -/
def decidesOpen (requests : List DepositRequest) : Write → Bool
  | .decideRequest requestId status _ _ =>
    (rowsAt (·.requestId) requestId requests).all fun r => mayDecide r.status status
  | _ => true

/-- A decision is committed only while its request is pending in the committed
table, or rejects a request that is rejected there. -/
def DecidesPending (w : DecisionWorld) (e : Event DecisionCall Input Failure) : Prop :=
  w.commitsAll platform e (decidesOpen w.db.requests) = true

instance (w : DecisionWorld) (e : Event DecisionCall Input Failure) :
    Decidable (DecidesPending w e) := inferInstanceAs (Decidable (_ = true))

/-- Commits are decisions of requests that are there. -/
def decisionContract : Contract platform where
  inv _ _ := True
  guar v ws := Decided v.committed ws
  inv_mono h _ := h
  inv_commit _ _ _ := trivial

/-- A decision changes one request and posts an entry for it when it
approves. -/
theorem decided_effect {d : Store} {ws : List Write} (h : Decided d ws) :
    ∃ requestId status decidedBy decidedAt posted,
      Write.decideRequest requestId status decidedBy decidedAt ∈ ws ∧
      (platform.applyAll d ws).requests =
        updateAt (·.requestId) requestId (·.decide status decidedBy decidedAt) d.requests ∧
      (platform.applyAll d ws).entries = d.entries ++ posted ∧
      (∀ e ∈ posted, e.referenceId = requestId) ∧
      posted.length = if status = .approved then 1 else 0 := by
  cases h with
  | @approve req wallet pre e decidedBy decidedAt audit hreq hwallet hbroker hcurrency hentry =>
    refine ⟨req.requestId, .approved, decidedBy, decidedAt, [e], by simp, ?_, ?_, ?_, rfl⟩
    · rcases hwallet with ⟨rfl, _⟩ | rfl <;> rfl
    · rcases hwallet with ⟨rfl, _⟩ | rfl <;> rfl
    · intro x hx
      obtain rfl : x = e := by simpa using hx
      rw [hentry]
      rfl
  | @reject req decidedBy decidedAt audit hreq =>
    exact ⟨req.requestId, .rejected, decidedBy, decidedAt, [], by simp, rfl, by simp; rfl, by simp,
      rfl⟩

/-- The status of the request a decision is committed on. -/
theorem status_of_open {requests : List DepositRequest} {ws : List Write} {requestId : String}
    {status : RequestStatus} {decidedBy : String} {decidedAt : Instant} {r : DepositRequest}
    (hopen : ws.all (decidesOpen requests) = true)
    (hmem : Write.decideRequest requestId status decidedBy decidedAt ∈ ws) (hr : r ∈ requests)
    (hid : r.requestId = requestId) :
    r.status = .pending ∨ (r.status = .rejected ∧ status = .rejected) := by
  have hall := List.all_eq_true.mp hopen _ hmem
  have hmay := List.all_eq_true.mp hall r (mem_rowsAt.mpr ⟨hr, hid⟩)
  simpa [mayDecide] using hmay

/-- Deciding a pending request, or rejecting a rejected one, keeps the table
and the ledger in agreement. -/
theorem settled_decided {d : Store} {ws : List Write} (hd : Settled d) (h : Decided d ws)
    (hopen : ws.all (decidesOpen d.requests) = true) :
    Settled (platform.applyAll d ws) := by
  obtain ⟨requestId, status, decidedBy, decidedAt, posted, hmem, hrequests, hentries, hfor, hlen⟩ :=
    decided_effect h
  have hsplit : ∀ k, entriesFor (platform.applyAll d ws) k =
      entriesFor d k ++ posted.filter fun e => e.referenceId = k := by
    intro k
    rw [entriesFor, hentries, List.filter_append]
    rfl
  intro r hr
  rw [hrequests, mem_updateAt] at hr
  obtain ⟨r₀, hr₀, ⟨hid, rfl⟩ | ⟨hid, rfl⟩⟩ := hr
  · have hbefore := hd r₀ hr₀
    have hall : posted.filter (fun e => e.referenceId = r₀.requestId) = posted :=
      List.filter_eq_self.mpr fun e he => by simp [hfor e he, hid]
    have hafter : (entriesFor (platform.applyAll d ws) r₀.requestId).length =
        (if r₀.status = .approved then 1 else 0) + if status = .approved then 1 else 0 := by
      rw [hsplit, List.length_append, hall, hbefore, hlen]
    refine hafter.trans (?_ : _ = if status = .approved then 1 else 0)
    rcases status_of_open hopen hmem hr₀ hid with hp | ⟨hp, hs⟩
    · simp [hp]
    · simp [hp, hs]
  · have hnone : posted.filter (fun e => e.referenceId = r.requestId) = [] :=
      List.filter_eq_nil_iff.mpr fun e he => by simp [hfor e he, Ne.symm hid]
    rw [hsplit, hnone, List.append_nil]
    exact hd r hr₀

/-- Nor does it change the status of a decided request. -/
theorem statusKept_decided {d d' : Store} {ws : List Write} (hd : StatusKept d d')
    (h : Decided d' ws)
    (hopen : ws.all (decidesOpen d'.requests) = true) :
    StatusKept d (platform.applyAll d' ws) := by
  obtain ⟨requestId, status, decidedBy, decidedAt, posted, hmem, hrequests, -⟩ := decided_effect h
  intro r hr hdecided
  obtain ⟨r', hr', hid, hstatus⟩ := hd r hr hdecided
  rw [hrequests]
  by_cases hrow : r'.requestId = requestId
  · refine ⟨r'.decide status decidedBy decidedAt, mem_updateAt.mpr ⟨r', hr', Or.inl ⟨hrow, rfl⟩⟩,
      hid, ?_⟩
    rcases status_of_open hopen hmem hr' hrow with hp | ⟨hp, hs⟩
    · exact absurd (hstatus.symm.trans hp) hdecided
    · exact hs.trans (hp.symm.trans hstatus)
  · exact ⟨r', mem_updateAt.mpr ⟨r', hr', Or.inr ⟨hrow, rfl⟩⟩, hid, hstatus⟩

/-- Request ids stay as they are. -/
theorem requestIds_decided {d : Store} {ws : List Write} (h : Decided d ws) :
    (platform.applyAll d ws).requests.map (·.requestId) = d.requests.map (·.requestId) := by
  obtain ⟨requestId, status, decidedBy, decidedAt, posted, -, hrequests, -⟩ := decided_effect h
  rw [hrequests]
  exact updateAt_keeps _ (by intro _; rfl) d.requests

/-- What holds of the committed tables while decisions find their requests
pending. -/
structure Deciding (d : Store) (w : DecisionWorld) : Prop where
  sound : Sound decisionContract w
  settled : Settled w.db
  kept : StatusKept d w.db
  ids : w.db.requests.map (·.requestId) = d.requests.map (·.requestId)

theorem deciding_step {D : Driver} {d : Store} {w w' : DecisionWorld}
    {e : Event DecisionCall Input Failure} (h : Deciding d w) (hc : DecidesPending w e)
    (hstep : w.step platform (decision D) e = some w') : Deciding d w' := by
  have hsound : Sound decisionContract w' :=
    sound_step (fun _ _ _ _ _ => keeps_decision fun _ _ hdecided => hdecided) h.sound hstep
  have hdb := step_db platform hstep
  cases hcommit : w.commit? platform e with
  | none =>
    rw [hcommit] at hdb
    exact ⟨hsound, hdb ▸ h.settled, hdb ▸ h.kept, hdb ▸ h.ids⟩
  | some commit =>
    obtain ⟨t, ws⟩ := commit
    rw [hcommit] at hdb
    obtain ⟨v, hv⟩ := committed_of_step h.sound hstep hcommit
    have hdecided : Decided w.db ws := hv.committed ▸ hv.guar
    have hopen : ws.all (decidesOpen w.db.requests) = true := by
      simpa [DecidesPending, World.commitsAll, hcommit] using hc
    refine ⟨hsound, ?_, ?_, ?_⟩
    · rw [hdb]
      exact settled_decided h.settled hdecided hopen
    · rw [hdb]
      exact statusKept_decided h.kept hdecided hopen
    · rw [hdb]
      exact (requestIds_decided hdecided).trans h.ids

/-- One pending deposit of a broker that has a wallet. -/
def oneRequest : Store :=
  { Store.empty with
    wallets := [⟨0, "W1", "B1", "USD"⟩]
    requests := [⟨⟨1, "R1", .deposit, "B1", ⟨5000000, by decide⟩, "USD", "manual", none, none, 0⟩,
      .pending, none, none⟩] }

/-- A call that approves the deposit. -/
def approveCall (userId : String) : DecisionCall := .approve ⟨userId, userId, none, none⟩ "R1"

/-- The statements of an approval after it has read the request: wallet, entry,
status, audit row and commit. -/
def approveStatements (t : ℕ) (entryId auditId : String) :
    List (Event DecisionCall Input Failure) :=
  [.step t ⟨0, [], 0⟩, .step t ⟨0, [entryId], 0⟩, .step t ⟨0, [], 0⟩, .step t ⟨0, [auditId], 0⟩,
    .step t ⟨0, [], 0⟩]

/-- Two admins approve the deposit, and both read it pending. -/
theorem double_approval : ∃ es w,
    run (World.step platform (decision plainDriver)) (World.initial oneRequest 2) es = some w ∧
      (oneRequest.requests.map (·.requestId)).Nodup ∧ Settled oneRequest ∧
      (entriesFor w.db "R1").length = 2 ∧ ¬ Settled w.db := by
  refine ⟨[.start 1 (approveCall "A1"), .start 2 (approveCall "A2"), .step 1 ⟨0, [], 0⟩,
    .step 2 ⟨0, [], 0⟩, .step 1 ⟨0, [], 0⟩, .step 2 ⟨0, [], 0⟩] ++
      approveStatements 1 "E1" "L1" ++ approveStatements 2 "E2" "L2", _, rfl, ?_⟩
  refine ⟨by decide, by unfold Settled; decide, rfl, fun h => ?_⟩
  have hone := h _ (List.mem_cons_self ..)
  revert hone
  decide

/-- While every decision finds its request pending at its commit, table and
ledger agree in every state reached, and no decided request changes its
status from any state of the run to a later one. -/
theorem decisions_settled {D : Driver} {d : Store} {n : ℕ}
    (hids : (d.requests.map (·.requestId)).Nodup) (hd : Settled d)
    {front back : List (Event DecisionCall Input Failure)} {w w' : DecisionWorld}
    (hc : Along (World.step platform (decision D)) DecidesPending (World.initial d n)
      (front ++ back))
    (hfront : run (World.step platform (decision D)) (World.initial d n) front = some w)
    (hback : run (World.step platform (decision D)) w back = some w') :
    Settled w'.db ∧ ∀ r ∈ w.db.requests, r.status ≠ .pending →
      ∀ r' ∈ w'.db.requests, r'.requestId = r.requestId → r'.status = r.status := by
  obtain ⟨hcf, hcb⟩ := along_append hc hfront
  have hstart : Deciding d (World.initial d n) :=
    ⟨sound_initial trivial, hd, fun r hr _ => ⟨r, hr, rfl, rfl⟩, rfl⟩
  have hmid : Deciding d w :=
    visits_invariant (fun _ _ _ => deciding_step) hstart hcf (visits_last hfront)
  have hagain : Deciding w.db w :=
    ⟨hmid.sound, hmid.settled, fun r hr _ => ⟨r, hr, rfl, rfl⟩, rfl⟩
  have hend : Deciding w.db w' :=
    visits_invariant (fun _ _ _ => deciding_step) hagain hcb (visits_last hback)
  refine ⟨hend.settled, fun r hr hdecided r' hr' hid => ?_⟩
  obtain ⟨r₀, hr₀, hid₀, hstatus⟩ := hend.kept r hr hdecided
  have hnodup : (w'.db.requests.map (·.requestId)).Nodup := by
    rw [hend.ids, hmid.ids]
    exact hids
  have hsame : r' = r₀ := List.inj_on_of_nodup_map hnodup hr' hr₀ (hid.trans hid₀.symm)
  rw [hsame, hstatus]

/-- One approval on its own. -/
def singleApproval : List (Event DecisionCall Input Failure) :=
  [.start 1 (approveCall "A1"), .step 1 ⟨0, [], 0⟩, .step 1 ⟨0, [], 0⟩] ++
    approveStatements 1 "E1" "L1"

theorem decisions_settled_once : ∃ w,
    run (World.step platform (decision plainDriver)) (World.initial oneRequest 2) singleApproval =
      some w ∧ Settled w.db := by
  have hc : Along (World.step platform (decision plainDriver)) DecidesPending
      (World.initial oneRequest 2) (singleApproval ++ []) := by decide
  have hd : Settled oneRequest := by
    unfold Settled
    decide
  exact ⟨_, rfl, (decisions_settled (by decide) hd hc rfl rfl).1⟩

end LpPlatform.DepositsAdmin
