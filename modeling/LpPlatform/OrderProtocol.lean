import LpPlatform.HmacGuard
import LpPlatform.SessionProtocols

/-!
# The way of an order

What intake and worker do with an order is a protocol: a request stores the
order and then queues its job, a worker takes the job, reads the order, records
the fill, marks the order and completes the job, and may give the job up at any
stage. The programs follow this protocol whatever they read, so orders and jobs
are reasoned about stage by stage.
-/

namespace LpPlatform.OrderProtocol

open AuditInterceptor HashChain HmacGuard InterferenceLogic JsValues Ledger OrderIntake OrderWorker RowStore
open SessionProtocols SessionTrails Sessions StatementProgram Tables TradeChain

/-- How far a session has come. -/
inductive Stage where
  | fresh
  /-- Its order is stored, and the job of the order is not. -/
  | placed (orderId : String)
  /-- It has taken the job. -/
  | holding (job : JobTerms)
  /-- It has read that the order of the job is open. -/
  | loaded (job : JobTerms)
  /-- It has recorded a trade for the order. -/
  | filled (job : JobTerms)
  /-- The order needs nothing more. -/
  | settled (job : JobTerms)
  | over

/-- The job that a session works on. -/
def Stage.job? : Stage → Option JobTerms
  | .holding job => some job
  | .loaded job => some job
  | .filled job => some job
  | .settled job => some job
  | _ => none

/-- A row that is written beside a trade. -/
def Booking : Write → Prop
  | .insertCharge _ => True
  | .insertWallet _ => True
  | .insertEntry _ => True
  | _ => False

/-- An audit row. -/
def Aside : Write → Prop
  | .insertAudit _ => True
  | _ => False

/-- The order may be filled. -/
def Open (o : Order) : Prop := o.status = .pending ∨ o.status = .accepted

/-- What a session may commit at each stage. -/
inductive Moves (v : View Store) : Stage → List Write → Stage → Prop where
  | aside {q ws} (h : ∀ x ∈ ws, Aside x) : Moves v q ws q
  | place {row} (hstatus : row.status = .pending) : Moves v .fresh [.insertOrder row] (.placed row.orderId)
  | enqueue {row} (hstate : row.state = .waiting) : Moves v (.placed row.orderId) [.insertJob row] .over
  | take {j} (hj : j ∈ v.committed.jobs) (hstate : j.state = .waiting) :
      Moves v .fresh [.moveJob j.jobId (.active v.self) j.stalls] (.holding j.toJobTerms)
  | read {job o} (ho : v.committed.orders.find? (fun o => o.orderId = job.orderId) = some o) (hopen : Open o) :
      Moves v (.holding job) [] (.loaded job)
  | skip {job} (h : ∀ o, v.committed.orders.find? (fun o => o.orderId = job.orderId) = some o → ¬ Open o) :
      Moves v (.holding job) [] (.settled job)
  | fill {job trade rest} (hid : trade.orderId = job.orderId) (hrest : ∀ x ∈ rest, Booking x) :
      Moves v (.loaded job) (.insertTrade trade :: rest) (.filled job)
  | mark {job now} : Moves v (.filled job) [.markOrder job.orderId .filled now] (.settled job)
  | complete {job stalls} : Moves v (.settled job) [.moveJob job.jobId .completed stalls] .over
  | giveUp {q job stalls} (hjob : q.job? = some job) : Moves v q [.moveJob job.jobId .failed stalls] .over
  | recover {j u state stalls} (hj : j ∈ v.committed.jobs) (hstate : j.state = .active u)
      (hdead : v.alive u = false) (hnext : state = .waiting ∨ state = .failed) :
      Moves v .fresh [.moveJob j.jobId state stalls] .over

/-- Nothing is left undone: a request that has stored an order has queued it. -/
def Ends (q : Stage) : Prop := ∀ orderId, q ≠ .placed orderId

/-- The way of an order as a protocol of its sessions. -/
def orderProtocol : Protocol Store Write Stage := ⟨.fresh, Moves, Ends⟩

theorem ends_fresh : orderProtocol.ends .fresh := fun _ => by simp

theorem ends_over : orderProtocol.ends .over := fun _ => by simp

section Programs

variable {H : Sha256} {lot : String} {t : ℕ} {α : Type}
variable {R : Unit → Holds Write Stage} {E : Failure → Holds Write Stage}

theorem moves_rest (v : View Store) (q : Stage) : Moves v q [] q := .aside (by simp)

/-- Placing an order stores it, then its job. -/
theorem obeys_place {dto : OrderRequest} {broker : Option AuthenticatedBroker} {ip : Option String} :
    orderProtocol.Obeys t (place dto broker ip) .fresh none := by
  unfold place
  split
  · trivial
  · rw [bind_eq, Protocol.Obeys, follows_bind, ensure]
    split
    · rw [Protocol.Follows, bind_eq, follows_bind, insertOrder, bind_eq, follows_bind]
      refine follows_ofExcept (fun _ _ => trivial) fun row hrow => ?_
      refine follows_exec (fun _ => trivial) fun v i _ _ _ => ⟨_, .place (row_ok hrow _ _ _).2.2.1, ?_⟩
      rw [bind_eq, follows_bind, addJob]
      refine follows_exec (fun _ => trivial) fun v' _ _ _ _ => ⟨.over, ?_, ?_⟩
      · exact @Moves.enqueue v' ⟨⟨v'.seq, (row v.seq (i.id 0) i.now).orderId, _⟩, .waiting, 0⟩ rfl
      · refine follows_emits Aside ?_ (fun _ _ h => .aside h) (fun _ => ends_over) fun _ => trivial
        exact emits_bind (emits_record (fun _ => trivial) _) fun _ => emits_done _
    · trivial

theorem obeys_placeEndpoint {body : Json} {broker : Option AuthenticatedBroker} {ip : Option String} :
    orderProtocol.Obeys t (placeEndpoint body broker ip) .fresh none := by
  unfold placeEndpoint
  split
  · exact obeys_place
  · trivial

/-- A commission adds bookings to a transaction. -/
theorem follows_chargeCommission {order : OrderRow} {tradeId quantity : String} {q : Stage} {us : List Write}
    (hE : ∀ e held, E e q held) (hR : ∀ rest, (∀ x ∈ rest, Booking x) → R () q (some ⟨us ++ rest, false⟩)) :
    orderProtocol.Follows t (chargeCommission lot order tradeId quantity) R E q (some ⟨us, false⟩) := by
  rw [chargeCommission, bind_eq, follows_bind]
  refine follows_ofExcept (fun e _ => hE e _) fun due _ => ?_
  cases due with
  | none =>
    have hnothing := hR [] (by simp)
    rwa [List.append_nil] at hnothing
  | some commission =>
    simp only [bind_eq]
    rw [follows_bind]
    refine follows_ofExcept (fun e _ => hE e _) fun amount _ => ?_
    rw [follows_bind]
    refine follows_exec_held (fun e _ => hE e _) fun v₁ i₁ => ?_
    rw [follows_bind, commissionWallet, bind_eq, follows_bind]
    refine follows_query_held (fun e _ => hE e _) fun v₂ i₂ => ?_
    dsimp only
    split
    · refine follows_exec_held (fun e _ => hE e _) fun v₃ i₃ => follows_exec_held (fun e _ => hE e _) fun v₄ i₄ => ?_
      rw [List.append_assoc, List.append_assoc]
      refine hR _ fun x hx => ?_
      simp only [List.cons_append, List.nil_append, List.mem_cons, List.not_mem_nil, or_false] at hx
      rcases hx with rfl | rfl | rfl <;> trivial
    · refine follows_exec_held (fun e _ => hE e _) fun v₃ i₃ => ?_
      rw [List.append_assoc]
      refine hR _ fun x hx => ?_
      simp only [List.cons_append, List.nil_append, List.mem_cons, List.not_mem_nil, or_false] at hx
      rcases hx with rfl | rfl <;> trivial

/-- Recording a fill commits a trade of the order with its bookings. -/
theorem follows_recordFill {order : OrderRow} {fillPrice : String} {job : JobTerms} (hid : order.orderId = job.orderId)
    (hE : ∀ e, E e (.loaded job) none) (hR : R () (.filled job) none) :
    orderProtocol.Follows t (recordFill H lot order fillPrice) R E (.loaded job) none := by
  rw [recordFill, bind_eq, follows_bind]
  refine follows_query hE fun v i _ _ _ => ⟨_, moves_rest v _, follows_transaction hE ?_⟩
  rw [bind_eq, follows_bind, chainFill, bind_eq, follows_bind]
  refine follows_query_held (fun _ _ => rfl) fun v₁ i₁ => ?_
  simp only [bind_eq]
  rw [follows_bind]
  refine follows_ofExcept (fun _ _ => rfl) fun quantity _ => ?_
  rw [follows_bind]
  refine follows_ofExcept (fun _ _ => rfl) fun price _ => ?_
  rw [follows_bind]
  refine follows_ofExcept (fun _ _ => rfl) fun hash _ => ?_
  rw [follows_bind]
  refine follows_ofExcept (fun _ _ => rfl) fun storedQuantity _ => ?_
  rw [follows_bind]
  refine follows_ofExcept (fun _ _ => rfl) fun storedPrice _ => ?_
  refine follows_exec_held (fun _ _ => rfl) fun v₂ i₂ => ?_
  refine follows_chargeCommission (fun _ _ => rfl) fun rest hrest => ?_
  exact ⟨rfl, _, rfl, fun v _ _ => ⟨_, .fill hid hrest, hR⟩⟩

/-- The processor fills and marks an order that it reads as open, and leaves any
other order alone. -/
theorem follows_process {job : JobTerms} (hE : ∀ e q, q.job? = some job → E e q none)
    (hR : R () (.settled job) none) :
    orderProtocol.Follows t (process H lot job.orderId) R E (.holding job) none := by
  rw [process, bind_eq, follows_bind, loadOrder]
  refine follows_query (fun e => hE e _ rfl) fun v i _ _ hown => ?_
  rw [hown]
  cases hfound : v.committed.orders.find? fun o => o.orderId = job.orderId with
  | none => exact ⟨_, .skip fun o ho => by simp [hfound] at ho, hR⟩
  | some o =>
    have hid : o.orderId = job.orderId := by simpa using List.find?_some hfound
    simp only [Option.map_some]
    split
    · rename_i hclosed
      refine ⟨_, .skip fun o' ho' hopen => ?_, hR⟩
      obtain rfl := Option.some.inj (hfound.symm.trans ho')
      rcases hopen with hpending | haccepted
      · exact hclosed.1 hpending
      · exact hclosed.2 haccepted
    · rename_i hopen
      have hstatus : Open o := by
        simp only [orderRow] at hopen
        rw [Open]
        tauto
      refine ⟨_, .read hfound hstatus, ?_⟩
      simp only [bind_eq]
      rw [follows_bind]
      refine follows_ofExcept (fun e _ => hE e _ rfl) fun price _ => ?_
      rw [follows_bind]
      refine follows_recordFill hid (fun e => hE e _ rfl) ?_
      rw [follows_bind, markFilled]
      refine follows_exec (fun e => hE e _ rfl) fun v₁ i₁ _ _ _ => ⟨.settled job, ?_, ?_⟩
      · have hrow : (orderRow o).orderId = job.orderId := hid
        rw [hrow]
        exact .mark
      · exact follows_query (fun e => hE e _ rfl) fun v₂ _ _ _ _ => ⟨_, moves_rest v₂ _, hR⟩

/-- A worker takes a job and runs it to one of its ends. -/
theorem obeys_runJob : orderProtocol.Obeys t (runJob H lot) .fresh none := by
  rw [runJob, bind_eq, Protocol.Obeys, follows_bind, takeJob]
  refine follows_exec (fun _ => trivial) fun v i _ _ hown => ?_
  cases hjob : nextJob v i.pick with
  | none => exact ⟨_, moves_rest v _, ends_fresh⟩
  | some job =>
    have hmem : job ∈ v.committed.jobs ∧ job.state = .waiting := by
      simp only [nextJob, Option.ite_none_right_eq_some] at hjob
      have hwaiting := List.mem_filter.mp (anyRow_mem hjob.2)
      exact ⟨hown ▸ hwaiting.1, of_decide_eq_true hwaiting.2⟩
    refine ⟨_, .take hmem.1 hmem.2, ?_⟩
    have hfinish : ∀ q, q.job? = some job.toJobTerms →
        orderProtocol.Obeys t (finishJob job .failed) q none := fun q hq =>
      follows_exec (fun _ => trivial) fun _ _ _ _ _ => ⟨_, .giveUp hq, ends_over⟩
    simp only [bind_eq]
    rw [follows_tryCatch, follows_bind]
    refine @follows_process H lot t _ _ job.toJobTerms (fun e q hq => hfinish q hq) ?_
    exact follows_exec (fun _ => hfinish _ rfl) fun v₁ _ _ _ _ =>
      ⟨_, @Moves.complete v₁ job.toJobTerms job.stalls, ends_over⟩

/-- A job whose worker is dead is handed out again, or has failed. -/
theorem obeys_recoverStalled : orderProtocol.Obeys t recoverStalled .fresh none := by
  refine follows_exec (fun _ => trivial) fun v i _ _ hown => ?_
  cases hjob : anyRow (v.own.jobs.filter (isStalled v)) i.pick with
  | none => exact ⟨_, moves_rest v _, ends_fresh⟩
  | some job =>
    obtain ⟨hmem, hstalled⟩ := List.mem_filter.mp (anyRow_mem hjob)
    rw [isStalled] at hstalled
    split at hstalled
    · rename_i u hstate
      refine ⟨.over, .recover (hown ▸ hmem) hstate (by simpa using hstalled) ?_, ends_over⟩
      split
      · exact Or.inr rfl
      · exact Or.inl rfl
    · simp at hstalled

/-- Every call follows the protocol. -/
theorem obeys_orders (call : OrderCall) : orderProtocol.Obeys t (orders H lot call) .fresh none := by
  cases call with
  | place body broker ip =>
    rw [orders, bind_eq, Protocol.Obeys, follows_bind]
    exact follows_mono _ (fun _ _ _ h => h) (fun _ _ _ h => h) obeys_placeEndpoint
  | runJob => exact obeys_runJob
  | recoverStalled => exact obeys_recoverStalled

/-- So does every call behind the guard. -/
theorem obeys_broker {G : HmacConfig} (call : BrokerCall) :
    orderProtocol.Obeys t (brokerCalls G H lot call) .fresh none := by
  have hguard : ∀ (req : BrokerRequest) (R : AuthenticatedBroker → Holds Write Stage), (∀ b, R b .fresh none) →
      orderProtocol.Follows t (canActivate G req) R (fun _ _ _ => True) .fresh none := fun req R hR =>
    follows_emits Aside (emits_canActivate fun _ => trivial) (fun _ _ h => .aside h) hR fun _ => trivial
  cases call with
  | place req =>
    rw [brokerCalls, bind_eq, Protocol.Obeys, follows_bind, placeBehindGuard, bind_eq, follows_bind]
    exact hguard req _ fun b => follows_mono _ (fun _ _ _ h => h) (fun _ _ _ h => h) obeys_placeEndpoint
  | verify req =>
    rw [brokerCalls, bind_eq, Protocol.Obeys, follows_bind, verifyBehindGuard, bind_eq, follows_bind]
    exact hguard req _ fun b => ends_fresh
  | runJob => exact obeys_runJob
  | recoverStalled => exact obeys_recoverStalled

end Programs

end LpPlatform.OrderProtocol
