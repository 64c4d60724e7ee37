import LpPlatform.OrderIntake
import LpPlatform.StatementWrites

/-!
# The orders worker

A worker takes a waiting job, loads its order, records the fill in a
serializable transaction and marks the order FILLED in a statement of its own.
A job that throws is failed for good, since it is added without a number of
attempts. When the process of an active job has died the queue hands the job
out once more, and fails it the second time.
-/

namespace LpPlatform.OrderWorker

open Amounts HashChain InterferenceLogic JsValues Ledger OrderIntake RowStore Sessions
open StatementProgram StatementWrites Tables TradeChain

/-- An order as the worker selects it. -/
def orderRow (o : Order) : OrderRow :=
  ⟨o.orderId, some o.clientOrderId, o.brokerId, o.symbol, o.side, o.type, o.quantity.text,
    o.price.map (·.text), o.status⟩

/-- `OrderProcessor.loadOrder`. -/
def loadOrder (orderId : String) : Program (Option OrderRow) :=
  query fun v _ => (v.own.orders.find? fun o => o.orderId = orderId).map orderRow

/-- The price of a fill without a price of its own. -/
def REFERENCE_PRICE_FALLBACK : String := "100"

/-- The price an order is filled at. -/
def fillPriceOf (order : OrderRow) : String :=
  let referencePrice := order.price.getD REFERENCE_PRICE_FALLBACK
  if order.type = .market then referencePrice else order.price.getD referencePrice

/-- `OrderProcessor.markFilled`. -/
def markFilled (orderId : String) : Program Unit :=
  exec (fun _ i => [.markOrder orderId .filled i.now]) fun _ _ => ()

/-- `OrderProcessor.publishTradeEvent`: nothing is stored. -/
def publishTradeEvent : Program Unit := query fun _ _ => ()

/-- `OrderProcessor.process`. -/
def process (H : Sha256) (commissionPerLot orderId : String) : Program Unit := do
  let order ← loadOrder orderId
  match order with
  | none => return ()
  | some order =>
    if order.status ≠ .pending ∧ order.status ≠ .accepted then return ()
    else
      let fillPrice := fillPriceOf order
      let _ ← ofExcept (Money.new fillPrice)
      recordFill H commissionPerLot order fillPrice
      markFilled order.orderId
      publishTradeEvent

/-- Jobs whose worker is running. -/
def inFlight (v : View Store) : List Job :=
  v.own.jobs.filter fun j => match j.state with
    | .active worker => v.alive worker
    | _ => false

/-- How many jobs run at once. -/
def concurrency : ℕ := 8

/-- The job handed out next. -/
def nextJob (v : View Store) (pick : ℕ) : Option Job :=
  if (inFlight v).length < concurrency then
    anyRow (v.own.jobs.filter fun j => j.state = .waiting) pick
  else none

/-- Hand a waiting job to this session. -/
def takeJob : Program (Option Job) :=
  exec (fun v i => (nextJob v i.pick).toList.map fun j => .moveJob j.jobId (.active v.self) j.stalls)
    fun v i => nextJob v i.pick

/-- Move a job this session holds to where it ends. -/
def finishJob (job : Job) (state : JobState) : Program Unit :=
  exec (fun _ _ => [.moveJob job.jobId state job.stalls]) fun _ _ => ()

/-- The worker runs one job: completed when its processor returns, failed when
it throws. -/
def runJob (H : Sha256) (commissionPerLot : String) : Program Unit := do
  let job ← takeJob
  match job with
  | none => return ()
  | some job =>
    Prog.tryCatch
      (do
        process H commissionPerLot job.orderId
        finishJob job .completed)
      fun _ => finishJob job .failed

/-- How often a job may lose its worker. -/
def maxStalledCount : ℕ := 1

/-- A job whose worker has died. -/
def isStalled (v : View Store) (j : Job) : Bool :=
  match j.state with
  | .active worker => !v.alive worker
  | _ => false

/-- A stalled job waits once more, or has failed. -/
def recoverStalled : Program Unit :=
  exec (fun v i => (anyRow (v.own.jobs.filter (isStalled v)) i.pick).toList.map fun j =>
    .moveJob j.jobId (if maxStalledCount < j.stalls + 1 then .failed else .waiting) (j.stalls + 1))
    fun _ _ => ()

/-- The calls that orders pass through. -/
inductive OrderCall where
  | place (body : Json) (broker : Option AuthenticatedBroker) (ip : Option String)
  | runJob
  | recoverStalled

/-- A call, without its reply. -/
def orders (H : Sha256) (commissionPerLot : String) : OrderCall → Program Unit
  | .place body broker ip => do
    let _ ← placeEndpoint body broker ip
    return ()
  | .runJob => runJob H commissionPerLot
  | .recoverStalled => recoverStalled

section Writing

variable {P : Store → Prop} {ok : Write → Prop} {H : Sha256} {lot : String}

/-- Recording a fill writes a wallet for its commission, and rows that are
neither wallets nor orders. -/
theorem writes_recordFill (hplain : ∀ x, x.wallet? = none → x.order? = none → ok x)
    (hwallet : ∀ brokerId, Writes P ok (commissionWallet brokerId)) (order : OrderRow)
    (fillPrice : String) : Writes P ok (recordFill H lot order fillPrice) := by
  have hchain : ∀ f, Writes P ok (chainFill H f) := fun f =>
    writes_bind (writes_query _) fun last => writes_bind (writes_ofExcept _) fun quantity =>
    writes_bind (writes_ofExcept _) fun price => writes_bind (writes_ofExcept _) fun hash =>
    writes_bind (writes_ofExcept _) fun storedQuantity =>
    writes_bind (writes_ofExcept _) fun storedPrice => writes_row fun _ _ => hplain _ rfl rfl
  refine writes_bind (writes_query _) fun drawn => writes_transaction (writes_bind (hchain _)
    fun r => writes_bind (writes_ofExcept _) fun due => ?_)
  split
  · trivial
  · exact writes_bind (writes_ofExcept _) fun amount =>
      writes_bind (writes_row fun _ _ => hplain _ rfl rfl) fun _ =>
      writes_bind (hwallet _) fun wallet => writes_row fun _ _ => hplain _ rfl rfl

/-- Moving a job writes the job. -/
theorem writes_move (hplain : ∀ x, x.wallet? = none → x.order? = none → ok x) {α : Type}
    (job : View Store → Input → Option Job) (state : Job → View Store → JobState) (stalls : Job → ℕ)
    (f : View Store → Input → α) : Writes P ok (exec (fun v i => (job v i).toList.map fun j =>
      .moveJob j.jobId (state j v) (stalls j)) f : Program α) := by
  refine writes_exec fun v i _ x hx => ?_
  obtain ⟨j, -, rfl⟩ := List.mem_map.mp hx
  exact hplain _ rfl rfl

/-- So does the rest of a job's run. -/
theorem writes_runJob (hplain : ∀ x, x.wallet? = none → x.order? = none → ok x)
    (hwallet : ∀ brokerId, Writes P ok (commissionWallet brokerId)) : Writes P ok (runJob H lot) := by
  have hfinish : ∀ job state, Writes P ok (finishJob job state) :=
    fun job state => writes_row fun _ _ => hplain _ rfl rfl
  refine writes_bind (writes_move hplain _ (fun _ v => .active v.self) _ _) fun job => ?_
  split
  · trivial
  · refine writes_tryCatch (writes_bind (writes_bind (writes_query _) fun order => ?_) fun _ =>
      hfinish _ _) fun _ => hfinish _ _
    split
    · trivial
    · split
      · trivial
      · exact writes_bind (writes_ofExcept _) fun price =>
          writes_bind (writes_recordFill hplain hwallet _ _) fun _ =>
          writes_bind (writes_row fun _ _ => hplain _ rfl rfl) fun _ => writes_query _

theorem writes_recoverStalled (hplain : ∀ x, x.wallet? = none → x.order? = none → ok x) :
    Writes P ok recoverStalled :=
  writes_move hplain _ (fun j _ => if maxStalledCount < j.stalls + 1 then .failed else .waiting) _ _

end Writing

/-- What is known when the fill of an order that was loaded commits. -/
structure Filling (C : Contract platform) (H : Sha256) (lot : String) (t : ℕ) (o : Order)
    (d : Store) (n : ℕ) (d₀ : Store) (n₀ : ℕ) (trade : Trade) (rest : List Write) (d' : Store)
    (n' : ℕ) : Prop where
  /-- The transaction's snapshot and the rows it commits over. -/
  atCommit : AtCommit C t d n d₀ n₀ (.insertTrade trade :: rest) d' n'
  /-- The trade that fills the order at its price. -/
  chained : ∃ tradeId executedAt, ChainCommit H
    ((orderRow o).fill tradeId executedAt (fillPriceOf (orderRow o))) d₀ n₀ n' trade
  /-- Its commission, for the canonical quantity. -/
  commission : ∃ quantity, Money.new o.quantity.text = .ok quantity ∧
    Commission lot (orderRow o) quantity.toString trade d₀.wallets rest

section Rules

variable {C : Contract platform} {t : ℕ} {d : Store} {n : ℕ} {H : Sha256} {lot : String}
variable {E : Failure → Assertion Store Write} {Q : Unit → Assertion Store Write}

/-- Running the processor on a job: nothing happens to an order that is gone
or closed, and an open one is filled and then marked. -/
theorem wp_process {orderId : String} (hE : ∀ e d n, E e none d n)
    (hskip : ∀ d' n', C.Env t [] d n d' n' → C.inv d' n' →
      (∀ o, d'.orders.find? (fun o => o.orderId = orderId) = some o →
        o.status ≠ .pending ∧ o.status ≠ .accepted) → Q () none d' n')
    (hfill : ∀ o d₁ n₁ trade rest d₀ n₀ d₂ n₂, C.Env t [] d n d₁ n₁ → C.inv d₁ n₁ →
      o ∈ d₁.orders → o.orderId = orderId → o.status = .pending ∨ o.status = .accepted →
      Filling C H lot t o d₁ n₁ d₀ n₀ trade rest d₂ n₂ →
      (∀ v, Sees platform t (some ((Txn.opened true d₀).add (.insertTrade trade :: rest))) d₂ n₂ v →
        C.guar v (.insertTrade trade :: rest)) ∧
      ∀ d₃ n₃ now, C.Env t [] (platform.applyAll d₂ (.insertTrade trade :: rest))
          (n₂ + (rest.length + 1)) d₃ n₃ → C.inv d₃ n₃ →
        (∀ v, Sees platform t none d₃ n₃ v → C.guar v [.markOrder orderId .filled now]) ∧
        ∀ d₄ n₄, C.Env t [] (d₃.apply (.markOrder orderId .filled now)) (n₃ + 1) d₄ n₄ →
          C.inv d₄ n₄ → Q () none d₄ n₄) :
    wp C t (process H lot orderId) Q E none d n := by
  rw [process, bind_eq, wp_bind, loadOrder]
  refine wp_query_auto hE fun v i d₁ n₁ henv₁ hinv₁ hv₁ => ?_
  rw [hv₁.own_none]
  cases hfound : d₁.orders.find? fun o => o.orderId = orderId with
  | none => exact hskip d₁ n₁ henv₁ hinv₁ fun o ho => by simp [hfound] at ho
  | some o =>
    simp only [Option.map_some]
    split
    · rename_i hclosed
      refine hskip d₁ n₁ henv₁ hinv₁ fun o' ho' => ?_
      obtain rfl := Option.some.inj (hfound.symm.trans ho')
      exact hclosed
    · rename_i hopen
      have hstatus : o.status = .pending ∨ o.status = .accepted := by
        simp only [orderRow] at hopen
        tauto
      have hmem := List.mem_of_find?_eq_some hfound
      have hid : o.orderId = orderId := by simpa using List.find?_some hfound
      simp only [bind_eq]
      rw [wp_bind]
      refine wp_ofExcept (fun e _ => hE e d₁ n₁) fun _ _ => ?_
      rw [wp_bind]
      refine wp_recordFill hE
        fun d₀ n₀ d₂ n₂ tradeId executedAt trade quantity rest hat hchain hquantity hcommission => ?_
      obtain ⟨hguar, hmark⟩ := hfill o d₁ n₁ trade rest d₀ n₀ d₂ n₂ henv₁ hinv₁ hmem hid hstatus
        ⟨hat, ⟨tradeId, executedAt, hchain⟩, quantity, hquantity, hcommission⟩
      refine ⟨hguar, ?_⟩
      have hrow : (orderRow o).orderId = orderId := hid
      rw [hrow, wp_bind, markFilled]
      refine wp_exec_auto hE (fun v₃ i₃ d₃ n₃ henv₃ hinv₃ hv₃ _ _ => ?_)
        fun v₃ i₃ d₃ n₃ henv₃ hinv₃ hv₃ _ => ?_
      · exact (hmark d₃ n₃ i₃.now henv₃ hinv₃).1 v₃ hv₃
      · refine wp_query_auto hE fun _ _ d₄ n₄ henv₄ hinv₄ _ => ?_
        exact (hmark d₃ n₃ i₃.now henv₃ hinv₃).2 d₄ n₄ henv₄ hinv₄

end Rules

end LpPlatform.OrderWorker
