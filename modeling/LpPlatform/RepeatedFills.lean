import LpPlatform.CommissionLedger
import LpPlatform.OrderProgress

/-!
# When an order is filled twice

A worker fills an order in one transaction and marks it FILLED in a statement
after it. When its process dies in between, the job is handed out again and the
order, which is still PENDING, is filled once more. This is the only way: as long
as no process dies that has filled an order without marking it, an order has at
most one trade and at most one debit of its commission.
-/

namespace LpPlatform.RepeatedFills

open CommissionLedger HashChain JsValues Ledger OrderFills OrderProgress OrderProtocol OrderWorker RowStore
open SessionProtocols Sessions StatementProgram StepRuns Tables

/-- The trades of an order. -/
def orderTrades (d : Store) (orderId : String) : List Trade := d.trades.filter (·.orderId = orderId)

/-- The debits of the commissions on the trades of an order. -/
def commissionDebits (d : Store) (orderId : String) : List LedgerEntry :=
  d.entries.filter fun e => isChargeDebit e ∧ d.trades.any fun t => t.tradeId = e.referenceId ∧ t.orderId = orderId

/-- The order was filled at most once. -/
structure FilledOnce (d : Store) (orderId : String) : Prop where
  trades : (orderTrades d orderId).length ≤ 1
  debits : (commissionDebits d orderId).length ≤ 1

instance (d : Store) (orderId : String) : Decidable (Filled d orderId) :=
  inferInstanceAs (Decidable (∃ o ∈ d.orders, o.orderId = orderId ∧ o.status = .filled))

instance (d : Store) (orderId : String) : Decidable (HasTrade d orderId) :=
  inferInstanceAs (Decidable (∃ trade ∈ d.trades, trade.orderId = orderId))

/-- A process that dies leaves no order that it has filled unmarked. -/
def CleanCrash {γ : Type} (w : OrderWorld) : Event γ Input Failure → Prop
  | .crash t => ∀ j ∈ w.db.jobs, j.state = .active t → HasTrade w.db j.orderId → Filled w.db j.orderId
  | _ => True

instance {γ : Type} (w : OrderWorld) (e : Event γ Input Failure) : Decidable (CleanCrash w e) := by
  cases e <;> simp only [CleanCrash] <;> infer_instance

/-- The order of the job is not filled again: it is marked, or the job will not
be run again, or the session that has filled it is still to mark it. -/
def Told (p : Phase Store Stage) (j : Job) : Prop :=
  Filled p.db j.orderId ∨ j.state = .failed ∨
    ∃ t, j.state = .active t ∧ p.alive t = true ∧ p.stage t = .filled j.toJobTerms

/-- No order has been filled twice, or will be. -/
structure Once (p : Phase Store Stage) : Prop where
  /-- An order has one trade. -/
  once : (p.db.trades.map (·.orderId)).Nodup
  /-- It has a job. -/
  jobs : ∀ trade ∈ p.db.trades, ∃ j ∈ jobTerms.rows p.db, j.orderId = trade.orderId
  /-- That job knows. -/
  told : ∀ j ∈ p.db.jobs, HasTrade p.db j.orderId → Told p j

section Steps

variable {d d' : Store} {alive : ℕ → Bool} {stage : ℕ → Stage} {t : ℕ} {q : Stage} {v : View Store}
variable {ws : List Write} {j : Job}

/-- What another session does leaves a job as told as it was. -/
theorem told_other (h : Told ⟨d, alive, stage⟩ j) (honward : Onward (stage t) d d')
    (hother : stage t ≠ .filled j.toJobTerms) : Told ⟨d', alive, Function.update stage t q⟩ j := by
  rcases h with hfilled | hfailed | ⟨u, hactive, hrun, hstage⟩
  · exact Or.inl (honward.filled _ hfilled)
  · exact Or.inr (Or.inl hfailed)
  · have hne : u ≠ t := fun hsame => hother (hsame ▸ hstage)
    exact Or.inr (Or.inr ⟨u, hactive, hrun, (Function.update_of_ne hne ..).trans hstage⟩)

/-- A job that nobody works on is told by its order. -/
theorem told_idle (h : Told ⟨d, alive, stage⟩ j) (hfailed : j.state ≠ .failed)
    (hidle : ∀ t, j.state = .active t → alive t = false) : Filled d j.orderId := by
  rcases h with hfilled | hstate | ⟨u, hactive, hrun, -⟩
  · exact hfilled
  · exact absurd hstate hfailed
  · have hdead : alive u = true := hrun
    rw [hidle u hactive] at hdead
    simp at hdead

/-- Where no trade is added, orders are still filled once. -/
theorem once_same (h : Once ⟨d, alive, stage⟩) (htrades : d'.trades = d.trades)
    (hjobs : ∀ j ∈ jobTerms.rows d, j ∈ jobTerms.rows d')
    (htold : (∀ orderId, HasTrade d' orderId → HasTrade d orderId) → ∀ j ∈ d'.jobs, HasTrade d' j.orderId →
      Told ⟨d', alive, Function.update stage t q⟩ j) : Once ⟨d', alive, Function.update stage t q⟩ := by
  refine ⟨?_, fun trade htrade => ?_, htold fun orderId htraded => ?_⟩
  · simpa only [htrades] using h.once
  · obtain ⟨j, hj, hid⟩ := h.jobs trade (htrades ▸ htrade)
    exact ⟨j, hjobs j hj, hid⟩
  · rwa [HasTrade, htrades] at htraded

/-- Moving a job keeps the others as told as they were. -/
theorem once_moved (h : Once ⟨d, alive, stage⟩) {jobId : ℕ} {state : JobState} {stalls : ℕ}
    (hmoved : ∀ j ∈ d.jobs, j.jobId = jobId → HasTrade d j.orderId →
      Filled d j.orderId ∨ state = .failed)
    (hkept : ∀ j ∈ d.jobs, j.jobId ≠ jobId → stage t ≠ .filled j.toJobTerms) :
    Once ⟨d.apply (.moveJob jobId state stalls), alive, Function.update stage t q⟩ := by
  refine once_same h rfl (fun j hj => ?_) fun _ j hj htraded => ?_
  · rw [show jobTerms.rows (d.apply (.moveJob jobId state stalls)) = jobTerms.rows d from move_rows d _ _ _]
    exact hj
  · obtain ⟨j', hj', ⟨hid, rfl⟩ | ⟨hid, rfl⟩⟩ := mem_updateAt.mp hj
    · rcases hmoved j' hj' hid htraded with hfilled | hfailed
      · exact Or.inl hfilled
      · exact Or.inr (Or.inl hfailed)
    · exact told_other (h.told _ hj' htraded) ⟨fun _ h => h, fun _ h => h, fun _ _ h => h⟩ (hkept _ hj' hid)

/-- A session that is to fill an order does so first. -/
theorem untraded_loaded (hwork : Working ⟨d, alive, stage⟩) (h : Once ⟨d, alive, stage⟩)
    (hrun : alive t = true) {job : JobTerms} (hstage : stage t = .loaded job) : ¬ HasTrade d job.orderId := by
  intro htraded
  obtain ⟨j, hj, rfl, hactive⟩ := hwork.held t job hrun (congrArg Stage.job? hstage)
  have hpending : Known d (stage t) := hwork.known t hrun
  rw [hstage] at hpending
  rcases h.told j hj htraded with ⟨o, ho, hid, hfilled⟩ | hfailed | ⟨u, hactive', -, hstage'⟩
  · rw [hpending o ho hid] at hfilled
    simp at hfilled
  · rw [hactive] at hfailed
    simp at hfailed
  · obtain rfl := JobState.active.inj (hactive.symm.trans hactive')
    simp [hstage] at hstage'

/-- A fill adds the first trade of its order. -/
theorem once_fill (hqueued : Queued d stage) (hwork : Working ⟨d, alive, stage⟩) (h : Once ⟨d, alive, stage⟩)
    (hrun : alive t = true) {job : JobTerms} (hstage : stage t = .loaded job) {trade : Trade} {rest : List Write}
    (hid : trade.orderId = job.orderId) (hrest : ∀ x ∈ rest, Booking x) :
    Once ⟨platform.applyAll d (.insertTrade trade :: rest), alive, Function.update stage t (.filled job)⟩ := by
  obtain ⟨horders, htrades, hjobs⟩ := @fill_same trade rest hrest d
  have hfirst := untraded_loaded hwork h hrun hstage
  obtain ⟨held, hheld, hterms, hactive⟩ := hwork.held t job hrun (congrArg Stage.job? hstage)
  have hrows : jobTerms.rows (platform.applyAll d (.insertTrade trade :: rest)) = jobTerms.rows d :=
    congrArg (List.map _) hjobs
  refine ⟨?_, fun x hx => ?_, fun j hj htraded => ?_⟩
  · simp only [htrades, List.map_append, List.nodup_append]
    refine ⟨h.once, by simp, fun a ha b hb hsame => hfirst ?_⟩
    obtain ⟨x, hx, rfl⟩ := List.mem_map.mp ha
    obtain rfl : b = trade.orderId := by simpa using hb
    exact ⟨x, hx, hsame.trans hid⟩
  · simp only [htrades, List.mem_append, List.mem_singleton] at hx
    simp only [hrows]
    rcases hx with hx | rfl
    · exact h.jobs x hx
    · exact ⟨held.toJobTerms, List.mem_map_of_mem hheld, hterms ▸ hid.symm⟩
  · simp only [hjobs] at hj
    by_cases hown : j.orderId = job.orderId
    · obtain rfl := job_of_order hqueued hj hheld (hown.trans (hterms ▸ rfl))
      exact Or.inr (Or.inr ⟨t, hactive, hrun, (Function.update_self ..).trans (congrArg Stage.filled hterms.symm)⟩)
    · obtain ⟨x, hx, hof⟩ := htraded
      simp only [htrades, List.mem_append, List.mem_singleton] at hx
      rcases hx with hx | rfl
      · refine told_other (h.told j hj ⟨x, hx, hof⟩) ?_ (by simp [hstage])
        refine ⟨fun orderId hfilled => by rwa [Filled, horders], fun orderId hearlier => ?_,
          fun orderId _ hpending => by rwa [StillPending, horders]⟩
        obtain ⟨y, hy, hyo⟩ := hearlier
        exact ⟨y, htrades ▸ List.mem_append_left _ hy, hyo⟩
      · exact absurd (hof.symm.trans hid) hown

/-- The session that has filled an order tells its job when it marks it. -/
theorem once_mark (hqueued : Queued d stage) (h : Once ⟨d, alive, stage⟩) {job : JobTerms} (hstage : stage t = .filled job) (now : Instant) :
    Once ⟨d.apply (.markOrder job.orderId .filled now), alive, Function.update stage t (.settled job)⟩ := by
  refine once_same h rfl (fun j hj => hj) fun _ j hj htraded => ?_
  by_cases hown : j.toJobTerms = job
  · obtain ⟨o, ho, hid⟩ := order_of_job hqueued hj
    have hmarked : o.orderId = job.orderId := hid.trans (congrArg JobTerms.orderId hown)
    exact Or.inl ⟨o.mark .filled now, mem_updateAt.mpr ⟨o, ho, Or.inl ⟨hmarked, rfl⟩⟩, hid, rfl⟩
  · refine told_other (h.told j hj htraded) (hstage ▸ onward_mark job now) fun hsame => ?_
    exact hown (Stage.filled.inj (hsame.symm.trans hstage))

/-- A job that is queued is of an order without a trade. -/
theorem once_enqueue (hqueued : Queued d stage) (h : Once ⟨d, alive, stage⟩) {row : Job}
    (hstage : stage t = .placed row.orderId) :
    Once ⟨d.apply (.insertJob row), alive, Function.update stage t .over⟩ := by
  refine once_same h rfl (fun j hj => jobTerms.mono [.insertJob row] hj) fun _ j hj htraded => ?_
  rcases List.mem_append.mp hj with hold | hnew
  · exact told_other (h.told j hold htraded) ⟨fun _ h => h, fun _ h => h, fun _ _ h => h⟩ (by simp [hstage])
  · obtain rfl := List.mem_singleton.mp hnew
    obtain ⟨trade, htrade, hof⟩ := htraded
    obtain ⟨j', hj', hid⟩ := h.jobs trade htrade
    exact absurd (hid.trans hof) ((hqueued.placed t _ hstage).2.1 j' hj')

/-- Every move leaves orders filled once. -/
theorem once_move (hqueued : Queued d stage) (hwork : Working ⟨d, alive, stage⟩) (h : Once ⟨d, alive, stage⟩)
    (hrun : alive t = true) (hdb : v.committed = d) (halive : v.alive = alive) (hmove : Moves v (stage t) ws q) :
    Once ⟨platform.applyAll d ws, alive, Function.update stage t q⟩ := by
  have honward := onward_moves hmove
  have hown : ∀ job, (stage t).job? = some job → ∃ j ∈ d.jobs, j.toJobTerms = job ∧ j.state = .active t :=
    fun job => hwork.held t job hrun
  have hknown : Known d (stage t) := hwork.known t hrun
  rw [hdb] at honward
  generalize hstage : stage t = q₀ at hmove hown
  have hquiet : ∀ {d' : Store}, d'.trades = d.trades → d'.jobs = d.jobs → Onward (stage t) d d' →
      (∀ job, stage t ≠ .filled job) → Once ⟨d', alive, Function.update stage t q⟩ := by
    intro d' htrades hjobs honward hother
    refine once_same h htrades (fun j hj => ?_) fun hback j hj htraded => ?_
    · rwa [show jobTerms.rows d' = jobTerms.rows d from congrArg (List.map _) hjobs]
    · exact told_other (h.told j (hjobs ▸ hj) (hback _ htraded)) honward (hother _)
  cases hmove with
  | aside haside =>
    have hsame := beside_same (fun x hx => Or.inl (haside x hx)) d
    rw [← hstage, Function.update_eq_self]
    refine ⟨hsame.trades ▸ h.once, fun trade htrade => ?_, fun j hj htraded => ?_⟩
    · obtain ⟨j, hj, hid⟩ := h.jobs trade (hsame.trades ▸ htrade)
      exact ⟨j, jobTerms.mono ws hj, hid⟩
    · have htraded' : HasTrade d j.orderId := by rwa [HasTrade, hsame.trades] at htraded
      exact (h.told j (hsame.jobs ▸ hj) htraded').imp (honward.filled _) id
  | place => exact hquiet rfl rfl honward (by simp [hstage])
  | read | skip => exact hquiet rfl rfl honward (by simp [hstage])
  | enqueue => exact once_enqueue hqueued h hstage
  | fill hid hrest => exact once_fill hqueued hwork h hrun hstage hid hrest
  | mark => exact once_mark hqueued h hstage _
  | @take j hj hwaiting =>
    refine once_moved h (fun j' hj' hid htraded => Or.inl ?_) fun _ _ _ => by simp [hstage]
    obtain rfl := job_unique hqueued hj' (hdb ▸ hj) hid
    exact told_idle (h.told j' hj' htraded) (by simp [hwaiting]) fun u hu => by simp [hwaiting] at hu
  | @complete job stalls =>
    obtain ⟨j, hj, rfl, -⟩ := hown job rfl
    refine once_moved h (fun j' hj' hid htraded => Or.inl ?_) fun _ _ _ => by simp [hstage]
    obtain rfl := job_unique hqueued hj' hj hid
    rwa [hstage] at hknown
  | @giveUp _ job stalls hjob =>
    obtain ⟨j, hj, rfl, -⟩ := hown job hjob
    refine once_moved h (fun _ _ _ _ => Or.inr rfl) fun j' hj' hid hsame => hid ?_
    have hterms : some j'.toJobTerms = some j.toJobTerms :=
      (congrArg Stage.job? (hsame.symm.trans hstage)).trans hjob
    exact congrArg JobTerms.jobId (Option.some.inj hterms)
  | @recover j u state stalls hj hactive hdead hnext =>
    refine once_moved h (fun j' hj' hid htraded => Or.inl ?_) fun _ _ _ => by simp [hstage]
    obtain rfl := job_unique hqueued hj' (hdb ▸ hj) hid
    refine told_idle (h.told j' hj' htraded) (by simp [hactive]) fun x hx => ?_
    obtain rfl := JobState.active.inj (hactive.symm.trans hx)
    rwa [halive] at hdead

/-- A clean step leaves orders filled once. -/
theorem once_step {γ : Type} {p p' : Phase Store Stage} {w : OrderWorld} {e : Event γ Input Failure}
    {out : List (ℕ × Write)} (hdb : p.db = w.db) (hclean : CleanCrash w e) (hqueued : Queued p.db p.stage)
    (hwork : Working p) (h : Once p) (hstep : orderProtocol.Step platform p e out p') : Once p' := by
  obtain ⟨d, alive, stage⟩ := p
  obtain rfl : d = w.db := hdb
  cases hstep with
  | wait => exact h
  | move _ hrun hdb halive _ hmove => exact once_move hqueued hwork h hrun hdb halive hmove
  | @start t _ hnew hstart =>
    refine ⟨h.once, h.jobs, fun j hj htraded => ?_⟩
    rcases h.told j hj htraded with hfilled | hfailed | ⟨u, hactive, hrun, hstage⟩
    · exact Or.inl hfilled
    · exact Or.inr (Or.inl hfailed)
    · refine Or.inr (Or.inr ⟨u, hactive, ?_, hstage⟩)
      by_cases hsame : u = t
      · exact hsame ▸ Function.update_self ..
      · exact (Function.update_of_ne hsame ..).trans hrun
  | @crash t =>
    refine ⟨h.once, h.jobs, fun j hj htraded => ?_⟩
    rcases h.told j hj htraded with hfilled | hfailed | ⟨u, hactive, hrun, hstage⟩
    · exact Or.inl hfilled
    · exact Or.inr (Or.inl hfailed)
    · by_cases hsame : u = t
      · exact Or.inl (hclean j hj (hsame ▸ hactive) htraded)
      · exact Or.inr (Or.inr ⟨u, hactive, (Function.update_of_ne hsame ..).trans hrun, hstage⟩)

end Steps

section Runs

variable {H : Sha256} {lot : String} {d : Store} {n : ℕ} {w : OrderWorld}

theorem once_ready (hd : Ready d) (alive : ℕ → Bool) : Once ⟨d, alive, fun _ => .fresh⟩ := by
  refine ⟨?_, fun trade htrade => ?_, fun j _ htraded => ?_⟩
  · simp [hd.trades]
  · simp [hd.trades] at htrade
  · obtain ⟨trade, htrade, -⟩ := htraded
    simp [hd.trades] at htrade

/-- In a run without unclean crashes of programs that follow the protocol, an
order has one trade. -/
theorem traded_once {γ : Type} {program : γ → Program Unit} {es : List (Event γ Input Failure)}
    (hprogram : ∀ t call, orderProtocol.Obeys t (program call) .fresh none) (hd : Ready d)
    (hclean : Along (World.step platform program) CleanCrash (World.initial d n) es)
    (h : Visits (World.step platform program) (World.initial d n) es w) :
    (w.db.trades.map (·.orderId)).Nodup := by
  obtain ⟨g, -, -, honce⟩ := protocol_visits (I := fun p => (Queued p.db p.stage ∧ Working p) ∧ Once p) hprogram
    (fun w g e p hclean hp hstep =>
      ⟨working_step hp.1.1 hp.1.2 hstep, once_step rfl hclean hp.1.1 hp.1.2 hp.2 hstep⟩)
    ⟨working_ready hd _, once_ready hd _⟩ hclean h
  exact honce.once

/-- Rows whose keys are all different are picked by a key at most once. -/
theorem length_filter_key {ρ θ : Type} [DecidableEq θ] {key : ρ → θ} {rows : List ρ} (h : (rows.map key).Nodup)
    (k : θ) : (rows.filter (key · = k)).length ≤ 1 := by
  induction rows with
  | nil => simp
  | cons r rows ih =>
    obtain ⟨hnew, hrest⟩ := List.nodup_cons.mp h
    by_cases hr : key r = k
    · have hnone : rows.filter (key · = k) = [] := List.filter_eq_nil_iff.mpr fun x hx hk =>
        hnew (List.mem_map.mpr ⟨x, hx, (of_decide_eq_true hk).trans hr.symm⟩)
      simp [hr, hnone]
    · simpa [hr] using ih hrest

/-- An order with one trade has at most one debit of its commission. -/
theorem filledOnce_books (hbooks : Books lot d) (honce : (d.trades.map (·.orderId)).Nodup) (orderId : String) :
    FilledOnce d orderId := by
  refine ⟨length_filter_key honce orderId, ?_⟩
  by_cases htraded : HasTrade d orderId
  · obtain ⟨trade, htrade, hof⟩ := htraded
    have hsub : (commissionDebits d orderId).length ≤ (debitsOf d trade.tradeId).length := by
      refine (List.monotone_filter_right d.entries fun e he => ?_).length_le
      obtain ⟨hdebit, hany⟩ := of_decide_eq_true he
      obtain ⟨x, hx, hsame⟩ := List.any_eq_true.mp hany
      obtain ⟨hid, hxo⟩ := of_decide_eq_true hsame
      obtain rfl := List.inj_on_of_nodup_map honce hx htrade (hxo.trans hof.symm)
      exact decide_eq_true ⟨hdebit, hid.symm⟩
    obtain ⟨o, -, -, ⟨-, c, e, wallet, -, hone, -⟩ | ⟨-, -, hnone⟩⟩ := hbooks.booked trade htrade
    · rw [hone] at hsub
      exact hsub
    · rw [hnone] at hsub
      exact hsub.trans (Nat.zero_le 1)
  · have hnone : commissionDebits d orderId = [] := List.filter_eq_nil_iff.mpr fun e _ he => by
      obtain ⟨x, hx, hsame⟩ := List.any_eq_true.mp (of_decide_eq_true he).2
      exact htraded ⟨x, hx, (of_decide_eq_true hsame).2⟩
    simp [hnone]

/-- In every state of every run whose processes die cleanly, each order has at
most one trade and one debit of its commission. -/
theorem orders_filled_once (hd : Ready d) (huncharged : Uncharged d) {es : List (Event OrderCall Input Failure)}
    (hclean : Along (World.step platform (orders H lot)) CleanCrash (World.initial d n) es)
    (h : Visits (World.step platform (orders H lot)) (World.initial d n) es w) (orderId : String) :
    FilledOnce w.db orderId := by
  have hbooks : Books lot w.db :=
    traded_visits (fun _ _ hvalid hws hd => books_traded hd hvalid hws) (books_uncharged huncharged) h
  exact filledOnce_books hbooks (traded_once (fun _ call => obeys_orders call) hd hclean h) orderId

end Runs

/-- The text that is hashed when the order is filled again. -/
def refillText : String :=
  "5298429c3e3e21169a7aa84f42201d6fab7ee75f2a1ca5318f7591df409ea5ec|" ++
    "\x7b\"brokerId\":\"B1\",\"executedAt\":\"1970-01-01T00:00:00.000Z\"," ++
    "\"orderId\":\"01HX0000000000000000000001\"," ++
    "\"prevHash\":\"5298429c3e3e21169a7aa84f42201d6fab7ee75f2a1ca5318f7591df409ea5ec\"," ++
    "\"price\":\"1.2345\",\"quantity\":\"1\",\"side\":\"BUY\"," ++
    "\"symbol\":\"EURUSD\",\"tradeId\":\"01HX0000000000000000000003\"\x7d"

/-- Its digest, and the one of the first fill. -/
def refillDigests : Sha256 := .known [
  (fillText "1.2345", "5298429c3e3e21169a7aa84f42201d6fab7ee75f2a1ca5318f7591df409ea5ec"),
  (refillText, "5bfcf9317e76e91d7d657a69fdcacb0e067bf25f52f3d76c79db46dc3d13d8c8")] (by decide)

/-- Session t runs the next job up to the commit of its trade, which is charged
to the wallet that is there. -/
def refilling (t : ℕ) (tradeId : String) : List (Event OrderCall Input Failure) :=
  [.start t .runJob, .step t quiet, .step t quiet, .step t (drawing tradeId), .step t quiet,
    .step t quiet, .step t quiet, .step t quiet, .step t quiet, .step t (drawing ("E-" ++ tradeId)), .step t quiet]

/-- A worker dies between its fill and the mark, and its job is run again. -/
def filledAgain : List (Event OrderCall Input Failure) :=
  placing 1 (limitOrder "C1" "1" "1.2345") "01HX0000000000000000000001" ++
    filling 2 "01HX0000000000000000000002" ++ [.crash 2, .start 3 .recoverStalled, .step 3 quiet] ++
    refilling 4 "01HX0000000000000000000003"

/-- The order has two trades and two debits then. -/
theorem filled_twice : ∃ w,
    run (World.step platform (orders refillDigests "4")) (World.initial Store.empty 0) filledAgain = some w ∧
    ¬ FilledOnce w.db "01HX0000000000000000000001" := by
  obtain ⟨w, hrun, hcheck⟩ := run_reaches (World.step platform (orders refillDigests "4"))
    (World.initial Store.empty 0) filledAgain
    (fun w => (orderTrades w.db "01HX0000000000000000000001").length = 2 ∧
      (commissionDebits w.db "01HX0000000000000000000001").length = 2) (by decide +kernel)
  obtain ⟨htwo, -⟩ := of_decide_eq_true hcheck
  refine ⟨w, hrun, fun hkept => ?_⟩
  have hone := hkept.trades
  rw [htwo] at hone
  simp at hone

/-- A worker that dies before its fill does no harm. -/
def crashedEarly : List (Event OrderCall Input Failure) :=
  placing 1 (limitOrder "C1" "1" "1.2345") "01HX0000000000000000000001" ++
    [.start 5 .runJob, .step 5 quiet, .step 5 quiet, .crash 5, .start 3 .recoverStalled, .step 3 quiet] ++
    filling 2 "01HX0000000000000000000002" ++ completing 2

theorem orders_filled_once_crashed : ∃ w,
    run (World.step platform (orders refillDigests "4")) (World.initial Store.empty 0) crashedEarly = some w ∧
    (orderTrades w.db "01HX0000000000000000000001").length = 1 ∧
    FilledOnce w.db "01HX0000000000000000000001" := by
  obtain ⟨w, hrun, hcheck⟩ := run_reaches (World.step platform (orders refillDigests "4"))
    (World.initial Store.empty 0) crashedEarly
    (fun w => (orderTrades w.db "01HX0000000000000000000001").length = 1) (by decide +kernel)
  have hclean : Along (World.step platform (orders refillDigests "4")) CleanCrash (World.initial Store.empty 0)
      crashedEarly := by decide +kernel
  exact ⟨w, hrun, of_decide_eq_true hcheck,
    orders_filled_once ready_empty uncharged_empty hclean (visits_last hrun) _⟩

end LpPlatform.RepeatedFills
