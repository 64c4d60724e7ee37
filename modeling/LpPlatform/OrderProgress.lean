import LpPlatform.OrderProtocol

/-!
# Where orders end

Every order is queued once and its job is held by one worker at a time. So what
a worker has read of its order stays true until it changes the order itself, and
a job is completed only when its order is FILLED and has a trade. An order
without these was never queued, or its job is still to be run, or it has failed.
-/

namespace LpPlatform.OrderProgress

open HashChain HmacGuard InterferenceLogic JsValues Ledger OrderFills OrderIntake OrderProtocol OrderWorker RowStore
open SessionProtocols Sessions StatementProgram StepRuns Tables TradeChain

/-- The order is FILLED. -/
def Filled (d : Store) (orderId : String) : Prop := ∃ o ∈ d.orders, o.orderId = orderId ∧ o.status = .filled

/-- A trade is recorded for the order. -/
def HasTrade (d : Store) (orderId : String) : Prop := ∃ trade ∈ d.trades, trade.orderId = orderId

/-- An order is queued once, by the session that stored it. -/
structure Queued (d : Store) (stage : ℕ → Stage) : Prop where
  /-- An order id names one order. -/
  orderIds : ((orderTerms.rows d).map (·.orderId)).Nodup
  /-- A job id names one job. -/
  jobIds : ((jobTerms.rows d).map (·.jobId)).Nodup
  /-- An order has one job. -/
  jobOrders : ((jobTerms.rows d).map (·.orderId)).Nodup
  /-- A job is of an order. -/
  ordered : ∀ j ∈ jobTerms.rows d, ∃ o ∈ orderTerms.rows d, o.orderId = j.orderId
  /-- The job of a placed order is still to be queued, by one session. -/
  placed : ∀ t orderId, stage t = .placed orderId → (∃ o ∈ orderTerms.rows d, o.orderId = orderId) ∧
    (∀ j ∈ jobTerms.rows d, j.orderId ≠ orderId) ∧ ∀ u, stage u = .placed orderId → u = t

/-- All orders of this id are still PENDING. -/
def StillPending (d : Store) (orderId : String) : Prop := ∀ o ∈ d.orders, o.orderId = orderId → o.status = .pending

/-- What a session knows of its order in each stage. -/
def Known (d : Store) : Stage → Prop
  | .loaded job => StillPending d job.orderId
  | .filled job => HasTrade d job.orderId
  | .settled job => Filled d job.orderId
  | _ => True

/-- What is known of the orders and of the sessions that work on them. -/
structure Working (p : Phase Store Stage) : Prop where
  /-- A running session has the job it works on. -/
  held : ∀ t job, p.alive t = true → (p.stage t).job? = some job →
    ∃ j ∈ p.db.jobs, j.toJobTerms = job ∧ j.state = .active t
  /-- What it has read or written of its order is still so. -/
  known : ∀ t, p.alive t = true → Known p.db (p.stage t)
  /-- An order is PENDING, or FILLED with a trade. -/
  statuses : ∀ o ∈ p.db.orders, o.status = .pending ∨ (o.status = .filled ∧ HasTrade p.db o.orderId)
  /-- The order of a completed job is FILLED. -/
  completed : ∀ j ∈ p.db.jobs, j.state = .completed → Filled p.db j.orderId

/-- Orders, trades and jobs are as they were. -/
structure Same (d d' : Store) : Prop where
  orders : d'.orders = d.orders
  trades : d'.trades = d.trades
  jobs : d'.jobs = d.jobs

/-- What no move of a session in this stage undoes. -/
structure Onward (q : Stage) (d d' : Store) : Prop where
  filled : ∀ orderId, Filled d orderId → Filled d' orderId
  traded : ∀ orderId, HasTrade d orderId → HasTrade d' orderId
  /-- Only the session that has filled an order marks it. -/
  pending : ∀ orderId, (∀ job, q = .filled job → job.orderId ≠ orderId) →
    StillPending d orderId → StillPending d' orderId

section Stages

/-- The stage of a session after a move. -/
theorem stage_at (stage : ℕ → Stage) (t : ℕ) (q : Stage) (u : ℕ) :
    (u = t ∧ Function.update stage t q u = q) ∨ (u ≠ t ∧ Function.update stage t q u = stage u) := by
  by_cases hu : u = t
  · subst hu
    exact Or.inl ⟨rfl, Function.update_self ..⟩
  · exact Or.inr ⟨hu, Function.update_of_ne hu ..⟩

theorem stage_cases {stage : ℕ → Stage} {t u : ℕ} {q r : Stage} (h : Function.update stage t q u = r) :
    (u = t ∧ q = r) ∨ (u ≠ t ∧ stage u = r) := by
  rcases stage_at stage t q u with ⟨hu, hq⟩ | ⟨hu, hold⟩
  · exact Or.inl ⟨hu, hq.symm.trans h⟩
  · exact Or.inr ⟨hu, hold.symm.trans h⟩

end Stages

section Moves

variable {d d' : Store} {v : View Store} {q q' : Stage} {ws : List Write}

/-- Audit rows and bookings are beside the point. -/
theorem beside_same (h : ∀ x ∈ ws, Aside x ∨ Booking x) (d : Store) : Same d (platform.applyAll d ws) := by
  induction ws generalizing d with
  | nil => exact ⟨rfl, rfl, rfl⟩
  | cons x ws ih =>
    have hrest := ih (fun y hy => h y (List.mem_cons_of_mem x hy)) (d.apply x)
    have hfirst : Same d (d.apply x) := by
      have hx := h x List.mem_cons_self
      cases x <;> simp only [Aside, Booking, or_self] at hx <;> exact ⟨rfl, rfl, rfl⟩
    exact ⟨hrest.orders.trans hfirst.orders, hrest.trades.trans hfirst.trades, hrest.jobs.trans hfirst.jobs⟩

/-- A fill adds its trade to the rest. -/
theorem fill_same {trade : Trade} {rest : List Write} (h : ∀ x ∈ rest, Booking x) (d : Store) :
    (platform.applyAll d (.insertTrade trade :: rest)).orders = d.orders ∧
    (platform.applyAll d (.insertTrade trade :: rest)).trades = d.trades ++ [trade] ∧
    (platform.applyAll d (.insertTrade trade :: rest)).jobs = d.jobs := by
  have hrest := beside_same (fun x hx => Or.inr (h x hx)) (d.apply (.insertTrade trade))
  exact ⟨hrest.orders, hrest.trades, hrest.jobs⟩

theorem onward_same (h : Same d d') : Onward q d d' := by
  refine ⟨fun orderId hfilled => ?_, fun orderId htraded => ?_, fun orderId _ hpending => ?_⟩
  · rw [Filled, h.orders]
    exact hfilled
  · rw [HasTrade, h.trades]
    exact htraded
  · rw [StillPending, h.orders]
    exact hpending

/-- A marked order is FILLED, and the others stay as they are. -/
theorem onward_mark (job : JobTerms) (now : Instant) :
    Onward (.filled job) d (d.apply (.markOrder job.orderId .filled now)) := by
  refine ⟨fun orderId ⟨o, ho, hid, hstatus⟩ => ?_, fun _ h => h, fun orderId hother hpending => ?_⟩
  · by_cases hmarked : o.orderId = job.orderId
    · exact ⟨o.mark .filled now, mem_updateAt.mpr ⟨o, ho, Or.inl ⟨hmarked, rfl⟩⟩, hid, rfl⟩
    · exact ⟨o, mem_updateAt.mpr ⟨o, ho, Or.inr ⟨hmarked, rfl⟩⟩, hid, hstatus⟩
  · rintro o' ho' hid
    obtain ⟨o, ho, ⟨hmarked, rfl⟩ | ⟨-, rfl⟩⟩ := mem_updateAt.mp ho'
    · exact absurd (hmarked.symm.trans hid) (hother job rfl)
    · exact hpending o' ho hid

/-- No move takes a FILLED order or a trade back. -/
theorem onward_moves (h : Moves v q ws q') : Onward q v.committed (platform.applyAll v.committed ws) := by
  cases h with
  | aside h => exact onward_same (beside_same (fun x hx => Or.inl (h x hx)) _)
  | @place row hstatus =>
    refine ⟨fun orderId ⟨o, ho, hfilled⟩ => ⟨o, List.mem_append_left _ ho, hfilled⟩, fun _ h => h,
      fun orderId _ hpending o ho hid => ?_⟩
    rcases List.mem_append.mp ho with hold | hnew
    · exact hpending o hold hid
    · rw [List.mem_singleton.mp hnew, hstatus]
  | @fill job trade rest hid hrest =>
    obtain ⟨horders, htrades, -⟩ := @fill_same trade rest hrest v.committed
    refine ⟨fun orderId hfilled => ?_, fun orderId ⟨x, hx, hof⟩ => ?_, fun orderId _ hpending => ?_⟩
    · rw [Filled, horders]
      exact hfilled
    · rw [HasTrade, htrades]
      exact ⟨x, List.mem_append_left _ hx, hof⟩
    · rw [StillPending, horders]
      exact hpending
  | @mark job now => exact onward_mark job now
  | enqueue | take | complete | giveUp | recover => exact ⟨fun _ h => h, fun _ h => h, fun _ _ h => h⟩
  | read | skip => exact onward_same ⟨rfl, rfl, rfl⟩

end Moves

section Queue

variable {d d' : Store} {stage : ℕ → Stage} {t : ℕ} {q : Stage}

/-- Where neither an order nor a job is added, orders are queued as before. -/
theorem queued_same (h : Queued d stage) (horders : orderTerms.rows d' = orderTerms.rows d)
    (hjobs : jobTerms.rows d' = jobTerms.rows d) (hq : ∀ orderId, q ≠ .placed orderId) :
    Queued d' (Function.update stage t q) := by
  refine ⟨horders ▸ h.orderIds, hjobs ▸ h.jobIds, hjobs ▸ h.jobOrders, ?_, ?_⟩
  · rw [horders, hjobs]
    exact h.ordered
  · rw [horders, hjobs]
    intro u orderId hu
    rcases stage_cases hu with ⟨_, hplaced⟩ | ⟨hne, hstage⟩
    · exact absurd hplaced (hq orderId)
    · obtain ⟨horder, hnone, hone⟩ := h.placed u orderId hstage
      refine ⟨horder, hnone, fun v hv => ?_⟩
      rcases stage_cases hv with ⟨_, hplaced⟩ | ⟨_, hv⟩
      · exact absurd hplaced (hq orderId)
      · exact hone v hv

/-- Moving a job keeps the data of all jobs. -/
theorem move_rows (d : Store) (jobId : ℕ) (state : JobState) (stalls : ℕ) :
    jobTerms.rows (platform.applyAll d [.moveJob jobId state stalls]) = jobTerms.rows d :=
  (jobTerms.applyAll d [.moveJob jobId state stalls]).trans (List.append_nil _)

/-- The row of an order that is stored. -/
theorem rows_mem {o : OrderTerms} (ho : o ∈ orderTerms.rows d) : ∃ x ∈ d.orders, x.orderId = o.orderId := by
  obtain ⟨x, hx, rfl⟩ := List.mem_map.mp ho
  exact ⟨x, hx, rfl⟩

/-- A new order has no job yet, and only its session will queue it. -/
theorem queued_place {row : Order} (h : Queued d stage) (hvalid : d.valid (.insertOrder row) = true) :
    Queued (d.apply (.insertOrder row)) (Function.update stage t (.placed row.orderId)) := by
  have hrows : orderTerms.rows (d.apply (.insertOrder row)) = orderTerms.rows d ++ [row.toOrderTerms] :=
    orderTerms.apply d (.insertOrder row)
  have hnew : ∀ o ∈ orderTerms.rows d, o.orderId ≠ row.orderId := fun o ho hid => by
    obtain ⟨x, hx, hsame⟩ := rows_mem ho
    have hmem : x ∈ rowsAt (·.orderId) row.orderId d.orders := mem_rowsAt.mpr ⟨hx, hsame.trans hid⟩
    rw [List.isEmpty_iff.mp hvalid] at hmem
    simp at hmem
  refine ⟨uniqueOrders_insert h.orderIds hvalid, h.jobIds, h.jobOrders, fun j hj => ?_, fun u orderId hu => ?_⟩
  · obtain ⟨o, ho, hid⟩ := h.ordered j hj
    exact ⟨o, hrows ▸ List.mem_append_left _ ho, hid⟩
  · have hfree : ∀ w, stage w ≠ .placed row.orderId := fun w hw => by
      obtain ⟨⟨o, ho, hid⟩, -⟩ := h.placed w _ hw
      exact hnew o ho hid
    rcases stage_cases hu with ⟨rfl, hplaced⟩ | ⟨-, hstage⟩
    · obtain rfl := Stage.placed.inj hplaced
      refine ⟨⟨row.toOrderTerms, hrows ▸ List.mem_append_right _ (by simp), rfl⟩, fun j hj hid => ?_, fun w hw => ?_⟩
      · obtain ⟨o, ho, hsame⟩ := h.ordered j hj
        exact hnew o ho (hsame.trans hid)
      · rcases stage_cases hw with ⟨hsame, -⟩ | ⟨-, hw⟩
        · exact hsame
        · exact absurd hw (hfree w)
    · obtain ⟨⟨o, ho, hid⟩, hnone, hone⟩ := h.placed u orderId hstage
      refine ⟨⟨o, hrows ▸ List.mem_append_left _ ho, hid⟩, hnone, fun w hw => ?_⟩
      rcases stage_cases hw with ⟨-, hplaced⟩ | ⟨-, hw⟩
      · exact absurd (hid.trans (Stage.placed.inj hplaced).symm) (hnew o ho)
      · exact hone w hw

/-- A placed order gets its one job. -/
theorem queued_enqueue {row : Job} (h : Queued d stage) (hstage : stage t = .placed row.orderId)
    (hvalid : d.valid (.insertJob row) = true) :
    Queued (d.apply (.insertJob row)) (Function.update stage t .over) := by
  have hrows : jobTerms.rows (d.apply (.insertJob row)) = jobTerms.rows d ++ [row.toJobTerms] :=
    jobTerms.apply d (.insertJob row)
  obtain ⟨horder, hnone, hone⟩ := h.placed t _ hstage
  have hids : (d.jobs.map (·.jobId)).Nodup := by
    simpa [jobTerms, Function.comp_def] using h.jobIds
  refine ⟨h.orderIds, ?_, ?_, fun j hj => ?_, fun u orderId hu => ?_⟩
  · have hinsert := nodup_insert hids hvalid
    simpa [jobTerms, Store.apply, Function.comp_def] using hinsert
  · rw [hrows, List.map_append, List.nodup_append]
    refine ⟨h.jobOrders, by simp, fun a ha b hb hsame => ?_⟩
    obtain ⟨j, hj, rfl⟩ := List.mem_map.mp ha
    exact hnone j hj (hsame.trans (by simpa using hb))
  · rw [hrows, List.mem_append, List.mem_singleton] at hj
    rcases hj with hj | rfl
    · exact h.ordered j hj
    · exact horder
  · rcases stage_cases hu with ⟨-, hover⟩ | ⟨hne, hu⟩
    · exact absurd hover (by simp)
    · obtain ⟨horder', hnone', hone'⟩ := h.placed u orderId hu
      have hother : row.orderId ≠ orderId := fun hsame => hne (hone u (hsame ▸ hu))
      refine ⟨horder', fun j hj => ?_, fun w hw => ?_⟩
      · rw [hrows, List.mem_append, List.mem_singleton] at hj
        rcases hj with hj | rfl
        · exact hnone' j hj
        · exact hother
      · rcases stage_cases hw with ⟨-, hover⟩ | ⟨-, hw⟩
        · exact absurd hover (by simp)
        · exact hone' w hw

/-- Every move leaves each order queued once. -/
theorem queued_move {v : View Store} {ws : List Write} (h : Queued d stage) (hvalid : platform.validAll d ws = true)
    (hmove : Moves v (stage t) ws q) : Queued (platform.applyAll d ws) (Function.update stage t q) := by
  generalize hstage : stage t = q₀ at hmove
  cases hmove with
  | aside haside =>
    have hsame := beside_same (fun x hx => Or.inl (haside x hx)) d
    rw [← hstage, Function.update_eq_self]
    refine ⟨?_, ?_, ?_, ?_, ?_⟩
    · simpa only [orderTerms, hsame.orders] using h.orderIds
    · simpa only [jobTerms, hsame.jobs] using h.jobIds
    · simpa only [jobTerms, hsame.jobs] using h.jobOrders
    · simpa only [orderTerms, jobTerms, hsame.orders, hsame.jobs] using h.ordered
    · simpa only [orderTerms, jobTerms, hsame.orders, hsame.jobs] using h.placed
  | place => exact queued_place h (Bool.and_eq_true_iff.mp hvalid).1
  | enqueue => exact queued_enqueue h hstage (Bool.and_eq_true_iff.mp hvalid).1
  | @fill job trade rest hid hrest =>
    obtain ⟨horders, -, hjobs⟩ := @fill_same trade rest hrest d
    exact queued_same h (congrArg (List.map _) horders) (congrArg (List.map _) hjobs) (by simp)
  | mark => exact queued_same h (mark_rows d _ _) rfl (by simp)
  | read | skip => exact queued_same h rfl rfl (by simp)
  | take | complete | giveUp | recover => exact queued_same h rfl (move_rows d _ _ _) (by simp)

end Queue

section Unique

variable {d : Store} {stage : ℕ → Stage}

theorem order_unique (h : Queued d stage) {o o' : Order} (ho : o ∈ d.orders) (ho' : o' ∈ d.orders)
    (hid : o.orderId = o'.orderId) : o = o' := by
  have hnodup : (d.orders.map (·.orderId)).Nodup := by
    simpa [orderTerms, Function.comp_def] using h.orderIds
  exact List.inj_on_of_nodup_map hnodup ho ho' hid

theorem job_unique (h : Queued d stage) {j j' : Job} (hj : j ∈ d.jobs) (hj' : j' ∈ d.jobs)
    (hid : j.jobId = j'.jobId) : j = j' := by
  have hnodup : (d.jobs.map (·.jobId)).Nodup := by
    simpa [jobTerms, Function.comp_def] using h.jobIds
  exact List.inj_on_of_nodup_map hnodup hj hj' hid

/-- An order has one job. -/
theorem job_of_order (h : Queued d stage) {j j' : Job} (hj : j ∈ d.jobs) (hj' : j' ∈ d.jobs)
    (hid : j.orderId = j'.orderId) : j = j' := by
  have hnodup : (d.jobs.map (·.orderId)).Nodup := by
    simpa [jobTerms, Function.comp_def] using h.jobOrders
  exact List.inj_on_of_nodup_map hnodup hj hj' hid

/-- The order of a job is stored. -/
theorem order_of_job (h : Queued d stage) {j : Job} (hj : j ∈ d.jobs) : ∃ o ∈ d.orders, o.orderId = j.orderId := by
  obtain ⟨o, ho, hid⟩ := h.ordered j.toJobTerms (List.mem_map_of_mem hj)
  obtain ⟨x, hx, hsame⟩ := rows_mem ho
  exact ⟨x, hx, hsame.trans hid⟩

/-- Moving a job leaves a job in another state alone. -/
theorem job_kept (h : Queued d stage) {j target : Job} (hj : j ∈ d.jobs) (htarget : target ∈ d.jobs)
    (hne : j.state ≠ target.state) (state : JobState) (stalls : ℕ) :
    j ∈ (d.apply (.moveJob target.jobId state stalls)).jobs := by
  refine mem_updateAt.mpr ⟨j, hj, Or.inr ⟨fun hid => hne ?_, rfl⟩⟩
  rw [job_unique h hj htarget hid]

end Unique

section Work

variable {d : Store} {alive : ℕ → Bool} {stage : ℕ → Stage} {t : ℕ} {q : Stage} {v : View Store}
variable {ws : List Write}

/-- Where jobs are only added, running sessions still have theirs. -/
theorem held_added {d' : Store} (h : Working ⟨d, alive, stage⟩) (hjobs : ∀ j ∈ d.jobs, j ∈ d'.jobs)
    (hjob : ∀ job, q.job? = some job → (stage t).job? = some job) {u : ℕ} {job : JobTerms} (hrun : alive u = true)
    (hu : (Function.update stage t q u).job? = some job) :
    ∃ j ∈ d'.jobs, j.toJobTerms = job ∧ j.state = .active u := by
  have hbefore : (stage u).job? = some job := by
    rcases stage_at stage t q u with ⟨rfl, hq⟩ | ⟨-, hold⟩
    · rw [hq] at hu
      exact hjob job hu
    · rwa [hold] at hu
  obtain ⟨j, hj, hterms, hstate⟩ := h.held u job hrun hbefore
  exact ⟨j, hjobs j hj, hterms, hstate⟩

/-- Where the job of no other running session is moved, they still have theirs. -/
theorem held_moved (hqueued : Queued d stage) (h : Working ⟨d, alive, stage⟩) {target : Job}
    (htarget : target ∈ d.jobs) (hfree : ∀ u, u ≠ t → alive u = true → target.state ≠ .active u)
    (state : JobState) (stalls : ℕ) {u : ℕ} (hne : u ≠ t) {job : JobTerms} (hrun : alive u = true)
    (hu : (stage u).job? = some job) :
    ∃ j ∈ (d.apply (.moveJob target.jobId state stalls)).jobs, j.toJobTerms = job ∧ j.state = .active u := by
  obtain ⟨j, hj, hterms, hstate⟩ := h.held u job hrun hu
  have hother : j.state ≠ target.state := fun hsame => hfree u hne hrun (hsame.symm.trans hstate)
  exact ⟨j, job_kept hqueued hj htarget hother state stalls, hterms, hstate⟩

/-- A session that is over has no job. -/
theorem held_over (hqueued : Queued d stage) (h : Working ⟨d, alive, stage⟩) {target : Job}
    (htarget : target ∈ d.jobs) (hfree : ∀ u, u ≠ t → alive u = true → target.state ≠ .active u)
    (state : JobState) (stalls : ℕ) {u : ℕ} {job : JobTerms} (hrun : alive u = true)
    (hu : (Function.update stage t .over u).job? = some job) :
    ∃ j ∈ (d.apply (.moveJob target.jobId state stalls)).jobs, j.toJobTerms = job ∧ j.state = .active u := by
  rcases stage_at stage t .over u with ⟨-, hover⟩ | ⟨hne, hold⟩
  · rw [hover] at hu
    simp [Stage.job?] at hu
  · rw [hold] at hu
    exact held_moved hqueued h htarget hfree state stalls hne hrun hu

/-- Every move leaves running sessions their jobs. -/
theorem held_move (hqueued : Queued d stage) (h : Working ⟨d, alive, stage⟩) (hself : v.self = t)
    (hrun : alive t = true) (hdb : v.committed = d) (halive : v.alive = alive) (hmove : Moves v (stage t) ws q) :
    ∀ u job, alive u = true → (Function.update stage t q u).job? = some job →
      ∃ j ∈ (platform.applyAll d ws).jobs, j.toJobTerms = job ∧ j.state = .active u := by
  intro u job hu hjob
  generalize hstage : stage t = q₀ at hmove
  have hown : ∀ job, q₀.job? = some job → ∃ j ∈ d.jobs, j.toJobTerms = job ∧ j.state = .active t :=
    fun job hjob => h.held t job hrun ((congrArg Stage.job? hstage).trans hjob)
  cases hmove with
  | aside haside =>
    have hsame := beside_same (fun x hx => Or.inl (haside x hx)) d
    exact held_added h (fun j hj => hsame.jobs ▸ hj) (fun _ hq => hstage ▸ hq) hu hjob
  | place => exact held_added h (fun _ hj => hj) (fun _ hq => by simp [Stage.job?] at hq) hu hjob
  | enqueue =>
    exact held_added h (fun _ hj => List.mem_append_left _ hj) (fun _ hq => by simp [Stage.job?] at hq) hu hjob
  | read | skip | mark => exact held_added h (fun _ hj => hj) (fun _ hq => hstage ▸ hq) hu hjob
  | @fill _ trade rest hid hrest =>
    obtain ⟨-, -, hjobs⟩ := @fill_same trade rest hrest d
    exact held_added h (fun j hj => hjobs ▸ hj) (fun _ hq => hstage ▸ hq) hu hjob
  | @take j hj hwaiting =>
    have hmem : j ∈ d.jobs := hdb ▸ hj
    rcases stage_at stage t (.holding j.toJobTerms) u with ⟨rfl, hq⟩ | ⟨hne, hold⟩
    · rw [hq] at hjob
      obtain rfl := Option.some.inj hjob
      refine ⟨j.move (.active v.self) j.stalls, mem_updateAt.mpr ⟨j, hmem, Or.inl ⟨rfl, rfl⟩⟩, rfl, ?_⟩
      rw [← hself]
      rfl
    · rw [hold] at hjob
      exact held_moved hqueued h hmem (fun w _ _ => by simp [hwaiting]) _ _ hne hu hjob
  | @complete done stalls =>
    obtain ⟨j, hj, rfl, hactive⟩ := hown done rfl
    exact held_over hqueued h hj (fun w hw _ hsame => hw (JobState.active.inj (hsame.symm.trans hactive))) _ _ hu hjob
  | @giveUp _ given stalls hgiven =>
    obtain ⟨j, hj, rfl, hactive⟩ := hown given hgiven
    exact held_over hqueued h hj (fun w hw _ hsame => hw (JobState.active.inj (hsame.symm.trans hactive))) _ _ hu hjob
  | @recover j w state stalls hj hactive hdead =>
    refine held_over hqueued h (hdb ▸ hj) (fun x _ hx hsame => ?_) _ _ hu hjob
    obtain rfl := JobState.active.inj (hactive.symm.trans hsame)
    rw [halive, hx] at hdead
    simp at hdead

/-- What a session knows stays true while the session that marks is another
order's. -/
theorem known_onward {d' : Store} {r : Stage} (h : Onward q d d')
    (hother : ∀ job job', q = .filled job → r = .loaded job' → job.orderId ≠ job'.orderId) (hknown : Known d r) :
    Known d' r := by
  cases r with
  | loaded job => exact h.pending _ (fun filled hq => hother filled job hq rfl) hknown
  | filled job => exact h.traded _ hknown
  | settled job => exact h.filled _ hknown
  | _ => trivial

/-- Two running sessions work on two orders. -/
theorem orders_apart (hqueued : Queued d stage) (h : Working ⟨d, alive, stage⟩) {u : ℕ} (ht : alive t = true)
    (hu : alive u = true) (hne : u ≠ t) {job job' : JobTerms} (hjob : (stage t).job? = some job)
    (hjob' : (stage u).job? = some job') : job.orderId ≠ job'.orderId := by
  obtain ⟨j, hj, rfl, hstate⟩ := h.held t job ht hjob
  obtain ⟨j', hj', rfl, hstate'⟩ := h.held u job' hu hjob'
  intro hsame
  obtain rfl := job_of_order hqueued hj hj' hsame
  exact hne (JobState.active.inj (hstate'.symm.trans hstate))

/-- An order that is open is PENDING, and one that is closed is FILLED. -/
theorem status_cases (h : Working ⟨d, alive, stage⟩) {o : Order} (ho : o ∈ d.orders) :
    (Open o → o.status = .pending) ∧ (¬ Open o → o.status = .filled) := by
  rcases h.statuses o ho with hpending | ⟨hfilled, -⟩
  · exact ⟨fun _ => hpending, fun hclosed => absurd (Or.inl hpending) hclosed⟩
  · refine ⟨fun hopen => ?_, fun _ => hfilled⟩
    rcases hopen with hpending | haccepted
    · simp [hfilled] at hpending
    · simp [hfilled] at haccepted

/-- What a session knows after its own move. -/
theorem known_self (hqueued : Queued d stage) (h : Working ⟨d, alive, stage⟩) (hrun : alive t = true)
    (hdb : v.committed = d) (hmove : Moves v (stage t) ws q) : Known (platform.applyAll d ws) q := by
  have hbefore : Known d (stage t) := h.known t hrun
  generalize hstage : stage t = q₀ at hmove hbefore
  have hown : ∀ job, q₀.job? = some job → ∃ j ∈ d.jobs, j.toJobTerms = job ∧ j.state = .active t :=
    fun job hjob => h.held t job hrun ((congrArg Stage.job? hstage).trans hjob)
  cases hmove with
  | aside haside =>
    have hsame := beside_same (fun x hx => Or.inl (haside x hx)) d
    exact known_onward (onward_same hsame : Onward .over d _) (fun _ _ hq => by simp at hq) hbefore
  | @read job o ho hopen =>
    rw [hdb] at ho
    have hmem := List.mem_of_find?_eq_some ho
    have hid : o.orderId = job.orderId := by simpa using List.find?_some ho
    intro o' ho' hid'
    obtain rfl := order_unique hqueued hmem ho' (hid.trans hid'.symm)
    exact (status_cases h hmem).1 hopen
  | @skip job hclosed =>
    obtain ⟨j, hj, rfl, -⟩ := hown job rfl
    obtain ⟨o, ho, hid⟩ := order_of_job hqueued hj
    have hfound : (d.orders.find? fun o => o.orderId = j.orderId).isSome = true :=
      List.find?_isSome.mpr ⟨o, ho, decide_eq_true hid⟩
    obtain ⟨x, hx⟩ := Option.isSome_iff_exists.mp hfound
    have hmem := List.mem_of_find?_eq_some hx
    exact ⟨x, hmem, by simpa using List.find?_some hx, (status_cases h hmem).2 (hclosed x (hdb ▸ hx))⟩
  | @fill job trade rest hid hrest =>
    obtain ⟨-, htrades, -⟩ := @fill_same trade rest hrest d
    exact ⟨trade, htrades ▸ List.mem_append_right _ (by simp), hid⟩
  | @mark job now =>
    obtain ⟨j, hj, rfl, -⟩ := hown job rfl
    obtain ⟨o, ho, hid⟩ := order_of_job hqueued hj
    exact ⟨o.mark .filled now, mem_updateAt.mpr ⟨o, ho, Or.inl ⟨hid, rfl⟩⟩, hid, rfl⟩
  | _ => trivial

/-- Every running session still knows its order. -/
theorem known_move (hqueued : Queued d stage) (h : Working ⟨d, alive, stage⟩) (hrun : alive t = true)
    (hdb : v.committed = d) (hmove : Moves v (stage t) ws q) :
    ∀ u, alive u = true → Known (platform.applyAll d ws) (Function.update stage t q u) := by
  intro u hu
  rcases stage_at stage t q u with ⟨-, hq⟩ | ⟨hne, hold⟩
  · rw [hq]
    exact known_self hqueued h hrun hdb hmove
  · rw [hold]
    have honward := onward_moves hmove
    rw [hdb] at honward
    refine known_onward honward (fun job job' hq hr => ?_) (h.known u hu)
    exact orders_apart hqueued h hrun hu hne (congrArg Stage.job? hq) (congrArg Stage.job? hr)

/-- An order that is PENDING or FILLED with a trade stays one of these. -/
theorem statuses_move (h : Working ⟨d, alive, stage⟩) (hrun : alive t = true) (hdb : v.committed = d)
    (hmove : Moves v (stage t) ws q) : ∀ o ∈ (platform.applyAll d ws).orders,
      o.status = .pending ∨ (o.status = .filled ∧ HasTrade (platform.applyAll d ws) o.orderId) := by
  have honward := onward_moves hmove
  have hknown : Known d (stage t) := h.known t hrun
  rw [hdb] at honward
  generalize stage t = q₀ at hmove honward hknown
  have hold : ∀ o ∈ d.orders,
      o.status = .pending ∨ (o.status = .filled ∧ HasTrade (platform.applyAll d ws) o.orderId) := fun o ho =>
    (h.statuses o ho).imp id fun hfilled => ⟨hfilled.1, honward.traded _ hfilled.2⟩
  intro o ho
  cases hmove with
  | aside haside =>
    rw [(beside_same (fun x hx => Or.inl (haside x hx)) d).orders] at ho
    exact hold o ho
  | @place row hstatus =>
    rcases List.mem_append.mp ho with ho | hnew
    · exact hold o ho
    · exact Or.inl (List.mem_singleton.mp hnew ▸ hstatus)
  | @fill _ trade rest _ hrest =>
    rw [(@fill_same trade rest hrest d).1] at ho
    exact hold o ho
  | @mark job now =>
    obtain ⟨o', ho', ⟨hmarked, rfl⟩ | ⟨-, rfl⟩⟩ := mem_updateAt.mp ho
    · obtain ⟨trade, htrade, hid⟩ := hknown
      exact Or.inr ⟨rfl, trade, htrade, hid.trans hmarked.symm⟩
    · exact hold _ ho'
  | _ => exact hold o ho

/-- A job is completed when its order needs nothing more. -/
theorem completed_move (hqueued : Queued d stage) (h : Working ⟨d, alive, stage⟩) (hrun : alive t = true)
    (hdb : v.committed = d) (hmove : Moves v (stage t) ws q) :
    ∀ j ∈ (platform.applyAll d ws).jobs, j.state = .completed → Filled (platform.applyAll d ws) j.orderId := by
  have honward := onward_moves hmove
  have hknown : Known d (stage t) := h.known t hrun
  rw [hdb] at honward
  generalize hstage : stage t = q₀ at hmove honward hknown
  have hold : ∀ j ∈ d.jobs, j.state = .completed → Filled (platform.applyAll d ws) j.orderId := fun j hj hdone =>
    honward.filled _ (h.completed j hj hdone)
  have hmoved : ∀ jobId state stalls, ws = [.moveJob jobId state stalls] → state ≠ .completed →
      ∀ j ∈ (platform.applyAll d ws).jobs, j.state = .completed → Filled (platform.applyAll d ws) j.orderId := by
    rintro jobId state stalls rfl hstate j hj hdone
    obtain ⟨j', hj', ⟨-, rfl⟩ | ⟨-, rfl⟩⟩ := mem_updateAt.mp hj
    · exact absurd hdone hstate
    · exact hold _ hj' hdone
  cases hmove with
  | aside haside =>
    intro j hj
    rw [(beside_same (fun x hx => Or.inl (haside x hx)) d).jobs] at hj
    exact hold j hj
  | @enqueue row hwaiting =>
    intro j hj hdone
    rcases List.mem_append.mp hj with hj | hnew
    · exact hold j hj hdone
    · rw [List.mem_singleton.mp hnew, hwaiting] at hdone
      simp at hdone
  | @fill _ trade rest _ hrest =>
    intro j hj
    rw [(@fill_same trade rest hrest d).2.2] at hj
    exact hold j hj
  | take | giveUp => exact hmoved _ _ _ rfl (by simp)
  | recover _ _ _ hnext => exact hmoved _ _ _ rfl (by rcases hnext with rfl | rfl <;> simp)
  | @complete job stalls =>
    obtain ⟨held, hheld, rfl, -⟩ := h.held t job hrun (congrArg Stage.job? hstage)
    intro j hj hdone
    obtain ⟨j', hj', ⟨hid, rfl⟩ | ⟨-, rfl⟩⟩ := mem_updateAt.mp hj
    · obtain rfl := job_unique hqueued hj' hheld hid
      exact hknown
    · exact hold _ hj' hdone
  | _ => exact hold

/-- Sessions that start know nothing yet, and sessions that stop need not. -/
theorem working_alive {alive' : ℕ → Bool} {stage' : ℕ → Stage} (h : Working ⟨d, alive, stage⟩)
    (hrun : ∀ u, alive' u = true → stage' u = .fresh ∨ (alive u = true ∧ stage' u = stage u)) :
    Working ⟨d, alive', stage'⟩ := by
  refine ⟨fun u job hu hjob => ?_, fun u hu => ?_, h.statuses, h.completed⟩
  · have hjob' : (stage' u).job? = some job := hjob
    rcases hrun u hu with hfresh | ⟨hold, hsame⟩
    · rw [hfresh] at hjob'
      simp [Stage.job?] at hjob'
    · exact h.held u job hold ((congrArg Stage.job? hsame).symm.trans hjob')
  · rcases hrun u hu with hfresh | ⟨hold, hsame⟩
    · simp only [hfresh, Known]
    · simp only [hsame]
      exact h.known u hold

/-- Every step of the protocol keeps what is known. -/
theorem working_step {γ : Type} {p p' : Phase Store Stage} {e : Event γ Input Failure} {out : List (ℕ × Write)}
    (hqueued : Queued p.db p.stage) (h : Working p) (hstep : orderProtocol.Step platform p e out p') :
    Queued p'.db p'.stage ∧ Working p' := by
  obtain ⟨d, alive, stage⟩ := p
  cases hstep with
  | wait => exact ⟨hqueued, h⟩
  | move hself hrun hdb halive hvalid hmove =>
    exact ⟨queued_move hqueued hvalid hmove, held_move hqueued h hself hrun hdb halive hmove,
      known_move hqueued h hrun hdb hmove, statuses_move h hrun hdb hmove,
      completed_move hqueued h hrun hdb hmove⟩
  | @start t _ hnew hstart =>
    refine ⟨hqueued, working_alive h fun u hu => ?_⟩
    by_cases hsame : u = t
    · exact Or.inl (hsame ▸ hstart)
    · rw [Function.update_of_ne hsame] at hu
      exact Or.inr ⟨hu, rfl⟩
  | @crash t =>
    refine ⟨hqueued, working_alive h fun u hu => Or.inr ⟨?_, rfl⟩⟩
    by_cases hsame : u = t
    · rw [hsame, Function.update_self] at hu
      simp at hu
    · rwa [Function.update_of_ne hsame] at hu

end Work

/-- Orders that wait to be filled, each with its job. -/
structure Ready (d : Store) : Prop where
  /-- An order id names one order. -/
  orderIds : (d.orders.map (·.orderId)).Nodup
  /-- Nothing has been filled. -/
  pending : ∀ o ∈ d.orders, o.status = .pending
  trades : d.trades = []
  /-- A job id names one job. -/
  jobIds : (d.jobs.map (·.jobId)).Nodup
  /-- An order has one job, which waits. -/
  jobOrders : (d.jobs.map (·.orderId)).Nodup
  queued : ∀ o ∈ d.orders, ∃ j ∈ d.jobs, j.orderId = o.orderId
  ordered : ∀ j ∈ d.jobs, ∃ o ∈ d.orders, o.orderId = j.orderId
  waiting : ∀ j ∈ d.jobs, j.state = .waiting

theorem ready_empty : Ready Store.empty := by
  constructor <;> simp [Store.empty]

/-- Sessions start from such orders. -/
theorem working_ready {d : Store} (h : Ready d) (alive : ℕ → Bool) :
    Queued d (fun _ => .fresh) ∧ Working ⟨d, alive, fun _ => .fresh⟩ := by
  refine ⟨⟨?_, ?_, ?_, fun j hj => ?_, fun t orderId hplaced => by simp at hplaced⟩,
    fun t job _ hjob => by simp [Stage.job?] at hjob, fun t _ => trivial,
    fun o ho => Or.inl (h.pending o ho), fun j hj hdone => ?_⟩
  · simpa [orderTerms, Function.comp_def] using h.orderIds
  · simpa [jobTerms, Function.comp_def] using h.jobIds
  · simpa [jobTerms, Function.comp_def] using h.jobOrders
  · obtain ⟨x, hx, rfl⟩ := List.mem_map.mp hj
    obtain ⟨o, ho, hid⟩ := h.ordered x hx
    exact ⟨o.toOrderTerms, List.mem_map_of_mem ho, hid⟩
  · rw [h.waiting j hj] at hdone
    simp at hdone

end LpPlatform.OrderProgress
