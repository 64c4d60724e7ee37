import LpPlatform.CommissionLedger
import LpPlatform.HmacGuard

/-!
# Orders, trades and debits belong to the broker that asked

The broker that the guard resolves is the one an order is stored under: the
body must name it. The worker copies the broker of the order to the trade, and
charges a wallet of that broker. So along every run of requests and worker
whatever is recorded under a broker goes back to a request of that broker.
-/

namespace LpPlatform.Attribution

open AdminAuth (plainConfig)
open Amounts AuditInterceptor CommissionLedger HashChain HmacGuard InterferenceLogic JsValues Ledger OrderFills
open OrderIntake OrderWorker RowStore SessionReplays SessionTrails Sessions StatementProgram
open StatementWrites StepRuns Tables TradeChain

/-- A store without orders, trades and their charges. -/
structure Untouched (d : Store) : Prop extends Uncharged d where
  /-- There are no orders. -/
  noOrders : d.orders = []

/-- A write that inserts no order. -/
def NoOrder (x : Write) : Prop := x.order? = none

/-- An inserted order is stored under the broker. -/
def OrderOf (b : AuthenticatedBroker) (x : Write) : Prop :=
  ∀ row, x = .insertOrder row → row.brokerId = b.brokerId

section Runs

variable (G : HmacConfig) (H : Sha256) (lot : String) (d : Store) (n : ℕ)
variable (es : List (Event BrokerCall Input Failure))

/-- The writes that the run commits, each with its session. -/
def written : List (ℕ × Write) := history platform (brokerCalls G H lot) (World.initial d n) es

/-- The session was started by a request to place an order, and the guard has
resolved the broker for it. -/
def Resolved (t : ℕ) (b : AuthenticatedBroker) : Prop :=
  ∃ req, Started platform (brokerCalls G H lot) (World.initial d n) es t (.place req) ∧
    Returns (canActivate G req) (seen platform (brokerCalls G H lot) t (World.initial d n) es) b

/-- Everything is recorded under the broker that asked. -/
structure Attributed (w : BrokerWorld) : Prop where
  /-- An order was inserted by a session. -/
  orders : ∀ o ∈ orderTerms.rows w.db, ∃ t row, (t, .insertOrder row) ∈ written G H lot d n es ∧
    row.toOrderTerms = o
  /-- A session that inserts orders does so for the one broker that was
  resolved for its request. -/
  requests : ∀ t row, (t, .insertOrder row) ∈ written G H lot d n es →
    ∃ b, Resolved G H lot d n es t b ∧ (∀ b', Resolved G H lot d n es t b' → b' = b) ∧
      row.brokerId = b.brokerId
  /-- A trade carries the broker, the symbol and the side of its order. -/
  trades : ∀ x ∈ w.db.trades, ∃ o ∈ orderTerms.rows w.db, x.orderId = o.orderId ∧
    x.brokerId = o.brokerId ∧ x.symbol = o.symbol ∧ x.side = o.side
  /-- A brokerage charge is of a trade. -/
  charges : ∀ c ∈ w.db.charges, c.type = .brokerage → ∃ x ∈ w.db.trades, x.tradeId = c.tradeId
  /-- A debit of a charge is on a wallet of the broker of its trade. -/
  debits : ∀ e ∈ w.db.entries, isChargeDebit e = true → ∃ x ∈ w.db.trades, x.tradeId = e.referenceId ∧
    ∃ wallet ∈ w.db.wallets, wallet.walletId = e.walletId ∧ wallet.brokerId = x.brokerId

end Runs

section Writing

/-- A place request inserts an order of its broker, if any. -/
theorem emits_placeEndpoint {b : AuthenticatedBroker} {body : Json} {ip : Option String} :
    Emits (OrderOf b) (placeEndpoint body (some b) ip) := by
  have hplain : ∀ {α : Type} {row : View Store → Input → Write} {f : View Store → Input → α},
      (∀ v i, (row v i).order? = none) →
      Emits (OrderOf b) (exec (fun v i => [row v i]) f : Program α) := by
    intro α row f hrow
    refine emits_exec fun v i x hx order hinsert => ?_
    obtain rfl := List.mem_singleton.mp hx
    have hnone := hrow v i
    rw [hinsert] at hnone
    simp [Write.order?] at hnone
  unfold placeEndpoint
  split
  · rename_i dto hdto
    unfold place
    simp only [bind_eq]
    by_cases hbroker : b.brokerId = dto.brokerId.val
    · rw [ensure, if_pos (by simpa using hbroker)]
      have hinsert : Emits (OrderOf b) (insertOrder dto) := by
        rw [insertOrder]
        cases hrow : dto.row with
        | error e => exact emits_throw _
        | ok row =>
          refine emits_exec fun v i x hx order hx' => ?_
          obtain rfl := Write.insertOrder.inj ((List.mem_singleton.mp hx).symm.trans hx')
          exact (row_fields hrow _ _ _).2.1.trans hbroker.symm
      exact emits_bind (emits_done _) fun _ => emits_bind hinsert fun order =>
        emits_bind (hplain fun _ _ => rfl) fun _ =>
        emits_bind (emits_tryCatch (hplain fun _ _ => rfl) fun _ => emits_done _) fun _ => emits_done _
    · rw [ensure, if_neg (by simpa using hbroker)]
      exact emits_throw _
  · exact emits_throw _

end Writing

section Proofs

variable {G : HmacConfig} {H : Sha256} {lot : String} {d : Store} {n : ℕ}
variable {es : List (Event BrokerCall Input Failure)} {t : ℕ} {x : Write}

/-- What a session commits is what its call may write. -/
theorem written_ok {ok : Write → Prop} {call : BrokerCall}
    (hstart : Started platform (brokerCalls G H lot) (World.initial d n) es t call)
    (hok : Writes (fun _ => True) ok (brokerCalls G H lot call))
    (hx : (t, x) ∈ written G H lot d n es) : ok x := by
  obtain ⟨u, e, u', htakes, hcommitted⟩ := mem_history.mp hx
  obtain ⟨ws, hc, hin⟩ := (mem_committed platform).mp hcommitted
  obtain ⟨v, v', hstart⟩ := hstart
  have hissued : Along (World.step platform (brokerCalls G H lot))
      (fun w e => ∀ x ∈ issued platform w e, True) (World.initial d n) es :=
    (along_iff_takes _ _).mpr fun _ _ _ _ _ _ => trivial
  exact commits_since_start (fun _ _ _ _ => trivial) hissued hok hstart trivial htakes hc x hin

/-- A request to place an order opens no transaction. -/
theorem auto_place {req : BrokerRequest} : AutoCommits (brokerCalls G H lot (.place req)) := by
  have hguard : Emits NoOrder (canActivate G req) := emits_canActivate fun _ => rfl
  exact auto_bind (auto_bind hguard.auto fun _ => emits_placeEndpoint.auto) fun _ => trivial

/-- The other calls insert no orders. -/
theorem inserted_by_place {call : BrokerCall} {row : Order}
    (hstart : Started platform (brokerCalls G H lot) (World.initial d n) es t call)
    (hrow : (t, .insertOrder row) ∈ written G H lot d n es) : ∃ req, call = .place req := by
  have hwallet : ∀ brokerId, Writes (fun _ => True) NoOrder (commissionWallet brokerId) :=
    fun brokerId => writes_bind (writes_query _) fun found => by
      dsimp only
      split
      · exact writes_row fun _ _ => rfl
      · trivial
  have hnot : ¬ Writes (fun _ => True) NoOrder (brokerCalls G H lot call) := fun hok => by
    have hnone : NoOrder (.insertOrder row) := written_ok hstart hok hrow
    simp [NoOrder, Write.order?] at hnone
  cases call with
  | place req => exact ⟨req, rfl⟩
  | verify req =>
    refine absurd ?_ hnot
    exact writes_bind (writes_bind (emits_canActivate fun _ => rfl).writes fun _ => trivial)
      fun _ => trivial
  | runJob => exact absurd (writes_runJob (fun _ _ h => h) hwallet) hnot
  | recoverStalled => exact absurd (writes_recoverStalled fun _ _ h => h) hnot

/-- An order is inserted for the broker that was resolved. -/
theorem inserted_for {row : Order} {w : BrokerWorld}
    (hrun : run (World.step platform (brokerCalls G H lot)) (World.initial d n) es = some w)
    (hrow : (t, .insertOrder row) ∈ written G H lot d n es) : ∃ b, Resolved G H lot d n es t b ∧ (∀ b', Resolved G H lot d n es t b' → b' = b) ∧
      row.brokerId = b.brokerId := by
  obtain ⟨call, hstart, hauto⟩ := written_auto hrun hrow
  obtain ⟨req, rfl⟩ := inserted_by_place hstart hrow
  obtain ⟨os, later, f, k, err, v, i, hseen, hreplay, hin⟩ := hauto auto_place
  have hguard : ∃ b front back, os = front ++ back ∧ replay (canActivate G req) front = some (.done b) ∧
      ∃ k' err', replay (placeEndpoint req.body (some b) req.ip) back = some (.stmt f k' err') := by
    rcases replay_bind_stmt hreplay with ⟨k', err', hplace⟩ | ⟨_, _, _, -, -, hdone⟩
    · rcases replay_bind_stmt hplace with ⟨k'', err'', hstmt⟩ | ⟨b, front, back, hos, hb, hrest⟩
      · have hemits : Emits NoOrder (canActivate G req) := emits_canActivate fun _ => rfl
        have hwrites := replay_writes hemits.writes hstmt
        have hnone : NoOrder (.insertOrder row) := (hwrites.1 v i trivial).1 _ hin
        simp [NoOrder, Write.order?] at hnone
      · exact ⟨b, front, back, hos, hb, k', err', hrest⟩
    · exact absurd (replay_done hdone).2 (by simp)
  obtain ⟨b, front, back, rfl, hb, k', err', hrest⟩ := hguard
  have hreturns : Returns (canActivate G req)
      (seen platform (brokerCalls G H lot) t (World.initial d n) es) b :=
    ⟨front, back ++ later, by rw [hseen, List.append_assoc], hb⟩
  refine ⟨b, ⟨req, hstart, hreturns⟩, ?_, ?_⟩
  · rintro b' ⟨req', ⟨u, u', hstart'⟩, hreturns'⟩
    obtain ⟨v, v', hstart⟩ := hstart
    obtain ⟨rfl⟩ := start_once hstart hstart'
    exact returns_unique hreturns' hreturns
  · have hwrites := replay_writes emits_placeEndpoint.writes hrest
    exact (hwrites.1 v i trivial).1 _ hin row rfl

/-- A debit in the books is on a wallet of the broker of its trade. -/
theorem debit_wallet (hbooks : Books lot d) {e : LedgerEntry} (he : e ∈ d.entries)
    (hdebit : isChargeDebit e = true) : ∃ x ∈ d.trades, x.tradeId = e.referenceId ∧
      ∃ wallet ∈ d.wallets, wallet.walletId = e.walletId ∧ wallet.brokerId = x.brokerId := by
  obtain ⟨⟨x, hx, hid⟩, -⟩ := hbooks.debits e he hdebit
  have hmem : e ∈ debitsOf d x.tradeId := List.mem_filter.mpr ⟨he, decide_eq_true ⟨hdebit, hid.symm⟩⟩
  obtain ⟨o, -, -, hstate⟩ := hbooks.booked x hx
  rcases hstate with ⟨-, c, e', wallet, -, hone, -, hwallet, hwid, hbroker⟩ | ⟨-, -, hnone⟩
  · rw [hone, List.mem_singleton] at hmem
    subst hmem
    exact ⟨x, hx, hid, wallet, hwallet, hwid, hbroker⟩
  · rw [hnone] at hmem
    simp at hmem

/-- In every state of every run, orders, trades, charges and debits are recorded
under the broker that the guard resolved for the request behind them. -/
theorem attributed (hd : Untouched d) {w : BrokerWorld}
    (hrun : run (World.step platform (brokerCalls G H lot)) (World.initial d n) es = some w) :
    Attributed G H lot d n es w := by
  have hbooks : Books lot w.db :=
    broker_visits (fun _ _ hvalid hws hd => books_traded hd hvalid hws)
      (books_uncharged hd.toUncharged) (visits_last hrun)
  refine ⟨fun o ho => ?_, fun t row hrow => inserted_for hrun hrow, fun x hx => ?_,
    hbooks.charges, fun e he hdebit => debit_wallet hbooks he hdebit⟩
  · have hrows : orderTerms.rows w.db = orderTerms.rows d ++
        ((written G H lot d n es).map Prod.snd).filterMap orderTerms.row? := by
      rw [history_db hrun]
      exact orderTerms.applyAll d _
    have hnone : orderTerms.rows d = [] := by simp [orderTerms, hd.noOrders]
    rw [hrows, hnone, List.nil_append] at ho
    obtain ⟨write, hwrite, hinsert⟩ := List.mem_filterMap.mp ho
    obtain ⟨⟨t, write⟩, hmem, rfl⟩ := List.mem_map.mp hwrite
    cases write with
    | insertOrder row => exact ⟨t, row, hmem, Option.some.inj hinsert⟩
    | _ => simp [orderTerms, Write.order?] at hinsert
  · obtain ⟨o, ho, hfills, -⟩ := hbooks.booked x hx
    exact ⟨o, ho, hfills.orderId, hfills.brokerId, hfills.symbol, hfills.side⟩

end Proofs

/-- The text that broker B1 signs for an order. -/
def signedText : String :=
  "0\nPOST /api/v1/broker/orders\n" ++ stringify (limitOrder "C1" "1" "1.2345")

/-- Its HMAC under the secret. -/
def signedHmac : String := "946e35ac784f9c7ab0b65530ed09ded338881b40f96d6f6ed1b2d7437cdcf3e7"

/-- One active broker with one key. -/
def plainHmac : HmacConfig where
  argon2 := plainConfig.argon2
  dateParser := .epoch
  hmac secret text := if secret = "s3cret" ∧ text = signedText then signedHmac else ""
  registry _ := ⟨[⟨"B1", .active⟩], [⟨"K1", "B1", "lp_b1", "argon2:s3cret", none⟩]⟩

/-- The signed order. -/
def signedOrder : BrokerRequest where
  apiKey := some "lp_b1.s3cret"
  timestamp := some "0"
  signature := some signedHmac
  userAgent := none
  method := "POST"
  url := "/api/v1/broker/orders"
  rawBody := some (stringify (limitOrder "C1" "1" "1.2345"))
  body := limitOrder "C1" "1" "1.2345"
  ip := none

/-- A call run to its end, one input for each statement. -/
def calling (t : ℕ) (call : BrokerCall) (inputs : List Input) :
    List (Event BrokerCall Input Failure) :=
  .start t call :: inputs.map (Event.step t)

/-- The order is placed and filled. -/
def placedAndFilled : List (Event BrokerCall Input Failure) :=
  calling 1 (.place signedOrder) [quiet, quiet, quiet, drawing "01HX0000000000000000000001", quiet,
    drawing "L1"] ++
  calling 2 .runJob [quiet, quiet, drawing "01HX0000000000000000000002", quiet, quiet, quiet, quiet,
    quiet, drawing "W1", drawing "E1", quiet]

theorem untouched_empty : Untouched Store.empty := ⟨uncharged_empty, rfl⟩

theorem attributed_once : ∃ w, run (World.step platform (brokerCalls plainHmac fillDigests "4"))
      (World.initial Store.empty 0) placedAndFilled = some w ∧ w.db.trades.length = 1 ∧
    Attributed plainHmac fillDigests "4" Store.empty 0 placedAndFilled w := by
  obtain ⟨w, hrun, hcheck⟩ := run_reaches
    (World.step platform (brokerCalls plainHmac fillDigests "4")) (World.initial Store.empty 0)
    placedAndFilled (fun w => w.db.trades.length = 1) (by decide +kernel)
  exact ⟨w, hrun, of_decide_eq_true hcheck, attributed untouched_empty hrun⟩

end LpPlatform.Attribution
