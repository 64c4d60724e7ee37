import LpPlatform.OrderFills

/-!
# The margin of a fill

`RiskService.check` compares what an order to buy at a price is worth with the
balance of its broker's wallet. The worker that fills orders does not call it.
For amounts of the database the check rejects for margin exactly what is worth
more than the entries of the wallet add up to, so every trade on record passes
exactly when each fill happens to find a balance that covers its order.
-/

namespace LpPlatform.RiskService

open Amounts DecimalText HashChain InterferenceLogic JsValues Ledger OrderFills OrderIntake OrderWorker RowStore
open Sessions StatementProgram StepRuns Tables TradeChain

/-- What a check is made on. -/
structure PreTradeCheckInput where
  brokerId : String
  symbol : String
  side : OrderSide
  quantity : String
  price : Option String
  /-- The balance of the broker's wallet. -/
  walletBalance : String
  /-- The broker's limit in this symbol. -/
  positionLimit : String
  /-- The broker's net position in this symbol. -/
  currentPosition : String

/-- A purchase is worth no more than the balance. -/
def checkMargin (input : PreTradeCheckInput) (qty : Money) (price : String) : Except Failure Unit := do
  let price ← Money.new price
  let required := qty.mul price
  let balance ← Money.new input.walletBalance
  if input.side = .buy ∧ required.gt balance then
    throw (.domain "RISK_INSUFFICIENT_MARGIN"
      s!"Insufficient margin: needed {required.toString}, have {balance.toString}" 422)

/-- The position after the order is within the limit. -/
def checkPosition (input : PreTradeCheckInput) (qty : Money) : Except Failure Unit := do
  let limit ← Money.new input.positionLimit
  let current ← Money.new input.currentPosition
  let projected := if input.side = .buy then current.add qty else current.sub qty
  if projected.abs.gt limit then
    throw (.domain "RISK_POSITION_LIMIT_EXCEEDED"
      s!"Position limit exceeded: projected {projected.toString} > limit {limit.toString}" 422)

/-- `RiskService.check`. -/
def check (input : PreTradeCheckInput) : Except Failure Unit := do
  let qty ← Money.new input.quantity
  if qty.isZero || qty.isNegative then
    throw (.domain "ORDER_INVALID_QUANTITY" "Quantity must be > 0" 400)
  match input.price with
  | some price => checkMargin input qty price
  | none => pure ()
  checkPosition input qty

/-- The check has rejected for insufficient margin. -/
def rejectsMargin : Except Failure Unit → Bool
  | .error (.domain code _ _) => code = "RISK_INSUFFICIENT_MARGIN"
  | _ => false

/-- The wallet that a broker's commissions are debited from. -/
def firstWallet (d : Store) (brokerId : String) : Option Wallet :=
  (d.wallets.filter fun w => w.brokerId = brokerId).argmin (·.id)

/-- What the entries of a broker's wallet add up to, nothing without a wallet. -/
def walletUnits (d : Store) (brokerId : String) : ℤ :=
  ((firstWallet d brokerId).map fun w => balanceUnits d.entries w.walletId).getD 0

/-- The balance that is reported for a broker's wallet. -/
def walletBalance (d : Store) (brokerId : String) : String :=
  ((firstWallet d brokerId).map fun w => balanceText d.entries w.walletId).getD "0"

/-- The check of a trade, against the wallet of its broker. -/
def tradeInput (d : Store) (t : Trade) (positionLimit currentPosition : String) : PreTradeCheckInput :=
  ⟨t.brokerId, t.symbol, t.side, t.quantity.text, some t.price.text, walletBalance d t.brokerId,
    positionLimit, currentPosition⟩

/-- The trade is worth no more than its broker's balance, and no check of it
rejects for margin. -/
structure Margined (d : Store) (t : Trade) : Prop where
  covered : t.quantity.value * t.price.value ≤ (walletUnits d t.brokerId : ℚ) / 10000
  passes : ∀ positionLimit currentPosition,
    rejectsMargin (check (tradeInput d t positionLimit currentPosition)) = false

/-- The rows of the orders that an event fills. -/
def filledOrders (w : OrderWorld) (e : Event OrderCall Input Failure) : List Order :=
  match w.commit? platform e with
  | none => []
  | some (_, ws) =>
    w.db.orders.filter fun o => o.orderId ∈ (List.filterMap Write.trade? ws).map (·.orderId)

/-- An order to buy at a price is worth no more than its broker's wallet holds. -/
def Afforded (d : Store) (o : OrderTerms) : Prop :=
  o.side = .buy → ∀ price ∈ o.price,
    o.quantity.units * price.units ≤ 10000 * walletUnits d o.brokerId

instance (d : Store) (o : OrderTerms) : Decidable (Afforded d o) := inferInstanceAs (Decidable (_ → _))

/-- Every order that the event fills is afforded by the rows the event finds. -/
def FillsAfforded (w : OrderWorld) (e : Event OrderCall Input Failure) : Prop :=
  ∀ o ∈ filledOrders w e, Afforded w.db o.toOrderTerms

instance (w : OrderWorld) (e : Event OrderCall Input Failure) : Decidable (FillsAfforded w e) :=
  inferInstanceAs (Decidable (∀ o ∈ filledOrders w e, Afforded w.db o.toOrderTerms))

/-- Every trade that the event records for an order to buy at a price has the
margin, by the balance at that moment. -/
def FillsMargined (w w' : OrderWorld) : Prop :=
  ∀ t ∈ w'.db.trades.drop w.db.trades.length, ∀ o ∈ w'.db.orders, o.orderId = t.orderId →
    o.side = .buy → o.price.isSome = true → Margined w.db t

section Checking

variable {d : Store} {t : Trade}

/-- The balance as text stands for the sum of the entries. -/
theorem new_walletBalance (d : Store) (brokerId : String) :
    ∃ m, Money.new (walletBalance d brokerId) = .ok m ∧ m.value = (walletUnits d brokerId : ℚ) / 10000 := by
  unfold walletBalance walletUnits
  cases firstWallet d brokerId with
  | none =>
    have hzero : literal? "0".toList = some ⟨false, 0, 0⟩ := by decide
    exact ⟨_, new_of_literal hzero, (litValue_ofLiteral _).trans (by norm_num [litValue])⟩
  | some w =>
    have hbalance := balance_eq d w.walletId
    obtain ⟨l, hl, hvalue⟩ := Option.map_eq_some_iff.mp hbalance
    exact ⟨_, new_of_literal hl, (litValue_ofLiteral l).trans hvalue⟩

/-- A text that is no decimal is refused as such. -/
theorem new_error {text : String} {e : Failure} (h : Money.new text = .error e) : ∃ message, e = .typeError message := by
  unfold Money.new at h
  split at h
  · simp at h
  · exact ⟨_, (Except.error.inj h).symm⟩

theorem new_margin {text : String} {e : Failure} (h : Money.new text = .error e) :
    rejectsMargin (.error e) = false := by
  obtain ⟨message, rfl⟩ := new_error h
  rfl

/-- A check that comes after another rejects for a reason when one of them does. -/
theorem bind_rejects {α : Type} {rejects : Except Failure Unit → Bool} {x : Except Failure α}
    {f : α → Except Failure Unit} (hx : ∀ e, x = .error e → rejects (.error e) = false)
    (hf : ∀ a, x = .ok a → rejects (f a) = false) : rejects (x >>= f) = false := by
  cases x with
  | error e => exact hx e rfl
  | ok a => exact hf a rfl

/-- A check of a position never rejects for margin. -/
theorem checkPosition_margin (input : PreTradeCheckInput) (qty : Money) :
    rejectsMargin (checkPosition input qty) = false := by
  refine bind_rejects (fun e => new_margin) fun limit _ => bind_rejects (fun e => new_margin) fun current _ => ?_
  generalize (if input.side = .buy then current.add qty else current.sub qty) = projected
  dsimp only
  split <;> rfl

/-- A check of a margin lets through what is no purchase beyond the balance. -/
theorem checkMargin_eq {input : PreTradeCheckInput} {qty price balance : Money} {text : String}
    (hprice : Money.new text = .ok price) (hbalance : Money.new input.walletBalance = .ok balance) :
    checkMargin input qty text = if input.side = .buy ∧ (qty.mul price).gt balance then
        .error (.domain "RISK_INSUFFICIENT_MARGIN"
          s!"Insufficient margin: needed {(qty.mul price).toString}, have {balance.toString}" 422)
      else .ok () := by
  rw [checkMargin, hprice, hbalance]
  rfl

/-- The check rejects a trade for margin exactly when it buys something that
is worth more than the balance. -/
theorem rejectsMargin_iff {positionLimit currentPosition : String} :
    rejectsMargin (check (tradeInput d t positionLimit currentPosition)) = true ↔
      t.side = .buy ∧ 0 < t.quantity.value ∧
        (walletUnits d t.brokerId : ℚ) / 10000 < t.quantity.value * t.price.value := by
  obtain ⟨qty, hqty, hquantity, hsmall⟩ := new_text t.quantity
  obtain ⟨price, hprice, hvalue, hsmall'⟩ := new_text t.price
  obtain ⟨balance, hbalance, hsum⟩ := new_walletBalance d t.brokerId
  have hrequired : (qty.mul price).value = t.quantity.value * t.price.value := by
    rw [mul_value hsmall hsmall', hquantity, hvalue]
  have hpositive : (qty.isZero || qty.isNegative) = false ↔ 0 < t.quantity.value := by
    rw [← hquantity, ← isPositive_iff, Money.isPositive, Money.isNegative]
    cases qty.isZero <;> simp
  have hcheck : check (tradeInput d t positionLimit currentPosition) =
      if qty.isZero || qty.isNegative then .error (.domain "ORDER_INVALID_QUANTITY" "Quantity must be > 0" 400)
      else checkMargin (tradeInput d t positionLimit currentPosition) qty t.price.text >>= fun _ =>
        checkPosition (tradeInput d t positionLimit currentPosition) qty := by
    rw [check, tradeInput, hqty]
    rfl
  have hmargin := @checkMargin_eq (tradeInput d t positionLimit currentPosition) qty price balance _ hprice hbalance
  rw [hcheck, hmargin, ← hpositive, ← hrequired, ← hsum]
  by_cases hinvalid : (qty.isZero || qty.isNegative) = true
  · simp [hinvalid, rejectsMargin]
  · rw [if_neg hinvalid]
    by_cases hshort : (tradeInput d t positionLimit currentPosition).side = .buy ∧ (qty.mul price).gt balance
    · rw [if_pos hshort]
      have hgt := of_decide_eq_true hshort.2
      exact iff_of_true rfl ⟨hshort.1, Bool.eq_false_iff.mpr hinvalid, hgt⟩
    · rw [if_neg hshort]
      have hpass := checkPosition_margin (tradeInput d t positionLimit currentPosition) qty
      refine iff_of_false (fun h => ?_) fun h => hshort ⟨h.1, decide_eq_true h.2.2⟩
      exact absurd (h.symm.trans hpass) (by simp)

/-- A trade has the margin when it is worth no more than the balance. -/
theorem margined_iff : Margined d t ↔
    t.quantity.units * t.price.units ≤ 10000 * walletUnits d t.brokerId := by
  have hunits : t.quantity.value * t.price.value ≤ (walletUnits d t.brokerId : ℚ) / 10000 ↔
      t.quantity.units * t.price.units ≤ 10000 * walletUnits d t.brokerId := by
    have hcast : (t.quantity.units * t.price.units : ℚ) ≤ 10000 * walletUnits d t.brokerId ↔
        t.quantity.units * t.price.units ≤ 10000 * walletUnits d t.brokerId := by exact_mod_cast Iff.rfl
    rw [← hcast, Numeric.value, Numeric.value]
    constructor <;> intro h <;> linarith
  refine ⟨fun h => hunits.mp h.covered, fun h => ⟨hunits.mpr h, fun limit position => ?_⟩⟩
  refine Bool.eq_false_iff.mpr fun hrejects => ?_
  exact absurd (hunits.mpr h) (not_le.mpr (rejectsMargin_iff.mp hrejects).2.2)

end Checking

section Runs

variable {H : Sha256} {lot : String}

/-- The orders of a trade that a commit adds, before and after it. -/
theorem fill_orders {d : Store} {o : Order} {trade : Trade} {rest : List Write} (hd : UniqueOrders d)
    (h : FillCommit H lot d o trade rest) {d' : Store} (hrows : orderTerms.rows d' = orderTerms.rows d)
    {x : Order} (hx : x ∈ d'.orders) (hid : x.orderId = trade.orderId) : x.toOrderTerms = o.toOrderTerms := by
  have hmem : x.toOrderTerms ∈ orderTerms.rows d := hrows ▸ List.mem_map_of_mem hx
  exact List.inj_on_of_nodup_map hd hmem h.order (hid.trans h.fills.orderId)

/-- The order of a trade that a commit adds is there before and after it. -/
theorem fill_order_mem {d : Store} {o : Order} {trade : Trade} {rest : List Write}
    (h : FillCommit H lot d o trade rest) {d' : Store} (hrows : orderTerms.rows d' = orderTerms.rows d) :
    ∃ x ∈ d'.orders, x.orderId = trade.orderId ∧ x.toOrderTerms = o.toOrderTerms := by
  obtain ⟨x, hx, hsame⟩ := List.mem_map.mp (hrows.symm ▸ h.order)
  exact ⟨x, hx, (congrArg (·.orderId) hsame).trans h.fills.orderId.symm, hsame⟩

/-- A fill of an order to buy at a price has the margin when the order is
afforded. -/
theorem margined_fills {d : Store} {o : OrderTerms} {trade : Trade} (h : Fills o trade) (hbuy : o.side = .buy)
    (hpriced : o.price.isSome = true) : Margined d trade ↔ Afforded d o := by
  obtain ⟨price, hprice⟩ := Option.isSome_iff_exists.mp hpriced
  rw [margined_iff, Afforded, h.quantity, h.price, h.brokerId, hprice, Option.getD_some]
  simp [hbuy]

/-- A fill is afforded exactly when the trade it records has the margin. -/
theorem margined_step {w w' : OrderWorld} {e : Event OrderCall Input Failure}
    (hsound : Sound (orderContract H lot) w) (hd : UniqueOrders w.db)
    (hstep : w.step platform (orders H lot) e = some w') : FillsAfforded w e ↔ FillsMargined w w' := by
  have hdb := step_db platform hstep
  unfold FillsAfforded FillsMargined filledOrders
  cases hc : w.commit? platform e with
  | none =>
    rw [hc] at hdb
    simp [hdb]
  | some commit =>
    obtain ⟨t, ws⟩ := commit
    rw [hc] at hdb
    obtain ⟨v, hv⟩ := committed_of_step hsound hstep hc
    have hguar : Traded H lot w.db ws := hv.committed ▸ hv.guar
    have htrades : w'.db.trades = w.db.trades ++ List.filterMap Write.trade? ws := by
      rw [hdb]
      exact tradeRows.applyAll w.db ws
    rw [htrades, List.drop_left]
    cases hguar with
    | @fill o trade rest hfill =>
      obtain ⟨quantity, -, hcommission⟩ := hfill.commission
      have hone : List.filterMap Write.trade? (.insertTrade trade :: rest) = [trade] :=
        congrArg (trade :: ·) (commission_trade? hcommission)
      have hrows : orderTerms.rows w'.db = orderTerms.rows w.db := by
        rw [hdb]
        exact (fill_rows hfill).1
      simp only [hone, List.map_cons, List.map_nil, List.mem_singleton, List.mem_filter, decide_eq_true_eq,
        forall_eq, and_imp]
      constructor
      · intro hafford x hx hid hbuy hpriced
        have hsame := fill_orders hd hfill hrows hx hid
        obtain ⟨y, hy, hyid, hysame⟩ := fill_order_mem hfill rfl
        refine (margined_fills hfill.fills ?_ ?_).mpr (hysame ▸ hafford y hy hyid)
        · exact (congrArg (·.side) hsame).symm.trans hbuy
        · exact (congrArg (·.price.isSome) hsame).symm.trans hpriced
      · intro hmargin x hx hid hbuy price hprice
        have hsame := fill_orders hd hfill rfl hx hid
        obtain ⟨y, hy, hyid, hysame⟩ := fill_order_mem hfill hrows
        have hside : o.side = .buy := (congrArg (·.side) hsame).symm.trans hbuy
        have hpriced : o.price = some price := (congrArg (·.price) hsame).symm.trans hprice
        have hmargined := hmargin y hy hyid ((congrArg (·.side) hysame).trans hside)
          ((congrArg (·.price.isSome) hysame).trans (by rw [hpriced]; rfl))
        have hafforded := (margined_fills hfill.fills hside (by rw [hpriced]; rfl)).mp hmargined
        exact (hsame ▸ hafforded : Afforded w.db x.toOrderTerms) hbuy price hprice
    | _ => simp [Write.trade?]

end Runs

/-- In every run, every trade that is recorded for an order to buy at a price
has the margin exactly when every order that is filled is afforded. -/
theorem margin_gate_iff {H : Sha256} {lot : String} {d : Store} {n : ℕ} (hd : UniqueOrders d)
    (es : List (Event OrderCall Input Failure)) :
    Along (World.step platform (orders H lot)) FillsAfforded (World.initial d n) es ↔
      ∀ w e w', Takes (World.step platform (orders H lot)) (World.initial d n) es w e w' →
        FillsMargined w w' := by
  rw [along_iff_takes]
  refine forall_congr' fun w => forall_congr' fun e => forall_congr' fun w' =>
    forall_congr' fun htakes => ?_
  have hbefore := takes_before htakes
  have hunique : UniqueOrders w.db :=
    traded_visits (fun _ _ hvalid _ hd => uniqueOrders_applyAll hd hvalid) hd hbefore
  obtain ⟨_, _, _, _, hstep⟩ := htakes
  exact margined_step (sound_orders hbefore) hunique hstep

/-- A purchase is placed by a broker without a wallet, and its fill reaches the
commit. -/
def unfundedPurchase : List (Event OrderCall Input Failure) :=
  placing 1 (limitOrder "C1" "1" "1.2345") "01HX0000000000000000000001" ++
    (filling 2 "01HX0000000000000000000002").dropLast

/-- The trade of a purchase is recorded that the check rejects. -/
theorem unchecked_purchase : ∃ es w e w', Takes (World.step platform (orders fillDigests "4"))
      (World.initial Store.empty 0) es w e w' ∧
    ∃ t ∈ w'.db.trades.drop w.db.trades.length, ∃ o ∈ w'.db.orders, o.orderId = t.orderId ∧
      o.side = .buy ∧ o.price.isSome = true ∧
      check (tradeInput w.db t "100" "0") =
        .error (.domain "RISK_INSUFFICIENT_MARGIN" "Insufficient margin: needed 1.2345, have 0" 422) ∧
      ¬ Margined w.db t := by
  obtain ⟨w, hrun, hcheck⟩ := run_reaches (World.step platform (orders fillDigests "4"))
    (World.initial Store.empty 0) unfundedPurchase
    (fun w => (w.step platform (orders fillDigests "4") (.step 2 quiet)).any fun w' =>
      (w'.db.trades.drop w.db.trades.length).any fun t => w'.db.orders.any fun o =>
        o.orderId = t.orderId ∧ o.side = .buy ∧ o.price.isSome = true ∧
        check (tradeInput w.db t "100" "0") =
          .error (.domain "RISK_INSUFFICIENT_MARGIN" "Insufficient margin: needed 1.2345, have 0" 422))
    (by decide +kernel)
  obtain ⟨w', hstep, hcheck⟩ := (Option.any_eq_true ..).mp hcheck
  obtain ⟨t, ht, hcheck⟩ := List.any_eq_true.mp hcheck
  obtain ⟨o, ho, hcheck⟩ := List.any_eq_true.mp hcheck
  obtain ⟨hid, hbuy, hpriced, hrejects⟩ := of_decide_eq_true hcheck
  refine ⟨_, w, .step 2 quiet, w', ⟨unfundedPurchase, [], rfl, hrun, hstep⟩, t, ht, o, ho, hid, hbuy, hpriced,
    hrejects, fun h => ?_⟩
  have hpasses := h.passes "100" "0"
  rw [hrejects] at hpasses
  exact absurd hpasses (by decide)

/-- A broker whose wallet holds 100. -/
def funded : Store :=
  { Store.empty with
    wallets := [⟨1, "W1", "B1", "USD"⟩]
    entries := [⟨2, "E1", "W1", .credit, .hundred, "USD", .deposit, "R1", "deposit"⟩] }

/-- It places a purchase, which is filled and charged to its wallet. -/
def fundedPurchase : List (Event OrderCall Input Failure) :=
  placing 1 (limitOrder "C1" "1" "1.2345") "01HX0000000000000000000001" ++
    [.start 2 .runJob, .step 2 quiet, .step 2 quiet, .step 2 (drawing "01HX0000000000000000000002"),
      .step 2 quiet, .step 2 quiet, .step 2 quiet, .step 2 quiet, .step 2 quiet, .step 2 (drawing "E2"),
      .step 2 quiet]

theorem margin_gate_funded : ∃ w,
    run (World.step platform (orders fillDigests "4")) (World.initial funded 3) fundedPurchase = some w ∧
    w.db.trades.length = 1 ∧
    ∀ u e u', Takes (World.step platform (orders fillDigests "4")) (World.initial funded 3) fundedPurchase u e u' →
      FillsMargined u u' := by
  obtain ⟨w, hrun, htrades⟩ := run_reaches (World.step platform (orders fillDigests "4"))
    (World.initial funded 3) fundedPurchase (fun w => w.db.trades.length = 1) (by decide +kernel)
  have hc : Along (World.step platform (orders fillDigests "4")) FillsAfforded (World.initial funded 3)
      fundedPurchase := by decide +kernel
  have hd : UniqueOrders funded := by simp [UniqueOrders, orderTerms, funded, Store.empty]
  exact ⟨w, hrun, of_decide_eq_true htrades, (margin_gate_iff hd _).mp hc⟩

end LpPlatform.RiskService
