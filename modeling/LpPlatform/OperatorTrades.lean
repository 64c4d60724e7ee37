import LpPlatform.CommissionLedger
import LpPlatform.OperationsDashboard
import LpPlatform.PageProfit
import LpPlatform.StableSorts
import LpPlatform.TwoStates

/-!
# The operators' pages of trades

One page lists the newest trades of all brokers. A row joins a trade with its
order and its broker, says whether the trade closes a position, and sums its
charges. The other page groups all trades by their symbol, with a count and the
last price. Each page is one statement, so it shows one state of a run. In every
state the charges of a row are the debit that the trade's broker has paid, and
the two pages agree.
-/

namespace LpPlatform.OperatorTrades

open Amounts CommissionLedger HashChain JsValues Ledger OperationsDashboard OrderFills OrderWorker PageProfit
open PortalReads RowStore Sessions StableSorts StatementProgram StepRuns Tables TradeChain TwoStates

/-- Whether a trade opens or closes a position. -/
inductive BookStatus where
  | open_
  | close
  deriving DecidableEq

/-- A row of the page of trades. -/
structure ABookTrade where
  tradeId : String
  broker : String
  user : Option String
  symbol : String
  side : String
  status : BookStatus
  quantity : String
  price : String
  charges : String
  executedAt : String

/-- Trades with their orders and their brokers. -/
def bookRows (brokers : List BrokerListing) (d : Store) : List (Trade × Order × BrokerListing) :=
  d.trades.flatMap fun t => (d.orders.filter fun o => o.orderId = t.orderId).flatMap fun o =>
    (brokers.filter fun b => b.brokerId = t.brokerId).map fun b => (t, o, b)

/-- The charges of a trade. -/
def chargesOf (d : Store) (tradeId : String) : List Numeric :=
  (d.charges.filter fun c => c.tradeId = tradeId).map (·.amount)

/-- A row as it is listed. -/
def bookItem (stamp : Instant → String) (d : Store) (row : Trade × Order × BrokerListing) : ABookTrade where
  tradeId := row.1.tradeId
  broker := row.2.2.displayName
  user := row.2.1.clientUserLabel
  symbol := row.1.symbol
  side := sideText row.1.side
  status := if ['-', 'C'].isSuffixOf row.2.1.clientOrderId.toList then .close else .open_
  quantity := row.1.quantity.text
  price := row.1.price.text
  charges := sumText (chargesOf d row.1.tradeId)
  executedAt := stamp row.1.executedAt

/-- `OperationsController.aBookTrades`. The brokers that the statement finds,
and the text of a time, are given. -/
def aBookTrades (brokers : Instant → List BrokerListing) (stamp : Instant → String) :
    Program (List ABookTrade) :=
  query fun v i => (newest (·.1.id) 200 (bookRows (brokers i.now) v.committed)).map
    (bookItem stamp v.committed)

/-- A symbol that has been traded. -/
structure Instrument where
  symbol : String
  trades : ℕ
  lastPrice : String

/-- The trades of a symbol. -/
def symbolTrades (symbol : String) (d : Store) : List Trade := d.trades.filter fun t => t.symbol = symbol

/-- The row of a symbol. -/
def instrument (d : Store) (symbol : String) : Instrument where
  symbol := symbol
  trades := (symbolTrades symbol d).length
  lastPrice := ((newest (·.id) 1 (symbolTrades symbol d)).head?.map (·.price.text)).getD "0"

/-- `OperationsController.instruments`. -/
def instruments : Program (List Instrument) :=
  query fun v i => ((anyOrder (v.committed.trades.map (·.symbol)).dedup i.pick).map
    (instrument v.committed)).insertionSort fun a b => b.trades ≤ a.trades

/-- A row that lists a trade as the books have it. -/
structure Listed (lot : String) (brokers : List BrokerListing) (d : Store) (t : Trade) (item : ABookTrade) :
    Prop where
  tradeId : item.tradeId = t.tradeId
  symbol : item.symbol = t.symbol
  price : item.price = t.price.text
  broker : ∃ b ∈ brokers, b.brokerId = t.brokerId ∧ item.broker = b.displayName
  /-- The charges are what the broker of the trade has been debited, if
  anything. -/
  order : ∃ o ∈ orderTerms.rows d, Fills o t ∧ item.user = o.clientUserLabel ∧
    (item.status = .close ↔ ['-', 'C'].isSuffixOf o.clientOrderId.toList = true) ∧
    ((Due lot o ∧ ∃ e, debitsOf d t.tradeId = [e] ∧ item.charges = e.amount.text) ∨
      (¬ Due lot o ∧ debitsOf d t.tradeId = [] ∧ item.charges = "0"))

section Rows

variable {brokers : List BrokerListing} {d : Store} {lot : String} {stamp : Instant → String}

theorem mem_bookRows {t : Trade} {o : Order} {b : BrokerListing} : (t, o, b) ∈ bookRows brokers d ↔
    t ∈ d.trades ∧ (o ∈ d.orders ∧ o.orderId = t.orderId) ∧ b ∈ brokers ∧ b.brokerId = t.brokerId := by
  simp only [bookRows, List.mem_flatMap, List.mem_filter, List.mem_map, decide_eq_true_eq, Prod.mk.injEq]
  constructor
  · rintro ⟨t, ht, o, ho, b, hb, rfl, rfl, rfl⟩
    exact ⟨ht, ho, hb⟩
  · rintro ⟨ht, ho, hb⟩
    exact ⟨t, ht, o, ho, b, hb, rfl, rfl, rfl⟩

/-- A key names one row. -/
theorem filter_key {ρ : Type} {key : ρ → String} {rows : List ρ} (hkeys : (rows.map key).Nodup) {r : ρ}
    (hr : r ∈ rows) : rows.filter (fun x => key x = key r) = [r] := by
  induction rows with
  | nil => simp at hr
  | cons x rows ih =>
    obtain ⟨hx, hrest⟩ := List.nodup_cons.mp hkeys
    rcases List.mem_cons.mp hr with rfl | hr
    · have hnone : rows.filter (fun y => key y = key r) = [] :=
        List.filter_eq_nil_iff.mpr fun y hy hsame =>
          hx (List.mem_map.mpr ⟨y, hy, of_decide_eq_true hsame⟩)
      simp [hnone]
    · have hne : key x ≠ key r := fun hsame => hx (hsame ▸ List.mem_map_of_mem hr)
      rw [List.filter_cons, if_neg (by simpa using hne), ih hrest hr]

/-- Every trade has one row. -/
theorem bookRows_trades (horders : (d.orders.map (·.orderId)).Nodup)
    (hids : (brokers.map (·.brokerId)).Nodup) (hordered : ∀ t ∈ d.trades, ∃ o ∈ d.orders, o.orderId = t.orderId)
    (howned : ∀ t ∈ d.trades, ∃ b ∈ brokers, b.brokerId = t.brokerId) :
    (bookRows brokers d).map (·.1) = d.trades := by
  rw [bookRows, List.map_flatMap]
  have hone : ∀ t ∈ d.trades, ((d.orders.filter fun o => o.orderId = t.orderId).flatMap fun o =>
      (brokers.filter fun b => b.brokerId = t.brokerId).map fun b => (t, o, b)).map (·.1) = [t] := by
    intro t ht
    obtain ⟨o, ho, hid⟩ := hordered t ht
    obtain ⟨b, hb, hbroker⟩ := howned t ht
    rw [← hid, ← hbroker, filter_key horders ho, filter_key hids hb]
    rfl
  rw [List.flatMap_congr hone, List.flatMap_singleton']

theorem sumText_one (x : Numeric) : sumText [x] = x.text := by
  simp [sumText, Numeric.text]

/-- Only commissions are charged. -/
theorem chargesOf_eq (h : BrokerageOnly d) (tradeId : String) :
    chargesOf d tradeId = (brokerageOf d tradeId).map (·.amount) := by
  rw [chargesOf, brokerageOf]
  refine congrArg _ (List.filter_congr fun c hc => ?_)
  simp [h.charges c hc]

/-- A row lists its trade as the books have it. -/
theorem listed_row (hbooks : Books lot d) (hbrokerage : BrokerageOnly d) {t : Trade} {o : Order}
    {b : BrokerListing} (hrow : (t, o, b) ∈ bookRows brokers d) :
    Listed lot brokers d t (bookItem stamp d (t, o, b)) := by
  obtain ⟨ht, ⟨ho, hid⟩, hb, hbroker⟩ := mem_bookRows.mp hrow
  obtain ⟨o', ho', hfills, hstate⟩ := hbooks.booked t ht
  have hterms : o.toOrderTerms ∈ orderTerms.rows d := List.mem_map_of_mem ho
  obtain rfl : o.toOrderTerms = o' :=
    List.inj_on_of_nodup_map hbooks.orders hterms ho' (hid.trans hfills.orderId)
  refine ⟨rfl, rfl, rfl, ⟨b, hb, hbroker, rfl⟩, o.toOrderTerms, hterms, hfills, rfl, ?_, ?_⟩
  · by_cases hclose : ['-', 'C'].isSuffixOf o.clientOrderId.toList = true <;> simp [bookItem, hclose]
  · have hcharges : (bookItem stamp d (t, o, b)).charges =
        sumText ((brokerageOf d t.tradeId).map (·.amount)) := congrArg sumText (chargesOf_eq hbrokerage _)
    rcases hstate with ⟨hdue, c, e, w, hc, he, hamount, -⟩ | ⟨hdue, hc, he⟩
    · refine Or.inl ⟨hdue, e, he, ?_⟩
      rw [hcharges, hc, List.map_singleton, sumText_one, hamount]
    · refine Or.inr ⟨hdue, he, ?_⟩
      rw [hcharges, hc]
      rfl

/-- The newest rows of what is made of rows. -/
theorem map_newest {ρ σ : Type} (id : σ → ℕ) (f : ρ → σ) (limit : ℕ) (rows : List ρ) :
    (newest (fun r => id (f r)) limit rows).map f = newest id limit (rows.map f) := by
  rw [newest, newest, List.map_take, List.map_insertionSort (fun a b => id (f b) ≤ id (f a))
    (fun a b => id b ≤ id a) f rows fun _ _ _ _ => Iff.rfl]

/-- The newest of the rows that pass. -/
theorem newest_filter {ρ : Type} (id : ρ → ℕ) (p : ρ → Bool) {rows : List ρ} {limit : ℕ}
    (hlimit : rows.length ≤ limit) : (newest id limit rows).filter p =
      (rows.filter p).insertionSort fun a b => id b ≤ id a := by
  have hall : (rows.insertionSort fun a b => id b ≤ id a).length ≤ limit := by
    rwa [List.length_insertionSort]
  rw [newest, List.take_of_length_le hall]
  exact filter_insertionSort (fun a b => le_total (id b) (id a)) (fun a b c hab hbc => hbc.trans hab) p rows

end Rows

section Runs

variable {H : Sha256} {lot : String} {d : Store} {n : ℕ} {es : List (Event OrderCall Input Failure)}
variable {w : OrderWorld} {brokers : List BrokerListing}

/-- What the pages rest on in every state of every run. -/
theorem booked_visits (hd : Uncharged d) (hcharges : d.charges = [])
    (h : Visits (World.step platform (orders H lot)) (World.initial d n) es w) :
    Books lot w.db ∧ BrokerageOnly w.db :=
  ⟨traded_visits (fun _ _ hvalid hws hd => books_traded hd hvalid hws) (books_uncharged hd) h,
    traded_visits (fun _ _ hvalid hws hd => brokerageOnly_traded hd hvalid hws)
      ⟨by simp [hd.trades], by simp [hcharges]⟩ h⟩

/-- A trade's row, where every trade has a broker. -/
theorem bookRows_books (hbooks : Books lot d) (hids : (brokers.map (·.brokerId)).Nodup)
    (howned : ∀ t ∈ d.trades, ∃ b ∈ brokers, b.brokerId = t.brokerId) :
    (bookRows brokers d).map (·.1) = d.trades := by
  have horders : (d.orders.map (·.orderId)).Nodup := by
    simpa [UniqueOrders, orderTerms, List.map_map, Function.comp_def] using hbooks.orders
  refine bookRows_trades horders hids (fun t ht => ?_) howned
  obtain ⟨o', ho', hfills, -⟩ := hbooks.booked t ht
  obtain ⟨o, ho, rfl⟩ := List.mem_map.mp ho'
  exact ⟨o, ho, hfills.orderId.symm⟩

/-- In every state of every run the page lists the newest trades of all
brokers, each once, with its order, its broker and the debit of its
commission. -/
theorem a_book_faithful (hd : Uncharged d) (hcharges : d.charges = [])
    (h : Visits (World.step platform (orders H lot)) (World.initial d n) es w)
    (hids : (brokers.map (·.brokerId)).Nodup)
    (howned : ∀ t ∈ w.db.trades, ∃ b ∈ brokers, b.brokerId = t.brokerId) (stamp : Instant → String)
    (i : Input) :
    ∃ items, answer (aBookTrades (fun _ => brokers) stamp) w.db [.ok i] = some (.ok items) ∧
      List.Forall₂ (Listed lot brokers w.db) (newest (·.id) 200 w.db.trades) items := by
  obtain ⟨hbooks, hbrokerage⟩ := booked_visits hd hcharges h
  refine ⟨_, rfl, ?_⟩
  have htrades := map_newest Trade.id Prod.fst 200 (bookRows brokers w.db)
  rw [bookRows_books hbooks hids howned] at htrades
  rw [← htrades, List.forall₂_map_left_iff, List.forall₂_map_right_iff]
  refine List.forall₂_same.mpr ?_
  rintro ⟨t, o, b⟩ hrow
  exact listed_row hbooks hbrokerage ((List.mem_insertionSort _).mp (List.mem_of_mem_take hrow))

/-- The rows of the page are those of the traded symbols, in some order. -/
theorem answer_instruments (i : Input) : ∃ rows, answer instruments d [.ok i] = some (.ok rows) ∧
    rows.Perm ((d.trades.map (·.symbol)).dedup.map (instrument d)) ∧
    rows.Pairwise fun a b => b.trades ≤ a.trades :=
  ⟨_, rfl, (List.perm_insertionSort _ _).trans ((anyOrder_perm _ _).map _),
    List.pairwise_insertionSort (fun a b : Instrument => b.trades ≤ a.trades) _⟩

/-- The trades of all symbols are all trades. -/
theorem sum_instruments : ((d.trades.map (·.symbol)).dedup.map fun s => (instrument d s).trades).sum =
    d.trades.length := by
  have hcount : ∀ s, (instrument d s).trades = (d.trades.map (·.symbol)).count s := fun s => by
    rw [List.count_eq_countP, List.countP_map, List.countP_eq_length_filter]
    rfl
  simp only [hcount]
  rw [List.sum_map_count_dedup_eq_length, List.length_map]

theorem listed_columns {ts : List Trade} {items : List ABookTrade}
    (h : List.Forall₂ (Listed lot brokers d) ts items) :
    items.map (fun x => (x.symbol, x.price)) = ts.map fun t => (t.symbol, t.price.text) := by
  induction h with
  | nil => rfl
  | cons hrow _ ih => rw [List.map_cons, List.map_cons, ih, hrow.symbol, hrow.price]

/-- Where all trades are listed, a symbol has as many of them as its row says,
and the first of them has its price. -/
theorem instrument_listed {items : List ABookTrade} (hlength : d.trades.length ≤ 200)
    (hitems : List.Forall₂ (Listed lot brokers d) (newest (·.id) 200 d.trades) items) {symbol : String}
    (hsymbol : ∃ t ∈ d.trades, t.symbol = symbol) :
    (instrument d symbol).trades = (items.filter fun x => x.symbol = symbol).length ∧
      (items.find? fun x => x.symbol = symbol).map (·.price) = some (instrument d symbol).lastPrice := by
  have hcolumns := listed_columns hitems
  obtain ⟨t, ht, hsame⟩ := hsymbol
  have hsorted := newest_filter Trade.id (fun t => decide (t.symbol = symbol)) hlength
  have hne : symbolTrades symbol d ≠ [] :=
    List.ne_nil_of_mem (List.mem_filter.mpr ⟨ht, decide_eq_true hsame⟩)
  have hhead : ∃ last, (newest Trade.id 1 (symbolTrades symbol d)).head? = some last := by
    rw [newest, List.head?_take, if_neg one_ne_zero]
    cases hrows : (symbolTrades symbol d).insertionSort fun a b => b.id ≤ a.id with
    | nil => exact absurd ((List.perm_insertionSort _ _).symm.trans (.of_eq hrows)).eq_nil hne
    | cons last rows => exact ⟨last, rfl⟩
  constructor
  · calc (instrument d symbol).trades
        = ((newest Trade.id 200 d.trades).filter fun t => t.symbol = symbol).length := by
          rw [hsorted, List.length_insertionSort]
          rfl
      _ = (((newest Trade.id 200 d.trades).map fun t => (t.symbol, t.price.text)).filter
          fun c => c.1 = symbol).length := by
          rw [List.filter_map, List.length_map]
          rfl
      _ = (items.filter fun x => x.symbol = symbol).length := by
          rw [← hcolumns, List.filter_map, List.length_map]
          rfl
  · calc (items.find? fun x => x.symbol = symbol).map (·.price)
        = ((items.map fun x => (x.symbol, x.price)).find? fun c => c.1 = symbol).map (·.2) := by
          rw [List.find?_map, Option.map_map]
          rfl
      _ = ((newest Trade.id 200 d.trades).find? fun t => t.symbol = symbol).map (·.price.text) := by
          rw [hcolumns, List.find?_map, Option.map_map]
          rfl
      _ = (newest Trade.id 1 (symbolTrades symbol d)).head?.map (·.price.text) := by
          rw [← List.head?_filter, hsorted, newest, List.head?_take, if_neg one_ne_zero]
          rfl
      _ = some (instrument d symbol).lastPrice := by
          obtain ⟨last, hlast⟩ := hhead
          rw [instrument, hlast]
          rfl

/-- In every state of every run the page of symbols names each traded symbol
once, the most traded first, and its counts add up to all trades. As long as
the page of trades has room for all of them, a symbol is listed there as often
as it is counted, and its last price is that of the first row. -/
theorem instruments_agree (hd : Uncharged d) (hcharges : d.charges = [])
    (h : Visits (World.step platform (orders H lot)) (World.initial d n) es w)
    (hids : (brokers.map (·.brokerId)).Nodup)
    (howned : ∀ t ∈ w.db.trades, ∃ b ∈ brokers, b.brokerId = t.brokerId) (stamp : Instant → String)
    (i j : Input) :
    ∃ items rows, answer (aBookTrades (fun _ => brokers) stamp) w.db [.ok i] = some (.ok items) ∧
      answer instruments w.db [.ok j] = some (.ok rows) ∧
      (rows.map (·.symbol)).Nodup ∧ rows.Pairwise (fun a b => b.trades ≤ a.trades) ∧
      (rows.map (·.trades)).sum = w.db.trades.length ∧
      (w.db.trades.length ≤ 200 → ∀ row ∈ rows,
        row.trades = (items.filter fun x => x.symbol = row.symbol).length ∧
        (items.find? fun x => x.symbol = row.symbol).map (·.price) = some row.lastPrice) := by
  obtain ⟨items, hanswer, hitems⟩ := a_book_faithful hd hcharges h hids howned stamp i
  obtain ⟨rows, hrows, hperm, hsorted⟩ := answer_instruments (d := w.db) j
  have hsymbols : (rows.map (·.symbol)).Perm (w.db.trades.map (·.symbol)).dedup := by
    simpa [List.map_map, Function.comp_def, instrument] using hperm.map (·.symbol)
  refine ⟨items, rows, hanswer, hrows, hsymbols.nodup_iff.mpr (List.nodup_dedup _), hsorted, ?_,
    fun hlength row hrow => ?_⟩
  · rw [(hperm.map (·.trades)).sum_eq, List.map_map]
    exact sum_instruments
  · obtain ⟨symbol, hsymbol, rfl⟩ := List.mem_map.mp (hperm.mem_iff.mp hrow)
    exact instrument_listed hlength hitems (List.mem_map.mp (List.mem_dedup.mp hsymbol))

end Runs

/-- The broker of the example. -/
def oneListed : List BrokerListing := [⟨"B1", "Broker", "b@example.com", .active, 0⟩]

/-- All trades of a store are of that broker. -/
def ofOneBroker (d : Store) : Bool := d.trades.all fun t => t.brokerId = "B1"

theorem owned_oneListed {d : Store} (h : ofOneBroker d = true) :
    ∀ t ∈ d.trades, ∃ b ∈ oneListed, b.brokerId = t.brokerId := fun t ht =>
  ⟨_, List.mem_cons_self, (of_decide_eq_true (List.all_eq_true.mp h t ht)).symm⟩

/-- What the page of trades shows. -/
abbrev listedBook (d : Store) : List ABookTrade :=
  (newest (·.1.id) 200 (bookRows oneListed d)).map (bookItem toISOString d)

theorem a_book_closed : ∃ w items,
    run (World.step platform (orders fillDigests "4")) (World.initial Store.empty 0) (openedAndClosed "C1") =
      some w ∧
    answer (aBookTrades (fun _ => oneListed) toISOString) w.db [.ok quiet] = some (.ok items) ∧
    items.map (fun x => (x.status, x.charges)) = [(.close, "0"), (.open_, "4.0000")] ∧
    List.Forall₂ (Listed "4" oneListed w.db) (newest (·.id) 200 w.db.trades) items := by
  obtain ⟨w, hrun, hcheck⟩ := run_reaches (World.step platform (orders fillDigests "4"))
    (World.initial Store.empty 0) (openedAndClosed "C1")
    (fun w => ofOneBroker w.db ∧ (listedBook w.db).map (fun x => (x.status, x.charges)) =
      [(.close, "0"), (.open_, "4.0000")]) (by decide +kernel)
  obtain ⟨howned, hshown⟩ := of_decide_eq_true hcheck
  obtain ⟨items, hanswer, hlisted⟩ := a_book_faithful uncharged_empty rfl (visits_last hrun) (by decide)
    (owned_oneListed howned) toISOString quiet
  obtain rfl : listedBook w.db = items := Except.ok.inj (Option.some.inj hanswer)
  exact ⟨w, _, hrun, hanswer, hshown, hlisted⟩

theorem instruments_closed : ∃ w items rows,
    run (World.step platform (orders fillDigests "4")) (World.initial Store.empty 0) (openedAndClosed "C1") =
      some w ∧
    answer (aBookTrades (fun _ => oneListed) toISOString) w.db [.ok quiet] = some (.ok items) ∧
    answer instruments w.db [.ok quiet] = some (.ok rows) ∧ (rows.map (·.trades)).sum = 2 ∧
    ∀ row ∈ rows, row.trades = (items.filter fun x => x.symbol = row.symbol).length := by
  obtain ⟨w, hrun, hcheck⟩ := run_reaches (World.step platform (orders fillDigests "4"))
    (World.initial Store.empty 0) (openedAndClosed "C1")
    (fun w => ofOneBroker w.db ∧ w.db.trades.length = 2) (by decide +kernel)
  obtain ⟨howned, hlength⟩ := of_decide_eq_true hcheck
  obtain ⟨items, rows, hitems, hrows, -, -, hsum, hagree⟩ := instruments_agree uncharged_empty rfl
    (visits_last hrun) (by decide) (owned_oneListed howned) toISOString quiet quiet
  exact ⟨w, items, rows, hrun, hitems, hrows, hsum.trans hlength,
    fun row hrow => (hagree (by omega) row hrow).1⟩

end LpPlatform.OperatorTrades
