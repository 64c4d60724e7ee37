import LpPlatform.OrderFills

/-!
# Commissions are charged and debited together

The commission of a fill is a BROKERAGE charge of the trade and a CHARGE debit
of a wallet of the broker, written in the transaction of the trade. Along
every run a trade has either one of each, of one amount, or none, as its order
and the fee say, so that over all trades of a broker the charges sum to the
debits.
-/

namespace LpPlatform.CommissionLedger

open Amounts HashChain InterferenceLogic JsValues Ledger OrderFills OrderIntake OrderWorker RowStore
open Sessions StatementProgram StepRuns Tables TradeChain

/-- The BROKERAGE charges of a trade. -/
def brokerageOf (d : Store) (tradeId : String) : List Charge :=
  d.charges.filter fun c => c.type = .brokerage ∧ c.tradeId = tradeId

/-- A debit of a charge. -/
def isChargeDebit (e : LedgerEntry) : Bool := e.referenceType = .charge ∧ e.direction = .debit

/-- The CHARGE debits that reference a trade. -/
def debitsOf (d : Store) (tradeId : String) : List LedgerEntry :=
  d.entries.filter fun e => isChargeDebit e ∧ e.referenceId = tradeId

/-- One charge and one debit of the same amount, on a wallet of the broker. -/
def Charged (d : Store) (t : Trade) : Prop :=
  ∃ c e w, brokerageOf d t.tradeId = [c] ∧ debitsOf d t.tradeId = [e] ∧ c.amount = e.amount ∧
    w ∈ d.wallets ∧ w.walletId = e.walletId ∧ w.brokerId = t.brokerId

/-- No charge and no debit. -/
def Exempt (d : Store) (t : Trade) : Prop :=
  brokerageOf d t.tradeId = [] ∧ debitsOf d t.tradeId = []

/-- The order is no close leg and the fee times its quantity is positive. -/
def Due (lot : String) (o : OrderTerms) : Prop :=
  ¬ ['-', 'C'].isSuffixOf o.clientOrderId.toList = true ∧
    ∃ perLot, Money.new lot = .ok perLot ∧ 0 < perLot.value * o.quantity.value

/-- The sum of a broker's BROKERAGE charges, joined with its trades. -/
def brokerageUnits (d : Store) (brokerId : String) : ℤ :=
  ((d.charges.filter fun c => c.type = .brokerage ∧
    d.trades.any fun t => t.tradeId = c.tradeId ∧ t.brokerId = brokerId).map (·.amount.units)).sum

/-- The sum of the CHARGE debits on a broker's wallets. -/
def debitUnits (d : Store) (brokerId : String) : ℤ :=
  ((d.entries.filter fun e => isChargeDebit e ∧
    d.wallets.any fun w => w.walletId = e.walletId ∧ w.brokerId = brokerId).map
      (·.amount.units)).sum

/-- Whether a commission is due, from the pure function that the fill uses. -/
theorem commissionDue_iff {lot : String} {o : Order} {quantity : Money} {due : Option Money}
    (hquantity : Money.new o.quantity.text = .ok quantity)
    (h : commissionDue lot (orderRow o) quantity.toString = .ok due) :
    due.isSome = true ↔ Due lot o.toOrderTerms := by
  obtain ⟨perLot, hlot, h⟩ := Charges.bind_ok h
  obtain ⟨lots, hlots, h⟩ := Charges.bind_ok h
  have hvalue : lots.value = o.quantity.value := by
    obtain ⟨m, hm, hvalue, -⟩ := new_toString quantity
    obtain rfl := Except.ok.inj (hm.symm.trans hlots)
    have hl : DecimalText.literal? o.quantity.text.toList =
        some ⟨decide (o.quantity.units < 0), o.quantity.units.natAbs, 4⟩ := by
      rw [Numeric.text, String.toList_ofList, DecimalText.literal?_fixed]
    rw [new_of_literal hl] at hquantity
    obtain rfl := Except.ok.inj hquantity
    rw [hvalue, litValue_ofLiteral, litValue_units, Numeric.value]
  have hclose : (orderRow o).isClose = ['-', 'C'].isSuffixOf o.clientOrderId.toList := rfl
  have hpositive := mul_isPositive perLot lots
  rw [hvalue] at hpositive
  obtain rfl := Except.ok.inj h
  rw [Due, ← hclose]
  constructor
  · intro hdue
    split at hdue
    · rename_i hboth
      simp only [Bool.and_eq_true, Bool.not_eq_true'] at hboth
      exact ⟨by simp [hboth.1], perLot, hlot, hpositive.mp hboth.2⟩
    · simp at hdue
  · rintro ⟨hopen, perLot', hlot', hdue⟩
    obtain rfl := Except.ok.inj (hlot.symm.trans hlot')
    rw [if_pos]
    · rfl
    · simp [hopen, hpositive.mpr hdue]

/-- The books of charges, debits and trades. -/
structure Books (lot : String) (d : Store) : Prop where
  /-- An order id names one order. -/
  orders : UniqueOrders d
  /-- A wallet id names one wallet. -/
  wallets : (d.wallets.map (·.walletId)).Nodup
  /-- A trade id names one trade. -/
  trades : (d.trades.map (·.tradeId)).Nodup
  /-- A BROKERAGE charge is of a trade. -/
  charges : ∀ c ∈ d.charges, c.type = .brokerage → ∃ t ∈ d.trades, t.tradeId = c.tradeId
  /-- A CHARGE debit is of a trade, on a wallet. -/
  debits : ∀ e ∈ d.entries, isChargeDebit e = true →
    (∃ t ∈ d.trades, t.tradeId = e.referenceId) ∧ ∃ w ∈ d.wallets, w.walletId = e.walletId
  /-- A trade is charged when a commission is due, and exempt otherwise. -/
  booked : ∀ t ∈ d.trades, ∃ o ∈ orderTerms.rows d, Fills o t ∧
    ((Due lot o ∧ Charged d t) ∨ (¬ Due lot o ∧ Exempt d t))
  /-- The charges of a broker sum to the debits of its wallets. -/
  totals : ∀ brokerId, brokerageUnits d brokerId = debitUnits d brokerId

/-- A store in which nothing has been traded or charged yet. -/
structure Uncharged (d : Store) : Prop where
  orders : UniqueOrders d
  wallets : (d.wallets.map (·.walletId)).Nodup
  trades : d.trades = []
  charges : ∀ c ∈ d.charges, c.type ≠ .brokerage
  debits : ∀ e ∈ d.entries, isChargeDebit e = false

theorem books_uncharged {lot : String} {d : Store} (h : Uncharged d) : Books lot d where
  orders := h.orders
  wallets := h.wallets
  trades := by simp [h.trades]
  charges c hc hbrokerage := absurd hbrokerage (h.charges c hc)
  debits e he hdebit := by simp [h.debits e he] at hdebit
  booked t ht := by simp [h.trades] at ht
  totals brokerId := by
    have hcharges : (d.charges.filter fun c => c.type = .brokerage ∧
        d.trades.any fun t => t.tradeId = c.tradeId ∧ t.brokerId = brokerId) = [] :=
      List.filter_eq_nil_iff.mpr fun c hc hboth => h.charges c hc (of_decide_eq_true hboth).1
    have hdebits : (d.entries.filter fun e => isChargeDebit e ∧
        d.wallets.any fun w => w.walletId = e.walletId ∧ w.brokerId = brokerId) = [] :=
      List.filter_eq_nil_iff.mpr fun e he hboth => by
        simp [h.debits e he] at hboth
    rw [brokerageUnits, debitUnits, hcharges, hdebits]
    rfl

/-- What a fill adds to the books. -/
structure Added (d d' : Store) (trade : Trade) (cs : List Charge) (ws : List Wallet)
    (es : List LedgerEntry) : Prop where
  orders : orderTerms.rows d' = orderTerms.rows d
  trades : d'.trades = d.trades ++ [trade]
  charges : d'.charges = d.charges ++ cs
  wallets : d'.wallets = d.wallets ++ ws
  entries : d'.entries = d.entries ++ es
  /-- Ids stay unique. -/
  uniqueTrades : (d'.trades.map (·.tradeId)).Nodup
  uniqueWallets : (d'.wallets.map (·.walletId)).Nodup

section Rules

variable {lot : String} {d d' : Store} {trade : Trade} {cs : List Charge} {ws : List Wallet}
variable {es : List LedgerEntry}

/-- The new trade has an id of its own. -/
theorem added_fresh (h : Added d d' trade cs ws es) : ∀ t ∈ d.trades, t.tradeId ≠ trade.tradeId := by
  intro t ht hsame
  have hnodup := h.uniqueTrades
  rw [h.trades, List.map_append, List.nodup_append] at hnodup
  exact hnodup.2.2 _ (List.mem_map_of_mem ht) _ (by simp) hsame

/-- Nothing has been charged for a trade that is not there yet. -/
theorem fresh_exempt (hbooks : Books lot d) (h : Added d d' trade cs ws es) : Exempt d trade := by
  constructor
  · refine List.filter_eq_nil_iff.mpr fun c hc hboth => ?_
    obtain ⟨hbrokerage, hid⟩ := of_decide_eq_true hboth
    obtain ⟨t, ht, hsame⟩ := hbooks.charges c hc hbrokerage
    exact added_fresh h t ht (hsame.trans hid)
  · refine List.filter_eq_nil_iff.mpr fun e he hboth => ?_
    obtain ⟨hdebit, hid⟩ := of_decide_eq_true hboth
    obtain ⟨⟨t, ht, hsame⟩, -⟩ := hbooks.debits e he hdebit
    exact added_fresh h t ht (hsame.trans hid)

/-- The charges of a broker grow by the new ones. -/
theorem brokerageUnits_added (hbooks : Books lot d) (h : Added d d' trade cs ws es)
    (hcs : ∀ c ∈ cs, c.type = .brokerage ∧ c.tradeId = trade.tradeId) (brokerId : String) :
    brokerageUnits d' brokerId = brokerageUnits d brokerId +
      if trade.brokerId = brokerId then (cs.map (·.amount.units)).sum else 0 := by
  have hold : ∀ c ∈ d.charges, (decide (c.type = .brokerage ∧
      d'.trades.any fun t => t.tradeId = c.tradeId ∧ t.brokerId = brokerId)) =
      decide (c.type = .brokerage ∧
        d.trades.any fun t => t.tradeId = c.tradeId ∧ t.brokerId = brokerId) := by
    intro c hc
    by_cases hbrokerage : c.type = .brokerage
    · obtain ⟨t, ht, hsame⟩ := hbooks.charges c hc hbrokerage
      have ht' : t ∈ d'.trades := h.trades ▸ List.mem_append_left _ ht
      rw [← hsame, any_owner h.uniqueTrades ht', any_owner hbooks.trades ht]
    · simp [hbrokerage]
  have hnew : ∀ c ∈ cs, (decide (c.type = .brokerage ∧
      d'.trades.any fun t => t.tradeId = c.tradeId ∧ t.brokerId = brokerId)) =
      decide (trade.brokerId = brokerId) := by
    intro c hc
    have htrade : trade ∈ d'.trades := h.trades ▸ List.mem_append_right _ (by simp)
    rw [(hcs c hc).2, any_owner h.uniqueTrades htrade]
    simp [(hcs c hc).1]
  rw [brokerageUnits, h.charges, List.filter_append, List.filter_congr hold, List.filter_congr hnew,
    List.map_append, List.sum_append, brokerageUnits]
  by_cases hb : trade.brokerId = brokerId <;> simp [hb]

/-- The debits on a broker's wallets grow by the new ones. -/
theorem debitUnits_added (hbooks : Books lot d) (h : Added d d' trade cs ws es) {wallet : Wallet}
    (hwallet : wallet ∈ d'.wallets)
    (hes : ∀ e ∈ es, isChargeDebit e = true ∧ e.walletId = wallet.walletId) (brokerId : String) :
    debitUnits d' brokerId = debitUnits d brokerId +
      if wallet.brokerId = brokerId then (es.map (·.amount.units)).sum else 0 := by
  have hold : ∀ e ∈ d.entries, (decide (isChargeDebit e ∧
      d'.wallets.any fun w => w.walletId = e.walletId ∧ w.brokerId = brokerId)) =
      decide (isChargeDebit e ∧
        d.wallets.any fun w => w.walletId = e.walletId ∧ w.brokerId = brokerId) := by
    intro e he
    by_cases hdebit : isChargeDebit e = true
    · obtain ⟨-, w, hw, hsame⟩ := hbooks.debits e he hdebit
      have hw' : w ∈ d'.wallets := h.wallets ▸ List.mem_append_left _ hw
      rw [← hsame, any_owner h.uniqueWallets hw', any_owner hbooks.wallets hw]
    · simp [hdebit]
  have hnew : ∀ e ∈ es, (decide (isChargeDebit e ∧
      d'.wallets.any fun w => w.walletId = e.walletId ∧ w.brokerId = brokerId)) =
      decide (wallet.brokerId = brokerId) := by
    intro e he
    rw [(hes e he).2, any_owner h.uniqueWallets hwallet]
    simp [(hes e he).1]
  rw [debitUnits, h.entries, List.filter_append, List.filter_congr hold, List.filter_congr hnew,
    List.map_append, List.sum_append, debitUnits]
  by_cases hb : wallet.brokerId = brokerId <;> simp [hb]

/-- What earlier trades were charged stays. -/
theorem brokerageOf_added (h : Added d d' trade cs ws es)
    (hcs : ∀ c ∈ cs, c.type = .brokerage ∧ c.tradeId = trade.tradeId) {t : Trade} (ht : t ∈ d.trades) :
    brokerageOf d' t.tradeId = brokerageOf d t.tradeId := by
  have hnone : (cs.filter fun c => c.type = .brokerage ∧ c.tradeId = t.tradeId) = [] :=
    List.filter_eq_nil_iff.mpr fun c hc hboth =>
      added_fresh h t ht ((of_decide_eq_true hboth).2.symm.trans (hcs c hc).2)
  rw [brokerageOf, h.charges, List.filter_append, hnone, List.append_nil, brokerageOf]

theorem debitsOf_added (h : Added d d' trade cs ws es)
    (hes : ∀ e ∈ es, isChargeDebit e = true ∧ e.referenceId = trade.tradeId) {t : Trade}
    (ht : t ∈ d.trades) : debitsOf d' t.tradeId = debitsOf d t.tradeId := by
  have hnone : (es.filter fun e => isChargeDebit e ∧ e.referenceId = t.tradeId) = [] :=
    List.filter_eq_nil_iff.mpr fun e he hboth =>
      added_fresh h t ht ((of_decide_eq_true hboth).2.symm.trans (hes e he).2)
  rw [debitsOf, h.entries, List.filter_append, hnone, List.append_nil, debitsOf]

/-- A fill keeps the books when it charges its own trade as it should and
keeps the totals equal. -/
theorem books_added (hbooks : Books lot d) (h : Added d d' trade cs ws es)
    (hcs : ∀ c ∈ cs, c.type = .brokerage ∧ c.tradeId = trade.tradeId)
    (hes : ∀ e ∈ es, isChargeDebit e = true ∧ e.referenceId = trade.tradeId)
    (hon : ∀ e ∈ es, ∃ w ∈ d'.wallets, w.walletId = e.walletId) {o : OrderTerms}
    (ho : o ∈ orderTerms.rows d) (hfills : Fills o trade)
    (hnew : (Due lot o ∧ Charged d' trade) ∨ (¬ Due lot o ∧ Exempt d' trade))
    (htotals : ∀ brokerId, brokerageUnits d' brokerId = debitUnits d' brokerId) : Books lot d' where
  orders := by
    rw [UniqueOrders, h.orders]
    exact hbooks.orders
  wallets := h.uniqueWallets
  trades := h.uniqueTrades
  charges c hc hbrokerage := by
    rw [h.charges, List.mem_append] at hc
    rw [h.trades]
    rcases hc with hc | hc
    · obtain ⟨t, ht, hid⟩ := hbooks.charges c hc hbrokerage
      exact ⟨t, List.mem_append_left _ ht, hid⟩
    · exact ⟨trade, List.mem_append_right _ (by simp), (hcs c hc).2.symm⟩
  debits e he hdebit := by
    rw [h.entries, List.mem_append] at he
    rcases he with he | he
    · obtain ⟨⟨t, ht, hid⟩, w, hw, hwid⟩ := hbooks.debits e he hdebit
      rw [h.trades, h.wallets]
      exact ⟨⟨t, List.mem_append_left _ ht, hid⟩, w, List.mem_append_left _ hw, hwid⟩
    · refine ⟨?_, hon e he⟩
      rw [h.trades]
      exact ⟨trade, List.mem_append_right _ (by simp), (hes e he).2.symm⟩
  booked t ht := by
    rw [h.trades, List.mem_append, List.mem_singleton] at ht
    rw [h.orders]
    rcases ht with ht | rfl
    · obtain ⟨o', ho', hfills', hstate⟩ := hbooks.booked t ht
      refine ⟨o', ho', hfills', hstate.imp (fun hcharged => ⟨hcharged.1, ?_⟩)
        fun hexempt => ⟨hexempt.1, ?_⟩⟩
      · obtain ⟨c, e, w, hc, he, hamount, hw, hwid, hbroker⟩ := hcharged.2
        rw [← brokerageOf_added h hcs ht] at hc
        rw [← debitsOf_added h hes ht] at he
        exact ⟨c, e, w, hc, he, hamount, h.wallets ▸ List.mem_append_left _ hw, hwid, hbroker⟩
      · rw [Exempt, brokerageOf_added h hcs ht, debitsOf_added h hes ht]
        exact hexempt.2
    · exact ⟨o, ho, hfills, hnew⟩
  totals := htotals

/-- A trade without a commission keeps the books. -/
theorem books_exempt (hbooks : Books lot d) (h : Added d d' trade [] [] []) {o : OrderTerms}
    (ho : o ∈ orderTerms.rows d) (hfills : Fills o trade) (hdue : ¬ Due lot o) : Books lot d' := by
  obtain ⟨hbrokerage, hdebits⟩ := fresh_exempt hbooks h
  have hcharges : d'.charges = d.charges := h.charges.trans (List.append_nil _)
  have hentries : d'.entries = d.entries := h.entries.trans (List.append_nil _)
  have hwallets : d'.wallets = d.wallets := h.wallets.trans (List.append_nil _)
  have hexempt : Exempt d' trade := by
    rw [Exempt, brokerageOf, debitsOf, hcharges, hentries]
    exact ⟨hbrokerage, hdebits⟩
  refine books_added hbooks h (by simp) (by simp) (by simp) ho hfills (Or.inr ⟨hdue, hexempt⟩)
    fun brokerId => ?_
  rw [brokerageUnits_added hbooks h (by simp), debitUnits, hentries, hwallets, ← debitUnits,
    hbooks.totals]
  simp

/-- A trade with its charge and debit keeps the books. -/
theorem books_charged (hbooks : Books lot d) {charge : Charge} {entryRow : LedgerEntry}
    (h : Added d d' trade [charge] ws [entryRow]) {o : OrderTerms} (ho : o ∈ orderTerms.rows d)
    (hfills : Fills o trade) (hdue : Due lot o) {wallet : Wallet} (hwallet : wallet ∈ d'.wallets)
    (hentry : CommissionEntry trade.brokerId trade charge wallet entryRow) : Books lot d' := by
  obtain ⟨hbrokerage, hdebits⟩ := fresh_exempt hbooks h
  have hcharge : charge.type = .brokerage ∧ charge.tradeId = trade.tradeId :=
    ⟨hentry.type, hentry.tradeId⟩
  have hdebit : isChargeDebit entryRow = true ∧ entryRow.referenceId = trade.tradeId :=
    ⟨decide_eq_true ⟨hentry.referenceType, hentry.direction⟩, hentry.referenceId⟩
  have hcharged : Charged d' trade := by
    refine ⟨charge, entryRow, wallet, ?_, ?_, hentry.amount.symm, hwallet, hentry.walletId.symm,
      hentry.broker⟩
    · rw [brokerageOf, h.charges, List.filter_append, ← brokerageOf, hbrokerage]
      simp [hcharge]
    · rw [debitsOf, h.entries, List.filter_append, ← debitsOf, hdebits]
      simp [hdebit]
  refine books_added hbooks h (by simpa using hcharge) (by simpa using hdebit)
    (by simpa using ⟨wallet, hwallet, hentry.walletId.symm⟩) ho hfills (Or.inl ⟨hdue, hcharged⟩)
    fun brokerId => ?_
  rw [brokerageUnits_added hbooks h (by simpa using hcharge),
    debitUnits_added hbooks h hwallet (by simpa using ⟨hdebit.1, hentry.walletId⟩),
    hbooks.totals, hentry.broker, List.map_singleton, List.map_singleton, hentry.amount]

end Rules

/-- The rows after the commit of a fill, by the kind of its commission. -/
theorem books_fill {H : Sha256} {lot : String} {d : Store} {o : Order} {trade : Trade}
    {rest : List Write} (hbooks : Books lot d)
    (hvalid : platform.validAll d (.insertTrade trade :: rest) = true)
    (hfill : FillCommit H lot d o trade rest) :
    Books lot (platform.applyAll d (.insertTrade trade :: rest)) := by
  obtain ⟨horders, htrades⟩ := fill_rows hfill
  obtain ⟨quantity, hquantity, hcommission⟩ := hfill.commission
  obtain ⟨htrade, hrest⟩ := Bool.and_eq_true_iff.mp hvalid
  have huniqueTrades : ((d.trades ++ [trade]).map (·.tradeId)).Nodup :=
    nodup_insert hbooks.trades (Bool.and_eq_true_iff.mp htrade).1
  cases hcommission with
  | exempt hdue =>
    have hnotDue : ¬ Due lot o.toOrderTerms := by
      rw [← commissionDue_iff hquantity hdue]
      simp
    exact books_exempt hbooks ⟨horders, htrades, (List.append_nil _).symm, (List.append_nil _).symm,
      (List.append_nil _).symm, htrades ▸ huniqueTrades, hbooks.wallets⟩ hfill.order hfill.fills
      hnotDue
  | @charged commission charge wallet pre entryRow hdue hamount hwallet hentry =>
    have hisDue : Due lot o.toOrderTerms := (commissionDue_iff hquantity hdue).mp rfl
    have hentry' : CommissionEntry trade.brokerId trade charge wallet entryRow := by
      rw [hfill.fills.brokerId]
      exact hentry
    rcases hwallet with ⟨rfl, hmem⟩ | rfl
    · have hadded : Added d (platform.applyAll d [.insertTrade trade, .insertCharge charge,
          .insertEntry entryRow]) trade [charge] [] [entryRow] :=
        ⟨horders, htrades, rfl, (List.append_nil _).symm, rfl, htrades ▸ huniqueTrades,
          hbooks.wallets⟩
      exact books_charged hbooks hadded hfill.order hfill.fills hisDue hmem hentry'
    · have hwallet : (rowsAt (·.walletId) wallet.walletId d.wallets).isEmpty = true := by
        simp only [List.cons_append, List.nil_append, validAll_cons, Bool.and_eq_true] at hrest
        exact hrest.2.1
      have hadded : Added d (platform.applyAll d [.insertTrade trade, .insertCharge charge,
          .insertWallet wallet, .insertEntry entryRow]) trade [charge] [wallet] [entryRow] :=
        ⟨horders, htrades, rfl, rfl, rfl, htrades ▸ huniqueTrades,
          nodup_insert hbooks.wallets hwallet⟩
      exact books_charged hbooks hadded hfill.order hfill.fills hisDue
        (List.mem_append_right _ (by simp)) hentry'

/-- Every commit keeps the books. -/
theorem books_traded {H : Sha256} {lot : String} {d : Store} {ws : List Write} (h : Books lot d)
    (hvalid : platform.validAll d ws = true) (hws : Traded H lot d ws) :
    Books lot (platform.applyAll d ws) := by
  have horders := uniqueOrders_applyAll h.orders hvalid
  cases hws with
  | @order dto row hrow hstatus =>
    have hrows : ∀ o ∈ orderTerms.rows d, o ∈ orderTerms.rows (d.apply (.insertOrder row)) :=
      fun o ho => orderTerms.mono [.insertOrder row] ho
    refine ⟨horders, h.wallets, h.trades, h.charges, h.debits, fun t ht => ?_, h.totals⟩
    obtain ⟨o, ho, hbooked⟩ := h.booked t ht
    exact ⟨o, hrows o ho, hbooked⟩
  | job => exact ⟨horders, h.wallets, h.trades, h.charges, h.debits, h.booked, h.totals⟩
  | audit => exact ⟨horders, h.wallets, h.trades, h.charges, h.debits, h.booked, h.totals⟩
  | move => exact ⟨horders, h.wallets, h.trades, h.charges, h.debits, h.booked, h.totals⟩
  | fill hfill => exact books_fill h hvalid hfill
  | mark =>
    refine ⟨horders, h.wallets, h.trades, h.charges, h.debits, fun t ht => ?_, h.totals⟩
    rw [mark_rows]
    exact h.booked t ht

theorem not_charged_exempt {d : Store} {t : Trade} (hexempt : Exempt d t) : ¬ Charged d t := by
  rintro ⟨c, e, w, hc, -⟩
  rw [hexempt.1] at hc
  simp at hc

/-- In every state of every run a trade has one charge and one debit of the
same amount on a wallet of its broker, or neither. It has them exactly when a
commission is due, and the charges of a broker sum to its debits. -/
theorem commissions_conserved {H : Sha256} {lot : String} {d : Store} {n : ℕ} (hd : Uncharged d)
    {es : List (Event OrderCall Input Failure)} {w : OrderWorld}
    (h : Visits (World.step platform (orders H lot)) (World.initial d n) es w) :
    (∀ t ∈ w.db.trades, (Charged w.db t ∨ Exempt w.db t) ∧
      (∃ o ∈ orderTerms.rows w.db, Fills o t) ∧
      ∀ o ∈ orderTerms.rows w.db, o.orderId = t.orderId → (Charged w.db t ↔ Due lot o)) ∧
    ∀ brokerId, brokerageUnits w.db brokerId = debitUnits w.db brokerId := by
  have hbooks : Books lot w.db :=
    traded_visits (fun _ _ hvalid hws hd => books_traded hd hvalid hws) (books_uncharged hd) h
  refine ⟨fun t ht => ?_, hbooks.totals⟩
  obtain ⟨o, ho, hfills, hstate⟩ := hbooks.booked t ht
  refine ⟨hstate.imp And.right And.right, ⟨o, ho, hfills⟩, fun o' ho' hid => ?_⟩
  have hsame : o = o' :=
    List.inj_on_of_nodup_map hbooks.orders ho ho' (hfills.orderId.symm.trans hid.symm)
  rw [← hsame]
  rcases hstate with ⟨hdue, hcharged⟩ | ⟨hdue, hexempt⟩
  · exact iff_of_true hcharged hdue
  · exact iff_of_false (not_charged_exempt hexempt) hdue

theorem uncharged_empty : Uncharged Store.empty :=
  ⟨List.nodup_nil, List.nodup_nil, rfl, by simp [Store.empty], by simp [Store.empty]⟩

theorem commissions_conserved_once : ∃ es w t,
    run (World.step platform (orders fillDigests "4")) (World.initial Store.empty 0) es = some w ∧
    t ∈ w.db.trades ∧ (Charged w.db t ∨ Exempt w.db t) ∧
    brokerageUnits w.db "B1" = debitUnits w.db "B1" ∧ brokerageUnits w.db "B1" = 40000 := by
  obtain ⟨w, hrun, hcheck⟩ := run_reaches (World.step platform (orders fillDigests "4"))
    (World.initial Store.empty 0) (oneOrder (limitOrder "C1" "1" "1.2345"))
    (fun w => w.db.trades ≠ [] ∧ brokerageUnits w.db "B1" = 40000) (by decide +kernel)
  obtain ⟨hne, htotal⟩ := of_decide_eq_true hcheck
  obtain ⟨t, ht⟩ := List.exists_mem_of_ne_nil _ hne
  have hkept := commissions_conserved uncharged_empty (visits_last hrun)
  exact ⟨_, w, t, hrun, ht, (hkept.1 t ht).1, hkept.2 "B1", htotal⟩

end LpPlatform.CommissionLedger
