import Mathlib.Data.List.MinMax
import LpPlatform.Charges
import LpPlatform.HashChain
import LpPlatform.Ledger
import LpPlatform.StepRuns

/-!
# Recording trades

Two writers append to the chain of a broker: the order worker, which debits a
commission in the same transaction, and the trades service, which itemises
charges. Both read the broker's last hash by greatest id in a serializable
transaction and insert a trade whose hash covers it. Identity values are drawn
when the row is inserted and rows become visible when the transaction commits,
so that ids follow the order of the chain rests on the clash of two
transactions of one broker.
-/

namespace LpPlatform.TradeChain

open Amounts Charges HashChain InterferenceLogic JsValues Ledger RowStore Sessions
open StatementProgram StepRuns Tables

/-- The side as text. -/
def sideText : OrderSide → String
  | .buy => "BUY"
  | .sell => "SELL"

/-- The record that is hashed for a trade. -/
def tradeRecord (tradeId orderId brokerId symbol : String) (side : OrderSide)
    (quantity price executedAt prevHash : String) : Json :=
  .obj [("tradeId", .str tradeId), ("orderId", .str orderId), ("brokerId", .str brokerId),
    ("symbol", .str symbol), ("side", .str (sideText side)), ("quantity", .str quantity),
    ("price", .str price), ("executedAt", .str executedAt), ("prevHash", .str prevHash)]

/-- The trades of a broker, as they were inserted. -/
def tradesOf (brokerId : String) (trades : List Trade) : List Trade :=
  trades.filter fun t => t.brokerId = brokerId

/-- `TradesRepository.getLastHash`: the hash of the trade with the greatest id. -/
def getLastHash (brokerId : String) (trades : List Trade) : Option String :=
  ((tradesOf brokerId trades).argmax (·.id)).map (·.hash)

/-- A fill before it is chained. -/
structure Fill where
  tradeId : String
  orderId : String
  brokerId : String
  symbol : String
  side : OrderSide
  quantity : String
  price : String
  executedAt : Instant

/-- The record of a fill under its canonical amounts. -/
def Fill.record (f : Fill) (quantity price : Money) (prevHash : String) : Json :=
  tradeRecord f.tradeId f.orderId f.brokerId f.symbol f.side quantity.toString price.toString
    (toISOString f.executedAt) prevHash

/-- Read the broker's last hash and insert the trade that follows it. Returns
the row and the canonical quantity. -/
def chainFill (H : Sha256) (f : Fill) : Program (Trade × String) := do
  let last ← query fun v _ => getLastHash f.brokerId v.own.trades
  let prevHash := last.getD GENESIS_HASH
  let quantity ← ofExcept (Money.new f.quantity)
  let price ← ofExcept (Money.new f.price)
  let hash ← ofExcept (computeHash H (f.record quantity price prevHash) prevHash)
  let storedQuantity ← ofExcept (Numeric.insert quantity.toString)
  let storedPrice ← ofExcept (Numeric.insert price.toString)
  let row (v : View Store) : Trade :=
    ⟨v.seq, f.tradeId, f.orderId, f.brokerId, f.symbol, f.side, storedQuantity, storedPrice,
      f.executedAt, prevHash, hash⟩
  exec (fun v _ => [.insertTrade (row v)]) fun v _ => (row v, quantity.toString)

/-- An order as the worker reads it. -/
structure OrderRow where
  orderId : String
  clientOrderId : Option String
  brokerId : String
  symbol : String
  side : OrderSide
  type : Tables.OrderType
  quantity : String
  price : Option String
  status : OrderStatus

/-- A close leg, by the suffix of its client order id. -/
def OrderRow.isClose (order : OrderRow) : Bool :=
  ['-', 'C'].isSuffixOf (order.clientOrderId.getD "").toList

/-- The broker's first wallet, or a new one. Returns its id and currency. -/
def commissionWallet (brokerId : String) : Program (String × String) := do
  let found ← query fun v _ => (v.own.wallets.filter fun w => w.brokerId = brokerId).argmin (·.id)
  let currency := (found.map (·.currency)).getD "USD"
  let walletId := (found.map (·.walletId)).getD ""
  if walletId = "" then
    exec (fun v i => [.insertWallet ⟨v.seq, i.id 0, brokerId, currency⟩])
      fun _ i => (i.id 0, currency)
  else return (walletId, currency)

/-- The flat commission of an opened position, if any is due. -/
def commissionDue (commissionPerLot : String) (order : OrderRow) (quantity : String) :
    Except Failure (Option Money) := do
  let perLot ← Money.new commissionPerLot
  let lots ← Money.new quantity
  let commission := perLot.mul lots
  return if !order.isClose && commission.isPositive then some commission else none

/-- A commission is a charge of the trade and a debit of the broker's wallet. -/
def chargeCommission (commissionPerLot : String) (order : OrderRow) (tradeId quantity : String) :
    Program Unit := do
  let due ← ofExcept (commissionDue commissionPerLot order quantity)
  match due with
  | none => return ()
  | some commission =>
    let amount ← ofExcept (Numeric.insert commission.toString)
    exec (fun v _ => [.insertCharge ⟨v.seq, tradeId, .brokerage, amount,
      s!"Commission {commissionPerLot}/lot x {quantity} lot"⟩]) fun _ _ => ()
    let (walletId, currency) ← commissionWallet order.brokerId
    exec (fun v i => [.insertEntry ⟨v.seq, i.id 0, walletId, .debit, amount, currency, .charge,
      tradeId, s!"Commission on {order.symbol} {quantity} lot"⟩]) fun _ _ => ()

/-- The fill of an order. -/
def OrderRow.fill (order : OrderRow) (tradeId : String) (executedAt : Instant)
    (fillPrice : String) : Fill :=
  ⟨tradeId, order.orderId, order.brokerId, order.symbol, order.side, order.quantity, fillPrice,
    executedAt⟩

/-- `OrderProcessor.recordFill`. -/
def recordFill (H : Sha256) (commissionPerLot : String) (order : OrderRow) (fillPrice : String) :
    Program Unit := do
  let (tradeId, executedAt) ← draw fun i => (i.id 0, i.now)
  transaction true do
    let (trade, quantity) ← chainFill H (order.fill tradeId executedAt fillPrice)
    chargeCommission commissionPerLot order trade.tradeId quantity

/-- What the trades service is asked to record. -/
structure RecordTradeInput where
  orderId : String
  brokerId : String
  symbol : String
  side : OrderSide
  quantity : String
  price : String
  executedAt : Instant
  segment : ProductSegment

/-- What the trades service returns. -/
structure RecordedTrade where
  trade : Trade
  charges : List ChargeLine
  totalCharges : String

/-- The row of a charge line, under an identity value. -/
def chargeRow (l : ChargeLine) : Except Failure (ℕ → Charge) := do
  let amount ← Numeric.insert l.amount
  return fun id => ⟨id, l.tradeId, l.type, amount, l.description⟩

/-- `ChargesRepository.insertMany`: all rows in one statement, none for no
rows. -/
def insertMany (lines : List ChargeLine) : Program Unit :=
  if lines.isEmpty then return ()
  else do
    let rows ← ofExcept (lines.mapM chargeRow)
    exec (fun v _ => rows.mapIdx fun k row => .insertCharge (row (v.seq + k))) fun _ _ => ()

/-- The fill of a trade to record. -/
def RecordTradeInput.fill (input : RecordTradeInput) (tradeId : String) : Fill :=
  ⟨tradeId, input.orderId, input.brokerId, input.symbol, input.side, input.quantity, input.price,
    input.executedAt⟩

/-- `TradesService.recordTrade`. -/
def recordTrade (H : Sha256) (input : RecordTradeInput) : Program RecordedTrade :=
  transaction true do
    let tradeId ← draw fun i => i.id 0
    let (trade, _) ← chainFill H (input.fill tradeId)
    let lines ← ofExcept (computeForFill ⟨tradeId, input.side, input.quantity, input.price,
      input.executedAt, input.segment⟩)
    insertMany lines
    let total ← ofExcept (totalFor lines)
    return ⟨trade, lines, (total.round 2).toString⟩

/-- The calls that record trades. -/
inductive TradeCall where
  | recordFill (order : OrderRow) (fillPrice : String)
  | recordTrade (input : RecordTradeInput)

/-- A recording call, without its result. -/
def recording (H : Sha256) (commissionPerLot : String) : TradeCall → Program Unit
  | .recordFill order fillPrice => recordFill H commissionPerLot order fillPrice
  | .recordTrade input => do
    let _ ← recordTrade H input
    return ()

/-- The row a fill is stored as, chained after some trades. -/
structure Chained (H : Sha256) (f : Fill) (trades : List Trade) (t : Trade) : Prop where
  tradeId : t.tradeId = f.tradeId
  orderId : t.orderId = f.orderId
  brokerId : t.brokerId = f.brokerId
  symbol : t.symbol = f.symbol
  side : t.side = f.side
  executedAt : t.executedAt = f.executedAt
  prevHash : t.prevHash = (getLastHash f.brokerId trades).getD GENESIS_HASH
  /-- The columns hold the rounded amounts, the hash covers the canonical ones. -/
  amounts : ∃ quantity price, Money.new f.quantity = .ok quantity ∧ Money.new f.price = .ok price ∧
    Numeric.insert quantity.toString = .ok t.quantity ∧
    Numeric.insert price.toString = .ok t.price ∧
    computeHash H (f.record quantity price t.prevHash) t.prevHash = .ok t.hash

/-- The debit of a commission, on a wallet of the broker. -/
structure CommissionEntry (brokerId : String) (trade : Trade) (charge : Charge) (wallet : Wallet)
    (entryRow : LedgerEntry) : Prop where
  tradeId : charge.tradeId = trade.tradeId
  type : charge.type = .brokerage
  broker : wallet.brokerId = brokerId
  walletId : entryRow.walletId = wallet.walletId
  direction : entryRow.direction = .debit
  amount : entryRow.amount = charge.amount
  currency : entryRow.currency = wallet.currency
  referenceType : entryRow.referenceType = .charge
  referenceId : entryRow.referenceId = trade.tradeId

/-- What recording the fill of an order commits beside the trade. -/
inductive Commission (commissionPerLot : String) (order : OrderRow) (quantity : String)
    (trade : Trade) (wallets : List Wallet) : List Write → Prop where
  | exempt (hdue : commissionDue commissionPerLot order quantity = .ok none) :
      Commission commissionPerLot order quantity trade wallets []
  | charged {commission charge wallet pre entryRow}
      (hdue : commissionDue commissionPerLot order quantity = .ok (some commission))
      (hamount : Numeric.insert commission.toString = .ok charge.amount)
      (hwallet : (pre = [] ∧ wallet ∈ wallets) ∨ pre = [.insertWallet wallet])
      (hentry : CommissionEntry order.brokerId trade charge wallet entryRow) :
      Commission commissionPerLot order quantity trade wallets
        ([.insertCharge charge] ++ pre ++ [.insertEntry entryRow])

section Rules

variable {C : Contract platform} {t : ℕ} {d d₀ : Store} {n : ℕ} {H : Sha256} {lot : String}
variable {α : Type} {E : Failure → Assertion Store Write}

/-- A serializable transaction reads its snapshot under its own writes. -/
theorem own_snapshot (d₀ d : Store) (ws : List Write) :
    ((Txn.opened true d₀).add ws).own platform d = platform.applyAll d₀ ws := rfl

/-- A fill is chained after the trades of the snapshot, under a fresh id. -/
theorem wp_chainFill {Q : Trade × String → Assertion Store Write} {f : Fill}
    (hE : ∀ e T d n, E e (some T) d n)
    (hQ : ∀ row quantity d' n', C.Env t [] d n d' n' → C.inv d' n' → Chained H f d₀.trades row →
      Money.new f.quantity = .ok quantity → n ≤ row.id → row.id < n' →
      Q (row, quantity.toString) (some ((Txn.opened true d₀).add [.insertTrade row])) d' n') :
    wp C t (chainFill H f) Q E (some (.opened true d₀)) d n := by
  rw [chainFill, bind_eq, wp_bind]
  refine wp_query hE fun v i d₁ n₁ henv₁ hinv₁ hv₁ => ?_
  have hown : v.own = d₀ := hv₁.own_some
  simp only [bind_eq, hown]
  rw [wp_bind]
  refine wp_ofExcept (fun e _ => hE e _ d₁ n₁) fun quantity hquantity => ?_
  rw [wp_bind]
  refine wp_ofExcept (fun e _ => hE e _ d₁ n₁) fun price hprice => ?_
  rw [wp_bind]
  refine wp_ofExcept (fun e _ => hE e _ d₁ n₁) fun hash hhash => ?_
  rw [wp_bind]
  refine wp_ofExcept (fun e _ => hE e _ d₁ n₁) fun storedQuantity hsq => ?_
  rw [wp_bind]
  refine wp_ofExcept (fun e _ => hE e _ d₁ n₁) fun storedPrice hsp => ?_
  refine wp_exec hE fun v₂ i₂ d₂ n₂ henv₂ hinv₂ hv₂ _ => ?_
  have henv : C.Env t [] d n d₂ (n₂ + 1) := env_wait (env_trans henv₁ henv₂) 1
  have hseq : n ≤ v₂.seq := hv₂.seq ▸ env_seq (env_trans henv₁ henv₂)
  have hlt : v₂.seq < n₂ + 1 := by
    rw [hv₂.seq]
    exact Nat.lt_succ_self n₂
  exact hQ _ quantity d₂ (n₂ + 1) henv (C.inv_mono hinv₂ (Nat.le_add_right _ _))
    ⟨rfl, rfl, rfl, rfl, rfl, rfl, rfl, quantity, price, hquantity, hprice, hsq, hsp, hhash⟩
    hquantity hseq hlt

/-- The commission is debited on the wallet that was found or inserted. -/
theorem wp_commissionWallet {Q : String × String → Assertion Store Write} {brokerId : String}
    {ws : List Write} (hE : ∀ e T d n, E e (some T) d n) (hws : ws.filterMap Write.wallet? = [])
    (hQ : ∀ wallet pre d' n', C.Env t (platform.keysOf ws) d n d' n' → C.inv d' n' →
      wallet.brokerId = brokerId →
      ((pre = [] ∧ wallet ∈ d₀.wallets) ∨ pre = [.insertWallet wallet]) →
      Q (wallet.walletId, wallet.currency) (some ((Txn.opened true d₀).add (ws ++ pre))) d' n') :
    wp C t (commissionWallet brokerId) Q E (some ((Txn.opened true d₀).add ws)) d n := by
  rw [commissionWallet, bind_eq, wp_bind]
  refine wp_query hE fun v i d₁ n₁ henv₁ hinv₁ hv₁ => ?_
  have hwallets : v.own.wallets = d₀.wallets := by
    have hrows := walletRows.applyAll d₀ ws
    have hnone : ws.filterMap walletRows.row? = [] := hws
    rw [hnone, List.append_nil] at hrows
    rw [hv₁.own_some, own_snapshot]
    exact hrows
  simp only [hwallets]
  cases hfound : (d₀.wallets.filter fun w => w.brokerId = brokerId).argmin (·.id) with
  | none =>
    simp only [Option.map_none, Option.getD_none, if_true]
    refine wp_exec hE fun v₂ i₂ d₂ n₂ henv₂ hinv₂ hv₂ _ => ?_
    rw [add_add]
    exact hQ ⟨v₂.seq, i₂.id 0, brokerId, "USD"⟩ _ d₂ _ (env_wait (env_trans henv₁ henv₂) _)
      (C.inv_mono hinv₂ (Nat.le_add_right _ _)) rfl (Or.inr rfl)
  | some wallet =>
    simp only [Option.map_some, Option.getD_some]
    split
    · refine wp_exec hE fun v₂ i₂ d₂ n₂ henv₂ hinv₂ hv₂ _ => ?_
      rw [add_add]
      exact hQ ⟨v₂.seq, i₂.id 0, brokerId, wallet.currency⟩ _ d₂ _
        (env_wait (env_trans henv₁ henv₂) _) (C.inv_mono hinv₂ (Nat.le_add_right _ _)) rfl
        (Or.inr rfl)
    · have hmem := List.mem_filter.mp (List.argmin_mem hfound)
      have hbroker : wallet.brokerId = brokerId := by simpa using hmem.2
      have hdone := hQ wallet [] d₁ n₁ henv₁ hinv₁ hbroker (Or.inl ⟨rfl, hmem.1⟩)
      simpa [wp] using hdone

/-- The commission is charged and debited together, or not at all. -/
theorem wp_chargeCommission {Q : Unit → Assertion Store Write} {order : OrderRow} {trade : Trade}
    {quantity : String} (hinv : C.inv d n) (hE : ∀ e T d n, E e (some T) d n)
    (hQ : ∀ ws d' n', C.Env t (platform.keysOf [.insertTrade trade]) d n d' n' → C.inv d' n' →
      Commission lot order quantity trade d₀.wallets ws →
      Q () (some ((Txn.opened true d₀).add ([.insertTrade trade] ++ ws))) d' n') :
    wp C t (chargeCommission lot order trade.tradeId quantity) Q E
      (some ((Txn.opened true d₀).add [.insertTrade trade])) d n := by
  rw [chargeCommission, bind_eq, wp_bind]
  refine wp_ofExcept (fun e _ => hE e _ d n) fun due hdue => ?_
  cases due with
  | none => exact hQ [] d n env_refl hinv (.exempt hdue)
  | some commission =>
    simp only [bind_eq]
    rw [wp_bind]
    refine wp_ofExcept (fun e _ => hE e _ d n) fun amount hamount => ?_
    rw [wp_bind]
    refine wp_exec hE fun v₁ i₁ d₁ n₁ henv₁ hinv₁ _ _ => ?_
    rw [add_add, wp_bind]
    refine wp_commissionWallet hE rfl fun wallet pre d₂ n₂ henv₂ hinv₂ hbroker hwallet => ?_
    refine wp_exec hE fun v₃ i₃ d₃ n₃ henv₃ hinv₃ _ _ => ?_
    have hfront : ∀ ws : List Write, ∀ k ∈ platform.keysOf [.insertTrade trade],
        k ∈ platform.keysOf ([.insertTrade trade] ++ ws) := fun ws k hk => by
      simp only [KeyedRows.keysOf, List.flatMap_append, List.mem_append] at hk ⊢
      exact Or.inl hk
    have henv₂₃ : C.Env t (platform.keysOf [.insertTrade trade]) d₁ (n₁ + 1) d₃ n₃ :=
      env_trans (env_mono (hfront _) henv₂) (env_mono (hfront (_ :: pre)) henv₃)
    have henv : C.Env t (platform.keysOf [.insertTrade trade]) d n d₃ (n₃ + 1) :=
      env_wait (env_trans (env_wait henv₁ 1) henv₂₃) 1
    have hcharge : CommissionEntry order.brokerId trade
        ⟨v₁.seq, trade.tradeId, .brokerage, amount, s!"Commission {lot}/lot x {quantity} lot"⟩ wallet
        ⟨v₃.seq, i₃.id 0, wallet.walletId, .debit, amount, wallet.currency, .charge, trade.tradeId,
          s!"Commission on {order.symbol} {quantity} lot"⟩ :=
      ⟨rfl, rfl, hbroker, rfl, rfl, rfl, rfl, rfl, rfl⟩
    have hdone := hQ _ d₃ (n₃ + 1) henv (C.inv_mono hinv₃ (Nat.le_add_right _ _))
      (.charged hdue hamount hwallet hcharge)
    simpa [add_add, List.append_assoc] using hdone

/-- What is known when a serializable transaction commits: the snapshot it
read, and the rows it commits over. -/
structure AtCommit (C : Contract platform) (t : ℕ) (d : Store) (n : ℕ) (d₀ : Store) (n₀ : ℕ)
    (ws : List Write) (d' : Store) (n' : ℕ) : Prop where
  before : C.Env t [] d n d₀ n₀
  snapshot : C.inv d₀ n₀
  since : C.Env t [] d₀ n₀ d' n'
  inv : C.inv d' n'
  valid : platform.validAll d' ws = true
  unclashed : Unclashed platform ((Txn.opened true d₀).add ws) d'

/-- The trade of a commit: chained after the snapshot, under an id drawn since. -/
structure ChainCommit (H : Sha256) (f : Fill) (d₀ : Store) (n₀ n : ℕ) (trade : Trade) : Prop where
  chained : Chained H f d₀.trades trade
  fresh : n₀ ≤ trade.id
  drawn : trade.id < n

theorem wp_recordFill {Q : Unit → Assertion Store Write} {order : OrderRow} {fillPrice : String}
    (hE : ∀ e d n, E e none d n)
    (hQ : ∀ d₀ n₀ d' n' tradeId executedAt trade quantity rest,
      AtCommit C t d n d₀ n₀ (.insertTrade trade :: rest) d' n' →
      ChainCommit H (order.fill tradeId executedAt fillPrice) d₀ n₀ n' trade →
      Money.new order.quantity = .ok quantity →
      Commission lot order quantity.toString trade d₀.wallets rest →
      (∀ v, Sees platform t (some ((Txn.opened true d₀).add (.insertTrade trade :: rest))) d' n' v →
        C.guar v (.insertTrade trade :: rest)) ∧
      Q () none (platform.applyAll d' (.insertTrade trade :: rest)) (n' + (rest.length + 1))) :
    wp C t (recordFill H lot order fillPrice) Q E none d n := by
  rw [recordFill, bind_eq, wp_bind]
  refine wp_query_auto hE fun _ i d₁ n₁ henv₁ _ _ => ?_
  refine wp_transaction true _ hE fun d₀ n₀ henv₀ hinv₀ => ?_
  rw [bind_eq, wp_bind]
  refine wp_chainFill (fun _ _ _ _ => trivial)
    fun trade quantity d₂ n₂ henv₂ hinv₂ hchained hquantity hfresh hdrawn => ?_
  refine wp_chargeCommission hinv₂ (fun _ _ _ _ => trivial)
    fun rest d₃ n₃ henv₃ hinv₃ hcommission => ?_
  refine wp_commit rfl hE fun d₄ n₄ henv₄ hinv₄ hvalid₄ hclash₄ => ?_
  have henv₂₄ : C.Env t [] d₂ n₂ d₄ n₄ :=
    env_trans (env_mono (by simp) henv₃) (env_mono (by simp) henv₄)
  have hlt : trade.id < n₄ := Nat.lt_of_lt_of_le hdrawn (env_seq henv₂₄)
  exact hQ d₀ n₀ d₄ n₄ (i.id 0) i.now trade quantity rest
    ⟨env_trans henv₁ henv₀, hinv₀, env_trans henv₂ henv₂₄, hinv₄, hvalid₄, hclash₄⟩
    ⟨hchained, hfresh, hlt⟩ hquantity hcommission

/-- Charge rows of a trade and nothing else. -/
def ChargesOf (tradeId : String) (ws : List Write) : Prop :=
  ∀ w ∈ ws, ∃ charge, w = .insertCharge charge ∧ charge.tradeId = tradeId

/-- The rows of charge lines, one for each line. -/
theorem chargeRows_of {lines : List ChargeLine} {rows : List (ℕ → Charge)}
    (h : lines.mapM chargeRow = .ok rows) {row : ℕ → Charge} (hrow : row ∈ rows) :
    ∃ l ∈ lines, chargeRow l = .ok row := by
  induction lines generalizing rows with
  | nil =>
    obtain rfl : [] = rows := Except.ok.inj h
    simp at hrow
  | cons l lines ih =>
    rw [List.mapM_cons] at h
    obtain ⟨first, hfirst, h⟩ := bind_ok h
    obtain ⟨others, hothers, h⟩ := bind_ok h
    obtain rfl : first :: others = rows := Except.ok.inj h
    rcases List.mem_cons.mp hrow with rfl | hrow
    · exact ⟨l, List.mem_cons_self .., hfirst⟩
    · obtain ⟨l', hl', hok⟩ := ih hothers hrow
      exact ⟨l', List.mem_cons_of_mem l hl', hok⟩

theorem chargeRow_tradeId {l : ChargeLine} {row : ℕ → Charge} (h : chargeRow l = .ok row) (id : ℕ) :
    (row id).tradeId = l.tradeId := by
  obtain ⟨amount, -, h⟩ := bind_ok h
  obtain rfl := Except.ok.inj h
  rfl

theorem wp_insertMany {Q : Unit → Assertion Store Write} {lines : List ChargeLine} {ws : List Write}
    {tradeId : String} (hinv : C.inv d n) (hE : ∀ e T d n, E e (some T) d n)
    (hlines : ∀ l ∈ lines, l.tradeId = tradeId)
    (hQ : ∀ rest d' n', C.Env t (platform.keysOf ws) d n d' n' → C.inv d' n' →
      ChargesOf tradeId rest → Q () (some ((Txn.opened true d₀).add (ws ++ rest))) d' n') :
    wp C t (insertMany lines) Q E (some ((Txn.opened true d₀).add ws)) d n := by
  unfold insertMany
  split
  · have hdone := hQ [] d n env_refl hinv fun w hw => absurd hw (by simp)
    simpa [wp] using hdone
  · rw [bind_eq, wp_bind]
    refine wp_ofExcept (fun e _ => hE e _ d n) fun rows hrows => ?_
    refine wp_exec hE fun v i d' n' henv' hinv' _ _ => ?_
    rw [add_add]
    refine hQ _ d' _ (env_wait henv' _) (C.inv_mono hinv' (Nat.le_add_right _ _)) fun w hw => ?_
    obtain ⟨k, row, hrow, rfl⟩ : ∃ k, ∃ row ∈ rows, .insertCharge (row (v.seq + k)) = w := by
      obtain ⟨k, hk, hw⟩ := List.mem_mapIdx.mp hw
      exact ⟨k, rows[k], List.getElem_mem hk, hw⟩
    obtain ⟨l, hl, hok⟩ := chargeRows_of hrows hrow
    exact ⟨_, rfl, (chargeRow_tradeId hok _).trans (hlines l hl)⟩

theorem wp_recordTrade {Q : RecordedTrade → Assertion Store Write} {input : RecordTradeInput}
    (hE : ∀ e d n, E e none d n)
    (hQ : ∀ d₀ n₀ d' n' tradeId trade rest result,
      AtCommit C t d n d₀ n₀ (.insertTrade trade :: rest) d' n' →
      ChainCommit H (input.fill tradeId) d₀ n₀ n' trade → ChargesOf trade.tradeId rest →
      (∀ v, Sees platform t (some ((Txn.opened true d₀).add (.insertTrade trade :: rest))) d' n' v →
        C.guar v (.insertTrade trade :: rest)) ∧
      Q result none (platform.applyAll d' (.insertTrade trade :: rest)) (n' + (rest.length + 1))) :
    wp C t (recordTrade H input) Q E none d n := by
  rw [recordTrade]
  refine wp_transaction true _ hE fun d₀ n₀ henv₀ hinv₀ => ?_
  rw [bind_eq, wp_bind]
  refine wp_query (fun _ _ _ _ => trivial) fun _ i d₁ n₁ henv₁ _ _ => ?_
  rw [bind_eq, wp_bind]
  refine wp_chainFill (fun _ _ _ _ => trivial)
    fun trade quantity d₂ n₂ henv₂ hinv₂ hchained hquantity hfresh hdrawn => ?_
  simp only [bind_eq]
  rw [wp_bind]
  refine wp_ofExcept (fun _ _ => trivial) fun lines hlines => ?_
  have htrade : ∀ l ∈ lines, l.tradeId = trade.tradeId := fun l hl =>
    (computeForFill_tradeId hlines l hl).trans hchained.tradeId.symm
  rw [wp_bind]
  refine wp_insertMany hinv₂ (fun _ _ _ _ => trivial) htrade fun rest d₃ n₃ henv₃ hinv₃ hrest => ?_
  rw [wp_bind]
  refine wp_ofExcept (fun _ _ => trivial) fun total _ => ?_
  refine wp_commit rfl hE fun d₄ n₄ henv₄ hinv₄ hvalid₄ hclash₄ => ?_
  have henv₂₄ : C.Env t [] d₂ n₂ d₄ n₄ :=
    env_trans (env_mono (by simp) henv₃) (env_mono (by simp) henv₄)
  have henv₀₂ : C.Env t [] d₀ n₀ d₂ n₂ := env_trans henv₁ henv₂
  have hlt : trade.id < n₄ := Nat.lt_of_lt_of_le hdrawn (env_seq henv₂₄)
  exact hQ d₀ n₀ d₄ n₄ (i.id 0) trade rest _
    ⟨henv₀, hinv₀, env_trans henv₀₂ henv₂₄, hinv₄, hvalid₄, hclash₄⟩
    ⟨hchained, Nat.le_trans (env_seq henv₁) hfresh, hlt⟩ hrest

end Rules

/-- The first trade follows a hash and every later trade its predecessor's. -/
def Linked : String → List Trade → Prop
  | _, [] => True
  | prev, t :: ts => t.prevHash = prev ∧ Linked t.hash ts

/-- The trades of a broker by ascending id. -/
def tradesById (brokerId : String) (d : Store) : List Trade :=
  (tradesOf brokerId d.trades).insertionSort fun a b => a.id ≤ b.id

/-- Trades under drawn ids, with distinct hashes, that form a chain for every
broker in the order they were committed. -/
structure Chains (d : Store) (n : ℕ) : Prop where
  drawn : ∀ t ∈ d.trades, t.id < n
  hashes : (d.trades.map (·.hash)).Nodup
  ordered : ∀ brokerId, (tradesOf brokerId d.trades).Pairwise fun a b => a.id < b.id
  linked : ∀ brokerId, Linked GENESIS_HASH (tradesOf brokerId d.trades)

/-- One trade, under the greatest id of its broker, chained after the last. -/
structure Extends (d : Store) (n : ℕ) (trade : Trade) : Prop where
  drawn : trade.id < n
  last : ∀ u ∈ tradesOf trade.brokerId d.trades, u.id < trade.id
  prevHash : trade.prevHash = (getLastHash trade.brokerId d.trades).getD GENESIS_HASH

theorem linked_concat {prev : String} {ts : List Trade} {t : Trade} :
    Linked prev (ts ++ [t]) ↔
      Linked prev ts ∧ t.prevHash = (ts.getLast?.map (·.hash)).getD prev := by
  induction ts generalizing prev with
  | nil => simp [Linked]
  | cons u ts ih =>
    have hlast : ((u :: ts).getLast?.map (·.hash)).getD prev =
        (ts.getLast?.map (·.hash)).getD u.hash := by
      rw [List.getLast?_cons]
      cases ts.getLast? <;> rfl
    rw [List.cons_append, Linked, Linked, ih, hlast, and_assoc]

/-- The previous hashes of a chain are its start and its hashes but the last. -/
theorem linked_prevHashes {prev : String} {ts : List Trade} (h : Linked prev ts) :
    ts.map (·.prevHash) = (prev :: ts.map (·.hash)).dropLast := by
  induction ts generalizing prev with
  | nil => rfl
  | cons t ts ih =>
    rw [List.map_cons, ih h.2, h.1, List.map_cons, List.dropLast_cons_cons]

/-- The greatest of an increasing list is its last element. -/
theorem argmax_of_pairwise {ρ : Type} {f : ρ → ℕ} {rows : List ρ}
    (h : rows.Pairwise fun a b => f a < f b) : rows.argmax f = rows.getLast? := by
  induction rows using List.reverseRecOn with
  | nil => rfl
  | append_singleton rows row ih =>
    have hpair := List.pairwise_append.mp h
    rw [List.argmax_concat, ih hpair.1, List.getLast?_concat]
    cases hlast : rows.getLast? with
    | none => rfl
    | some last =>
      have hlt : f last < f row := hpair.2.2 last (List.mem_of_getLast? hlast) row (by simp)
      simp [hlt]

theorem getLastHash_of_ordered {brokerId : String} {trades : List Trade}
    (h : (tradesOf brokerId trades).Pairwise fun a b => a.id < b.id) :
    getLastHash brokerId trades = (tradesOf brokerId trades).getLast?.map (·.hash) := by
  rw [getLastHash, argmax_of_pairwise h]

theorem tradesOf_append (brokerId : String) (ts us : List Trade) :
    tradesOf brokerId (ts ++ us) = tradesOf brokerId ts ++ tradesOf brokerId us :=
  List.filter_append ..

/-- The trades of a broker by id are its trades in order. -/
theorem tradesById_of_ordered {brokerId : String} {d : Store}
    (h : (tradesOf brokerId d.trades).Pairwise fun a b => a.id < b.id) :
    tradesById brokerId d = tradesOf brokerId d.trades :=
  List.Pairwise.insertionSort_eq (h.imp fun hlt => Nat.le_of_lt hlt)

/-- A trade that extends its chain keeps all chains. -/
theorem chains_extend {d : Store} {n m : ℕ} {trade : Trade} {rest : List Write} (h : Chains d n)
    (hrest : rest.filterMap Write.trade? = [])
    (hvalid : platform.validAll d (.insertTrade trade :: rest) = true)
    (hext : Extends d n trade) (hm : n ≤ m) :
    Chains (platform.applyAll d (.insertTrade trade :: rest)) m := by
  have htrades : (platform.applyAll d (.insertTrade trade :: rest)).trades = d.trades ++ [trade] := by
    have hrows := tradeRows.applyAll d (.insertTrade trade :: rest)
    have hone : (Write.insertTrade trade :: rest).filterMap tradeRows.row? = [trade] := by
      have hsome : tradeRows.row? (.insertTrade trade) = some trade := rfl
      rw [List.filterMap_cons_some hsome]
      exact congrArg _ hrest
    rw [hone] at hrows
    exact hrows
  have hfresh : rowsAt (·.hash) trade.hash d.trades = [] := by
    rw [validAll_cons, Bool.and_eq_true] at hvalid
    have hinsert : (rowsAt (·.tradeId) trade.tradeId d.trades).isEmpty = true ∧
        (rowsAt (·.hash) trade.hash d.trades).isEmpty = true := Bool.and_eq_true_iff.mp hvalid.1
    simpa using hinsert.2
  have hsplit : ∀ brokerId, tradesOf brokerId (d.trades ++ [trade]) =
      tradesOf brokerId d.trades ++ if trade.brokerId = brokerId then [trade] else [] := fun b => by
    rw [tradesOf_append]
    by_cases hb : trade.brokerId = b <;> simp [tradesOf, hb]
  refine ⟨?_, ?_, fun b => ?_, fun b => ?_⟩
  · rw [htrades]
    intro t ht
    rcases List.mem_append.mp ht with ht | ht
    · exact Nat.lt_of_lt_of_le (h.drawn t ht) hm
    · obtain rfl := List.mem_singleton.mp ht
      exact Nat.lt_of_lt_of_le hext.drawn hm
  · rw [htrades, List.map_append, List.nodup_append]
    refine ⟨h.hashes, by simp, ?_⟩
    intro a ha b hb hab
    obtain ⟨u, hu, rfl⟩ := List.mem_map.mp ha
    obtain rfl : b = trade.hash := by simpa using hb
    have hmem : u ∈ rowsAt (·.hash) trade.hash d.trades := mem_rowsAt.mpr ⟨hu, hab⟩
    rw [hfresh] at hmem
    simp at hmem
  · rw [htrades, hsplit]
    split
    case isTrue hb =>
      refine List.pairwise_append.mpr ⟨h.ordered b, List.pairwise_singleton .., fun u hu t ht => ?_⟩
      obtain rfl := List.mem_singleton.mp ht
      exact hext.last u (hb ▸ hu)
    case isFalse hb => simpa using h.ordered b
  · rw [htrades, hsplit]
    split
    case isTrue hb =>
      refine linked_concat.mpr ⟨h.linked b, ?_⟩
      rw [hext.prevHash, ← hb, getLastHash_of_ordered (h.ordered _)]
    case isFalse hb => simpa using h.linked b

/-- No trade of the broker was committed since the snapshot. -/
theorem tradesOf_unclashed {d₀ d : Store} {trade : Trade} {rest : List Write}
    (h : Unclashed platform ((Txn.opened true d₀).add (.insertTrade trade :: rest)) d) :
    tradesOf trade.brokerId d.trades = tradesOf trade.brokerId d₀.trades := by
  obtain ⟨since, rfl, hclash⟩ := h d₀ rfl
  have hrows : (platform.applyAll d₀ since).trades = d₀.trades ++ since.filterMap tradeRows.row? :=
    tradeRows.applyAll d₀ since
  have hother : tradesOf trade.brokerId (since.filterMap tradeRows.row?) = [] := by
    refine List.filter_eq_nil_iff.mpr fun u hu hbroker => ?_
    obtain ⟨w, hw, hsome⟩ := List.mem_filterMap.mp hu
    have hapart := hclash w hw (.insertTrade trade) (List.mem_cons_self ..)
    cases w with
    | insertTrade row =>
      obtain rfl : row = u := Option.some.inj hsome
      have hne : ¬ row.brokerId = trade.brokerId := by
        simpa [platform, Write.clash] using hapart
      exact hne (of_decide_eq_true hbroker)
    | _ => exact absurd hsome (by simp [tradeRows, Write.trade?])
  rw [hrows, tradesOf_append, hother, List.append_nil]

/-- A trade chained after a snapshot extends the chain it is committed to. -/
theorem extends_of_commit {C : Contract platform} {t : ℕ} {d d₀ d' : Store} {n n₀ n' : ℕ}
    {H : Sha256} {f : Fill} {trade : Trade} {rest : List Write} (hd₀ : Chains d₀ n₀)
    (hcommit : AtCommit C t d n d₀ n₀ (.insertTrade trade :: rest) d' n')
    (h : ChainCommit H f d₀ n₀ n' trade) : Extends d' n' trade := by
  have hkept := tradesOf_unclashed hcommit.unclashed
  refine ⟨h.drawn, fun u hu => ?_, ?_⟩
  · rw [hkept] at hu
    exact Nat.lt_of_lt_of_le (hd₀.drawn u (List.mem_filter.mp hu).1) h.fresh
  · rw [h.chained.prevHash, ← h.chained.brokerId, getLastHash, getLastHash, hkept]

/-- Every commit is one trade that extends its chain. -/
def chainContract : Contract platform where
  inv := Chains
  guar v ws := ∃ trade rest, ws = .insertTrade trade :: rest ∧
    rest.filterMap Write.trade? = [] ∧ Extends v.committed v.seq trade
  inv_mono h hle := ⟨fun t ht => Nat.lt_of_lt_of_le (h.drawn t ht) hle, h.hashes, h.ordered, h.linked⟩
  inv_commit h hvalid hguar := by
    obtain ⟨trade, rest, rfl, hrest, hext⟩ := hguar
    exact chains_extend h hrest hvalid hext (Nat.le_add_right _ _)

theorem commission_trade? {lot quantity : String} {order : OrderRow} {trade : Trade}
    {wallets : List Wallet} {ws : List Write} (h : Commission lot order quantity trade wallets ws) :
    ws.filterMap Write.trade? = [] := by
  cases h with
  | exempt => rfl
  | charged hdue hamount hwallet hentry => rcases hwallet with ⟨rfl, _⟩ | rfl <;> rfl

theorem charges_trade? {tradeId : String} {ws : List Write} (h : ChargesOf tradeId ws) :
    ws.filterMap Write.trade? = [] := by
  refine List.filterMap_eq_nil_iff.mpr fun w hw => ?_
  obtain ⟨charge, rfl, -⟩ := h w hw
  rfl

/-- Both writers only commit trades that extend their chain. -/
theorem keeps_recording {H : Sha256} {lot : String} {t : ℕ} {d : Store} {n : ℕ}
    (call : TradeCall) : chainContract.Keeps t (recording H lot call) none d n := by
  cases call with
  | recordFill order fillPrice =>
    refine wp_recordFill (fun _ _ _ => trivial)
      fun d₀ n₀ d' n' _ _ trade quantity rest hat hcommit _ hrest => ⟨fun v hv => ?_, trivial⟩
    refine ⟨trade, rest, rfl, commission_trade? hrest, ?_⟩
    rw [hv.committed, hv.seq]
    exact extends_of_commit hat.snapshot hat hcommit
  | recordTrade input =>
    rw [recording, bind_eq, Contract.Keeps, wp_bind]
    refine wp_recordTrade (fun _ _ _ => trivial)
      fun d₀ n₀ d' n' _ trade rest _ hat hcommit hrest => ⟨fun v hv => ?_, trivial⟩
    refine ⟨trade, rest, rfl, charges_trade? hrest, ?_⟩
    rw [hv.committed, hv.seq]
    exact extends_of_commit hat.snapshot hat hcommit

/-- The worlds of recording calls. -/
abbrev TradeWorld := World Store Write Key Input Failure Unit

/-- In every state reached the trades of a broker form one chain by id, and
none of them follows the same trade as another. -/
theorem trades_linear {H : Sha256} {lot : String} {d : Store} {n : ℕ} (hd : Chains d n)
    {es : List (Event TradeCall Input Failure)} {w : TradeWorld}
    (h : Visits (World.step platform (recording H lot)) (World.initial d n) es w)
    (brokerId : String) :
    Linked GENESIS_HASH (tradesById brokerId w.db) ∧
      ((∀ t ∈ w.db.trades, t.hash ≠ GENESIS_HASH) →
        ((tradesById brokerId w.db).map (·.prevHash)).Nodup) := by
  have hsound : Sound chainContract w :=
    sound_visits (fun _ call _ _ _ => keeps_recording call) (sound_initial hd) h
  have hchains : Chains w.db w.seq := hsound.inv
  have hsorted := tradesById_of_ordered (hchains.ordered brokerId)
  have hlinked := hchains.linked brokerId
  rw [hsorted]
  refine ⟨hlinked, fun hgenesis => ?_⟩
  rw [linked_prevHashes hlinked]
  have hsub : ((tradesOf brokerId w.db.trades).map (·.hash)).Sublist (w.db.trades.map (·.hash)) :=
    List.filter_sublist.map _
  have hnodup : (GENESIS_HASH :: (tradesOf brokerId w.db.trades).map (·.hash)).Nodup := by
    refine List.nodup_cons.mpr ⟨fun hmem => ?_, hsub.nodup hchains.hashes⟩
    obtain ⟨t, ht, hhash⟩ := List.mem_map.mp hmem
    exact hgenesis t (List.mem_filter.mp ht).1 hhash
  exact (List.dropLast_sublist _).nodup hnodup

/-- The text that is hashed for the first trade of a broker. -/
def firstText (price quantity : String) : String :=
  "0000000000000000000000000000000000000000000000000000000000000000|" ++
    "\x7b\"brokerId\":\"B1\",\"executedAt\":\"2024-10-27T03:33:20.000Z\",\"orderId\":\"O1\"," ++
    "\"prevHash\":\"0000000000000000000000000000000000000000000000000000000000000000\"," ++
    "\"price\":\"" ++ price ++ "\",\"quantity\":\"" ++ quantity ++
    "\",\"side\":\"BUY\",\"symbol\":\"AAPL\",\"tradeId\":\"T1\"\x7d"

/-- Its digest for some amounts. -/
def firstDigests : Sha256 := .known [
  (firstText "10" "1", "798644a769f0243a43418c37b455ae10ea9904aed9c6f045d461d0c75aad8851"),
  (firstText "10.0000" "1.0000", "5a8b42941de33ed259a129ffb2302603aa4f7a3b350e495dd11e06e305567522"),
  (firstText "10.0001" "1.0001", "3c4e67913ebde608730c9a437111a0a46f7fdc42feaaea08a8ef2f19b3f44398")] (by decide)

/-- A market order of one lot. -/
def oneLot : OrderRow :=
  ⟨"O1", some "C1", "B1", "AAPL", .buy, .market, "1.0000", some "10.0000", .pending⟩

/-- Its fill, at four dollars a lot and without a wallet to debit yet. -/
def oneFill : List (Event TradeCall Input Failure) := [
  .start 1 (.recordFill oneLot "10.0000"), .step 1 ⟨1730000000000, ["T1"], 0⟩,
  .step 1 ⟨0, [], 0⟩, .step 1 ⟨0, [], 0⟩, .step 1 ⟨0, [], 0⟩, .step 1 ⟨0, [], 0⟩,
  .step 1 ⟨0, [], 0⟩, .step 1 ⟨0, ["W1"], 0⟩, .step 1 ⟨0, ["E1"], 0⟩, .step 1 ⟨0, [], 0⟩]

theorem noChains (n : ℕ) : Chains Store.empty n :=
  ⟨by simp [Store.empty], by simp [Store.empty], fun _ => List.Pairwise.nil, fun _ => trivial⟩

theorem trades_linear_one : ∃ w,
    run (World.step platform (recording firstDigests "4"))
      (World.initial Store.empty 0) oneFill = some w ∧
    (tradesById "B1" w.db).length = 1 ∧ Linked GENESIS_HASH (tradesById "B1" w.db) := by
  obtain ⟨w, hrun, hlength⟩ := run_reaches
    (World.step platform (recording firstDigests "4")) (World.initial Store.empty 0) oneFill
    (fun w => (tradesById "B1" w.db).length = 1) (by decide +kernel)
  exact ⟨w, hrun, by simpa using hlength,
    (trades_linear (noChains 0) (visits_last hrun) "B1").1⟩

end LpPlatform.TradeChain
