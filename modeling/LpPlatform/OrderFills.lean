import LpPlatform.OrderWorker

/-!
# Every trade fills an order

Along every run of intake and worker each order row is what some request was
stored as, and each trade fills one of these orders: it carries the order's
columns, with the fallback price when the order has none. What a request was
sent with can differ from its columns only by their rounding.
-/

namespace LpPlatform.OrderFills

open Amounts AuditInterceptor DecimalText HashChain InterferenceLogic JsValues Ledger OrderIntake
open OrderWorker RowStore Sessions StatementProgram StepRuns Tables TradeChain

/-- The price column of a fill at the fallback price. -/
def fallbackPrice : Numeric := .hundred

/-- The trade fills the order. -/
structure Fills (o : OrderTerms) (t : Trade) : Prop where
  orderId : t.orderId = o.orderId
  brokerId : t.brokerId = o.brokerId
  symbol : t.symbol = o.symbol
  side : t.side = o.side
  quantity : t.quantity = o.quantity
  price : t.price = o.price.getD fallbackPrice

/-- What the commit of a fill adds to the rows it finds. -/
structure FillCommit (H : Sha256) (lot : String) (d : Store) (o : Order) (trade : Trade)
    (rest : List Write) : Prop where
  order : o.toOrderTerms ∈ orderTerms.rows d
  fills : Fills o.toOrderTerms trade
  prevHash : trade.prevHash = GENESIS_HASH ∨ ∃ t ∈ d.trades, trade.prevHash = t.hash
  hash : ∃ payload, trade.hash = H.hex payload
  isHash : isHash trade.prevHash = true
  commission : ∃ quantity, Money.new o.quantity.text = .ok quantity ∧
    Commission lot (orderRow o) quantity.toString trade d.wallets rest

/-- What a commit of the calls does. -/
inductive Traded (H : Sha256) (lot : String) (d : Store) : List Write → Prop where
  | order {dto row} (hrow : StoredAs dto row.toOrderTerms) (hstatus : row.status = .pending) :
    Traded H lot d [.insertOrder row]
  | job {row} : Traded H lot d [.insertJob row]
  | audit {row} : Traded H lot d [.insertAudit row]
  | move {jobId state stalls} : Traded H lot d [.moveJob jobId state stalls]
  | fill {o trade rest} (h : FillCommit H lot d o trade rest) :
    Traded H lot d (.insertTrade trade :: rest)
  | mark {orderId updatedAt} : Traded H lot d [.markOrder orderId .filled updatedAt]

/-- An order id names one order. -/
def UniqueOrders (d : Store) : Prop := ((orderTerms.rows d).map (·.orderId)).Nodup

/-- Orders come from requests and trades fill them. -/
structure Sourced (H : Sha256) (d : Store) : Prop where
  /-- An order id names one order. -/
  unique : UniqueOrders d
  /-- An order is what a request was stored as. -/
  requests : ∀ o ∈ orderTerms.rows d, ∃ dto, StoredAs dto o
  /-- A trade fills an order. -/
  fills : ∀ t ∈ d.trades, ∃ o ∈ orderTerms.rows d, Fills o t
  /-- Its hash is a digest, and so is the one before, unless it is the first. -/
  hashes : ∀ t ∈ d.trades, (∃ payload, t.hash = H.hex payload) ∧
    (t.prevHash = GENESIS_HASH ∨ ∃ payload, t.prevHash = H.hex payload)

/-- A store without orders and trades. -/
structure NoOrders (d : Store) : Prop where
  orders : d.orders = []
  trades : d.trades = []

theorem sourced_noOrders {H : Sha256} {d : Store} (h : NoOrders d) : Sourced H d where
  unique := by simp [UniqueOrders, orderTerms, h.orders]
  requests o ho := by simp [orderTerms, h.orders] at ho
  fills t ht := by simp [h.trades] at ht
  hashes t ht := by simp [h.trades] at ht

theorem insert_fallback {m : Money} {x : Numeric} (hm : Money.new REFERENCE_PRICE_FALLBACK = .ok m)
    (hx : Numeric.insert m.toString = .ok x) : x = fallbackPrice := by
  have hm' : Money.new REFERENCE_PRICE_FALLBACK = .ok ⟨false, 100, 0, Or.inl rfl⟩ := rfl
  obtain rfl := Except.ok.inj (hm.symm.trans hm')
  have hx' : Numeric.insert (Money.toString ⟨false, 100, 0, Or.inl rfl⟩) = .ok fallbackPrice := by
    decide
  exact Except.ok.inj (hx.symm.trans hx')

/-- A fill that is chained for an order carries its columns. -/
theorem fills_of_chained {H : Sha256} {o : Order} {tradeId : String} {executedAt : Instant}
    {trades : List Trade} {t : Trade}
    (h : Chained H ((orderRow o).fill tradeId executedAt (fillPriceOf (orderRow o))) trades t) :
    Fills o.toOrderTerms t := by
  obtain ⟨quantity, price, hquantity, hprice, hsq, hsp, -⟩ := h.amounts
  refine ⟨h.orderId, h.brokerId, h.symbol, h.side, insert_money hquantity hsq, ?_⟩
  cases ho : o.price with
  | none =>
    have hfallback : fillPriceOf (orderRow o) = REFERENCE_PRICE_FALLBACK := by
      simp [fillPriceOf, orderRow, ho]
    exact insert_fallback (hfallback ▸ hprice) hsp
  | some x =>
    have htext : fillPriceOf (orderRow o) = x.text := by simp [fillPriceOf, orderRow, ho]
    exact insert_money (htext ▸ hprice) hsp

theorem getLastHash_mem {brokerId : String} {trades : List Trade} {hash : String}
    (h : getLastHash brokerId trades = some hash) : ∃ t ∈ trades, t.hash = hash := by
  obtain ⟨t, ht, rfl⟩ := Option.map_eq_some_iff.mp h
  exact ⟨t, (List.mem_filter.mp (List.argmax_mem ht)).1, rfl⟩

/-- Commits over a store that has grown since a snapshot. -/
theorem commission_grow {lot quantity : String} {order : OrderRow} {trade : Trade}
    {wallets wallets' : List Wallet} {ws : List Write} (hsub : ∀ w ∈ wallets, w ∈ wallets')
    (h : Commission lot order quantity trade wallets ws) :
    Commission lot order quantity trade wallets' ws := by
  cases h with
  | exempt hdue => exact .exempt hdue
  | charged hdue hamount hwallet hentry =>
    exact .charged hdue hamount (hwallet.imp (fun h => ⟨h.1, hsub _ h.2⟩) id) hentry

section Rules

variable {H : Sha256} {lot : String} {t : ℕ} {d : Store} {n : ℕ}

/-- An inserted order has a new id. -/
theorem uniqueOrders_insert {row : Order} (h : UniqueOrders d)
    (hvalid : d.valid (.insertOrder row) = true) : UniqueOrders (d.apply (.insertOrder row)) := by
  have hmap : (d.orders.map (·.orderId)).Nodup := by
    simpa [UniqueOrders, orderTerms, Function.comp_def] using h
  have hinsert := nodup_insert hmap hvalid
  simpa [UniqueOrders, orderTerms, Store.apply, Function.comp_def] using hinsert

theorem sourced_order {dto : OrderRequest} {row : Order} (h : Sourced H d)
    (hvalid : d.valid (.insertOrder row) = true) (hrow : StoredAs dto row.toOrderTerms) :
    Sourced H (d.apply (.insertOrder row)) := by
  have hrows : orderTerms.rows (d.apply (.insertOrder row)) =
      orderTerms.rows d ++ [row.toOrderTerms] := orderTerms.apply d (.insertOrder row)
  refine ⟨uniqueOrders_insert h.unique hvalid, ?_, ?_, h.hashes⟩
  · intro o ho
    rw [hrows, List.mem_append, List.mem_singleton] at ho
    rcases ho with ho | rfl
    · exact h.requests o ho
    · exact ⟨dto, hrow⟩
  · intro x hx
    obtain ⟨o, ho, hfills⟩ := h.fills x hx
    exact ⟨o, hrows ▸ List.mem_append_left _ ho, hfills⟩

theorem commission_order? {quantity : String} {order : OrderRow} {trade : Trade}
    {wallets : List Wallet} {ws : List Write} (h : Commission lot order quantity trade wallets ws) :
    List.filterMap Write.order? ws = [] := by
  cases h with
  | exempt => rfl
  | charged hdue hamount hwallet hentry => rcases hwallet with ⟨rfl, _⟩ | rfl <;> rfl

/-- The rows after a fill: one more trade and the orders as they were. -/
theorem fill_rows {o : Order} {trade : Trade} {rest : List Write}
    (h : FillCommit H lot d o trade rest) :
    orderTerms.rows (platform.applyAll d (.insertTrade trade :: rest)) = orderTerms.rows d ∧
      (platform.applyAll d (.insertTrade trade :: rest)).trades = d.trades ++ [trade] := by
  obtain ⟨quantity, -, hcommission⟩ := h.commission
  have horders := orderTerms.applyAll d (.insertTrade trade :: rest)
  have htrades := tradeRows.applyAll d (.insertTrade trade :: rest)
  have hnone : List.filterMap orderTerms.row? (.insertTrade trade :: rest) = [] := by
    simpa [orderTerms, Write.order?] using commission_order? hcommission
  have hone : List.filterMap tradeRows.row? (.insertTrade trade :: rest) = [trade] :=
    congrArg (trade :: ·) (commission_trade? hcommission)
  rw [hnone, List.append_nil] at horders
  rw [hone] at htrades
  exact ⟨horders, htrades⟩

/-- Marking an order keeps the terms of all orders. -/
theorem mark_rows (d : Store) (orderId : String) (updatedAt : Instant) :
    orderTerms.rows (platform.applyAll d [.markOrder orderId .filled updatedAt]) =
      orderTerms.rows d :=
  (orderTerms.applyAll d [.markOrder orderId .filled updatedAt]).trans (List.append_nil _)

/-- Valid writes keep order ids unique. -/
theorem uniqueOrders_applyAll {ws : List Write} (h : UniqueOrders d)
    (hvalid : platform.validAll d ws = true) : UniqueOrders (platform.applyAll d ws) := by
  refine applyAll_invariant platform (P := UniqueOrders) (fun d w hd hw => ?_) h hvalid
  cases w with
  | insertOrder row => exact uniqueOrders_insert hd hw
  | markOrder orderId status updatedAt =>
    have hkeeps : orderTerms.rows (d.apply (.markOrder orderId status updatedAt)) =
        orderTerms.rows d ++ [] := orderTerms.apply d (.markOrder orderId status updatedAt)
    rw [List.append_nil] at hkeeps
    exact (congrArg (fun rows => (rows.map (·.orderId)).Nodup) hkeeps).mpr hd
  | _ => exact hd

theorem sourced_fill {o : Order} {trade : Trade} {rest : List Write} (h : Sourced H d)
    (hfill : FillCommit H lot d o trade rest) :
    Sourced H (platform.applyAll d (.insertTrade trade :: rest)) := by
  obtain ⟨horders, htrades⟩ := fill_rows hfill
  refine ⟨?_, horders ▸ h.requests, ?_, ?_⟩
  · rw [UniqueOrders, horders]
    exact h.unique
  · intro x hx
    rw [htrades, List.mem_append, List.mem_singleton] at hx
    rw [horders]
    rcases hx with hx | rfl
    · exact h.fills x hx
    · exact ⟨_, hfill.order, hfill.fills⟩
  · intro x hx
    rw [htrades, List.mem_append, List.mem_singleton] at hx
    rcases hx with hx | rfl
    · exact h.hashes x hx
    · refine ⟨hfill.hash, ?_⟩
      rcases hfill.prevHash with hgenesis | ⟨y, hy, hprev⟩
      · exact Or.inl hgenesis
      · obtain ⟨payload, hpayload⟩ := (h.hashes y hy).1
        exact Or.inr ⟨payload, hprev.trans hpayload⟩

/-- Every commit keeps orders and trades sourced. -/
theorem sourced_traded {ws : List Write} (h : Sourced H d) (hvalid : platform.validAll d ws = true)
    (hws : Traded H lot d ws) : Sourced H (platform.applyAll d ws) := by
  cases hws with
  | order hrow hstatus => exact sourced_order h (Bool.and_eq_true_iff.mp hvalid).1 hrow
  | job => exact ⟨h.unique, h.requests, h.fills, h.hashes⟩
  | audit => exact ⟨h.unique, h.requests, h.fills, h.hashes⟩
  | move => exact ⟨h.unique, h.requests, h.fills, h.hashes⟩
  | fill hfill => exact sourced_fill h hfill
  | @mark orderId updatedAt =>
    have horders := mark_rows d orderId updatedAt
    refine ⟨?_, horders.symm ▸ h.requests, horders.symm ▸ h.fills, h.hashes⟩
    rw [UniqueOrders, horders]
    exact h.unique

/-- The contract of intake and worker: no invariant, only what a commit does. -/
def orderContract (H : Sha256) (lot : String) : Contract platform where
  inv _ _ := True
  guar v ws := Traded H lot v.committed ws
  inv_mono _ _ := trivial
  inv_commit _ _ _ := trivial

/-- What is known when a fill commits is what its commit adds. -/
theorem fillCommit_of_filling {C : Contract platform} {o : Order} {d₀ d' : Store} {n₀ n' : ℕ}
    {trade : Trade} {rest : List Write} (ho : o ∈ d.orders)
    (h : Filling C H lot t o d n d₀ n₀ trade rest d' n') : FillCommit H lot d' o trade rest := by
  obtain ⟨tradeId, executedAt, hchain⟩ := h.chained
  obtain ⟨quantity, hquantity, hcommission⟩ := h.commission
  obtain ⟨q, p, -, -, -, -, hhash⟩ := hchain.chained.amounts
  have hmem : o.toOrderTerms ∈ orderTerms.rows d := List.mem_map_of_mem ho
  have hdigest : isHash trade.prevHash = true ∧ ∃ payload, trade.hash = H.hex payload := by
    simp only [computeHash] at hhash
    split at hhash
    · rename_i hprev
      exact ⟨hprev, _, (Except.ok.inj hhash).symm⟩
    · simp at hhash
  refine ⟨env_growing orderTerms h.atCommit.since (env_growing orderTerms h.atCommit.before hmem),
    fills_of_chained hchain.chained, ?_, hdigest.2, hdigest.1, quantity, hquantity,
    commission_grow (fun w hw => env_growing walletRows h.atCommit.since hw) hcommission⟩
  have hprev := hchain.chained.prevHash
  cases hlast : getLastHash ((orderRow o).fill tradeId executedAt
      (fillPriceOf (orderRow o))).brokerId d₀.trades with
  | none =>
    rw [hlast] at hprev
    exact Or.inl hprev
  | some hash =>
    rw [hlast] at hprev
    obtain ⟨y, hy, rfl⟩ := getLastHash_mem hlast
    exact Or.inr ⟨y, env_growing tradeRows h.atCommit.since hy, hprev⟩

/-- Placing an order keeps a contract that allows what it commits. -/
theorem keeps_place {C : Contract platform}
    (hguar : ∀ v ws, Traded H lot v.committed ws → C.guar v ws) {body : Json}
    {broker : Option AuthenticatedBroker} {ip : Option String} :
    C.Keeps t (placeEndpoint body broker ip) none d n := by
  unfold placeEndpoint
  split
  · rename_i dto hdto
    unfold place
    split
    · trivial
    · rw [bind_eq, Contract.Keeps, wp_bind]
      refine wp_ensure (fun _ => trivial) fun _ => ?_
      rw [bind_eq, wp_bind, insertOrder, bind_eq, wp_bind]
      refine wp_ofExcept (fun _ _ => trivial) fun row hrow => ?_
      refine wp_exec_auto (fun _ _ _ => trivial) (fun v i d₁ n₁ _ _ _ _ _ => ?_)
        fun v i d₁ n₁ _ _ _ _ => ?_
      · exact hguar v _ (.order ⟨row, v.seq, i.id 0, i.now, hrow, rfl⟩ (row_ok hrow _ _ _).2.2.1)
      · simp only [bind_eq]
        rw [wp_bind, addJob]
        refine wp_exec_auto (fun _ _ _ => trivial) (fun v _ _ _ _ _ _ _ _ => hguar v _ .job)
          fun _ _ _ _ _ _ _ _ => ?_
        rw [wp_bind, record, wp_tryCatch]
        exact wp_exec_auto (fun _ _ _ => trivial) (fun v _ _ _ _ _ _ _ _ => hguar v _ .audit)
          fun _ _ _ _ _ _ _ _ => trivial
  · trivial

/-- So does running a job. -/
theorem keeps_runJob {C : Contract platform}
    (hguar : ∀ v ws, Traded H lot v.committed ws → C.guar v ws) :
    C.Keeps t (runJob H lot) none d n := by
  rw [runJob, bind_eq, Contract.Keeps, wp_bind, takeJob]
  refine wp_exec_auto (fun _ _ _ => trivial) (fun v i _ _ _ _ _ _ hne => ?_) fun v i d₁ n₁ _ _ _ _ => ?_
  · cases hjob : nextJob v i.pick with
    | none => simp [hjob] at hne
    | some job => exact hguar v _ .move
  · cases nextJob v i.pick with
    | none => trivial
    | some job =>
      have hfinish : ∀ state d n, C.Keeps t (finishJob job state) none d n :=
        fun state d n => wp_exec_auto (fun _ _ _ => trivial)
          (fun v _ _ _ _ _ _ _ _ => hguar v _ .move) fun _ _ _ _ _ _ _ _ => trivial
      simp only [bind_eq]
      rw [wp_tryCatch, wp_bind]
      refine wp_process (fun e d n => hfinish .failed d n)
        (fun d' n' _ _ _ => wp_mono _ (fun _ _ _ _ _ => trivial)
          (fun _ _ d n _ => hfinish .failed d n) (hfinish .completed d' n'))
        fun o d₂ n₂ trade rest d₀ n₀ d₃ n₃ _ _ ho _ _ hfilling =>
          ⟨fun v hv => ?_, fun _ _ _ _ _ => ⟨fun v _ => hguar v _ .mark, fun d₄ n₄ _ _ => ?_⟩⟩
      · have hcommit := fillCommit_of_filling ho hfilling
        rw [← hv.committed] at hcommit
        exact hguar v _ (.fill hcommit)
      · exact wp_mono _ (fun _ _ _ _ _ => trivial) (fun _ _ d n _ => hfinish .failed d n)
          (hfinish .completed d₄ n₄)

end Rules

/-- So does every call. -/
theorem keeps_orders {C : Contract platform} {H : Sha256} {lot : String}
    (hguar : ∀ v ws, Traded H lot v.committed ws → C.guar v ws) {t : ℕ} {d : Store} {n : ℕ}
    (call : OrderCall) : C.Keeps t (orders H lot call) none d n := by
  cases call with
  | place body broker ip =>
    rw [orders, bind_eq, Contract.Keeps, wp_bind]
    exact wp_mono _ (fun _ _ _ _ _ => trivial) (fun _ _ _ _ h => h) (keeps_place hguar)
  | runJob => exact keeps_runJob hguar
  | recoverStalled =>
    refine wp_exec_auto (fun _ _ _ => trivial) (fun v i _ _ _ _ _ _ hne => ?_)
      fun _ _ _ _ _ _ _ _ => trivial
    cases hjob : anyRow (v.own.jobs.filter (isStalled v)) i.pick with
    | none => simp [hjob] at hne
    | some job => exact hguar v _ .move

/-- The worlds of intake and worker. -/
abbrev OrderWorld := World Store Write Key Input Failure Unit

theorem sound_orders {H : Sha256} {lot : String} {d : Store} {n : ℕ}
    {es : List (Event OrderCall Input Failure)} {w : OrderWorld}
    (h : Visits (World.step platform (orders H lot)) (World.initial d n) es w) :
    Sound (orderContract H lot) w :=
  sound_visits (fun _ call _ _ _ => keeps_orders (fun _ _ h => h) call) (sound_initial trivial) h

/-- What every commit of the calls keeps holds in every state of a run. -/
theorem traded_visits {H : Sha256} {lot : String} {d : Store} {n : ℕ} {P : Store → Prop}
    (hP : ∀ d ws, platform.validAll d ws = true → Traded H lot d ws → P d →
      P (platform.applyAll d ws)) (hd : P d)
    {es : List (Event OrderCall Input Failure)} {w : OrderWorld}
    (h : Visits (World.step platform (orders H lot)) (World.initial d n) es w) : P w.db :=
  rows_visits (C := orderContract H lot) (fun _ call _ _ _ => keeps_orders (fun _ _ h => h) call)
    (fun v ws _ hvalid hguar hd => hP v.committed ws hvalid hguar hd) (sound_initial trivial) hd h

/-- In every state of a run from a sourced store orders and trades are
sourced. -/
theorem sourced_visits {H : Sha256} {lot : String} {d : Store} {n : ℕ} (hd : Sourced H d)
    {es : List (Event OrderCall Input Failure)} {w : OrderWorld}
    (h : Visits (World.step platform (orders H lot)) (World.initial d n) es w) : Sourced H w.db :=
  traded_visits (fun _ _ hvalid hws hd => sourced_traded hd hvalid hws) hd h

/-- The order of a trade. -/
theorem fills_order {H : Sha256} {d : Store} (h : Sourced H d) {trade : Trade} (ht : trade ∈ d.trades)
    {o : OrderTerms} (ho : o ∈ orderTerms.rows d) (hid : o.orderId = trade.orderId) :
    Fills o trade := by
  obtain ⟨o', ho', hfills⟩ := h.fills trade ht
  have hsame : o'.orderId = o.orderId := hfills.orderId.symm.trans hid.symm
  have heq : o' = o := List.inj_on_of_nodup_map h.unique ho' ho hsame
  exact heq ▸ hfills

/-- A decimal text is a whole number of ten-thousandths. -/
def TenThousandths (text : String) : Prop := ∃ k : ℤ, textValue text = some ((k : ℚ) / 10000)

/-- A text is stored as the number it stands for exactly when that is a whole
number of ten-thousandths. -/
theorem insert_textValue {text : String} {x : Numeric} (h : Numeric.insert text = .ok x) :
    some x.value = textValue text ↔ TenThousandths text := by
  obtain ⟨l, hl, -⟩ := insert_ok h
  have htext : textValue text = some (litValue l) := by rw [textValue, hl, Option.map_some]
  rw [TenThousandths, htext]
  simpa using insert_exact hl h

/-- The trade carries the quantity and the price its request was sent with. -/
def PassedThrough (dto : OrderRequest) (price : String) (trade : Trade) : Prop :=
  some trade.quantity.value = textValue dto.quantity.val ∧ some trade.price.value = textValue price

/-- In every state of every run, the trade of a request that carries a price
has the submitted quantity and price exactly when both are whole numbers of
ten-thousandths. -/
theorem passedThrough_iff {H : Sha256} {lot : String} {d : Store} {n : ℕ} (hd : Sourced H d)
    {es : List (Event OrderCall Input Failure)} {w : OrderWorld}
    (h : Visits (World.step platform (orders H lot)) (World.initial d n) es w)
    {trade : Trade} (ht : trade ∈ w.db.trades) {o : OrderTerms} (ho : o ∈ orderTerms.rows w.db)
    (hid : o.orderId = trade.orderId) {dto : OrderRequest} (hdto : StoredAs dto o)
    {price : Checked isDecimal} (hprice : dto.price = some price) :
    PassedThrough dto price.val trade ↔
      TenThousandths dto.quantity.val ∧ TenThousandths price.val := by
  have hfills := fills_order (sourced_visits hd h) ht ho hid
  obtain ⟨row, id, orderId, now, hrow, rfl⟩ := hdto
  obtain ⟨hquantity, hcolumn, -, -⟩ := row_ok hrow id orderId now
  rw [hprice, nullableNumeric] at hcolumn
  cases hp : Numeric.insert price.val with
  | error e => simp [hp, Except.map] at hcolumn
  | ok x =>
    have hx : (row id orderId now).price = some x := by
      simpa [hp, Except.map, eq_comm] using hcolumn
    have htrade : trade.price = x := by rw [hfills.price, hx, Option.getD_some]
    rw [PassedThrough, hfills.quantity, htrade, insert_textValue hquantity, insert_textValue hp]

/-- A limit order of broker B1. -/
def limitOrder (clientOrderId quantity price : String) : Json :=
  .obj [("brokerId", .str "B1"), ("clientOrderId", .str clientOrderId), ("symbol", .str "EURUSD"),
    ("side", .str "BUY"), ("type", .str "LIMIT"), ("quantity", .str quantity), ("price", .str price)]

/-- The text that is hashed when the order is filled first, at a price. -/
def fillText (price : String) : String :=
  "0000000000000000000000000000000000000000000000000000000000000000|" ++
    "\x7b\"brokerId\":\"B1\",\"executedAt\":\"1970-01-01T00:00:00.000Z\"," ++
    "\"orderId\":\"01HX0000000000000000000001\"," ++
    "\"prevHash\":\"0000000000000000000000000000000000000000000000000000000000000000\"," ++
    "\"price\":\"" ++ price ++ "\",\"quantity\":\"1\",\"side\":\"BUY\"," ++
    "\"symbol\":\"EURUSD\",\"tradeId\":\"01HX0000000000000000000002\"\x7d"

/-- Its digest for some prices. -/
def fillDigests : Sha256 := .known [
  (fillText "1.2346", "92da325cf37ea29c80464741564aa6f4c32e3a38d964ebd0016adcff9e74a497"),
  (fillText "1.2345", "5298429c3e3e21169a7aa84f42201d6fab7ee75f2a1ca5318f7591df409ea5ec"),
  (fillText "0", "8e19a0721d9545337f46426fbe9b9a543448a1db6eaeea38c0d81a45bac94420")] (by decide)

/-- Session t places an order under an id. -/
def placing (t : ℕ) (body : Json) (orderId : String) : List (Event OrderCall Input Failure) :=
  [.start t (.place body (some ⟨"B1", "K1"⟩) none), .step t (drawing orderId), .step t quiet,
    .step t (drawing ("L-" ++ orderId))]

/-- Session t runs the next job up to the commit of its trade, which is charged
to a new wallet. -/
def filling (t : ℕ) (tradeId : String) : List (Event OrderCall Input Failure) :=
  [.start t .runJob, .step t quiet, .step t quiet, .step t (drawing tradeId), .step t quiet,
    .step t quiet, .step t quiet, .step t quiet, .step t quiet, .step t (drawing ("W-" ++ tradeId)),
    .step t (drawing ("E-" ++ tradeId)), .step t quiet]

/-- Session t marks its order, publishes the trade and completes its job. -/
def completing (t : ℕ) : List (Event OrderCall Input Failure) :=
  [.step t quiet, .step t quiet, .step t quiet]

/-- One order is placed and filled. -/
def oneOrder (body : Json) : List (Event OrderCall Input Failure) :=
  placing 1 body "01HX0000000000000000000001" ++ filling 2 "01HX0000000000000000000002" ++ completing 2

/-- A request, the order it was stored as and a trade of that order pass a
check. -/
def recorded (body : Json) (w : OrderWorld) (check : OrderRequest → Trade → Bool) : Bool :=
  (orderRequestSchema body).any fun dto => w.db.trades.any fun trade => w.db.orders.any fun o =>
    match dto.row with
    | .ok row => o.toOrderTerms = (row o.id o.orderId o.receivedAt).toOrderTerms ∧
        o.orderId = trade.orderId ∧ check dto trade
    | .error _ => false

theorem recorded_exists {body : Json} {w : OrderWorld} {check : OrderRequest → Trade → Bool}
    (h : recorded body w check = true) : ∃ dto o trade, orderRequestSchema body = some dto ∧
      o ∈ orderTerms.rows w.db ∧ StoredAs dto o ∧ trade ∈ w.db.trades ∧ o.orderId = trade.orderId ∧
      check dto trade = true := by
  obtain ⟨dto, hdto, h⟩ := (Option.any_eq_true ..).mp h
  obtain ⟨trade, htrade, h⟩ := List.any_eq_true.mp h
  obtain ⟨o, ho, h⟩ := List.any_eq_true.mp h
  split at h
  · rename_i row hrow
    obtain ⟨hstored, hid, hcheck⟩ := of_decide_eq_true h
    exact ⟨dto, o.toOrderTerms, trade, hdto, List.mem_map_of_mem ho, ⟨row, _, _, _, hrow, hstored⟩,
      htrade, hid, hcheck⟩
  · simp at h

/-- A price of five decimals is recorded with four. -/
theorem price_not_passedThrough : ∃ es w dto o trade price,
    run (World.step platform (orders fillDigests "4")) (World.initial Store.empty 0) es = some w ∧
    orderRequestSchema (limitOrder "C1" "1" "1.23456") = some dto ∧ o ∈ orderTerms.rows w.db ∧
    StoredAs dto o ∧ trade ∈ w.db.trades ∧ o.orderId = trade.orderId ∧ dto.price = some price ∧
    ¬ PassedThrough dto price.val trade := by
  obtain ⟨w, hrun, hcheck⟩ := run_reaches (World.step platform (orders fillDigests "4"))
    (World.initial Store.empty 0)
    (oneOrder (limitOrder "C1" "1" "1.23456"))
    (fun w => recorded (limitOrder "C1" "1" "1.23456") w fun dto trade =>
      dto.price.any fun price => some trade.price.value ≠ textValue price.val) (by decide +kernel)
  obtain ⟨dto, o, trade, hdto, ho, hstored, htrade, hid, hlost⟩ := recorded_exists hcheck
  obtain ⟨price, hprice, hlost⟩ := (Option.any_eq_true ..).mp hlost
  exact ⟨_, w, dto, o, trade, price, hrun, hdto, ho, hstored, htrade, hid, hprice,
    fun h => of_decide_eq_true hlost h.2⟩

/-- A price of four decimals is recorded as it was sent. -/
theorem passedThrough_iff_once : ∃ es w dto trade price,
    run (World.step platform (orders fillDigests "4")) (World.initial Store.empty 0) es = some w ∧
    orderRequestSchema (limitOrder "C1" "1" "1.2345") = some dto ∧ trade ∈ w.db.trades ∧
    dto.price = some price ∧ PassedThrough dto price.val trade := by
  obtain ⟨w, hrun, hcheck⟩ := run_reaches (World.step platform (orders fillDigests "4"))
    (World.initial Store.empty 0)
    (oneOrder (limitOrder "C1" "1" "1.2345"))
    (fun w => recorded (limitOrder "C1" "1" "1.2345") w fun dto _ =>
      textValue dto.quantity.val = some (((10000 : ℤ) : ℚ) / 10000) ∧
        dto.price.any fun price => textValue price.val = some (((12345 : ℤ) : ℚ) / 10000))
    (by decide +kernel)
  obtain ⟨dto, o, trade, hdto, ho, hstored, htrade, hid, hvalues⟩ := recorded_exists hcheck
  obtain ⟨hquantity, hvalues⟩ := of_decide_eq_true hvalues
  obtain ⟨price, hprice, hvalue⟩ := (Option.any_eq_true ..).mp hvalues
  exact ⟨_, w, dto, trade, price, hrun, hdto, htrade, hprice,
    (passedThrough_iff (sourced_noOrders ⟨rfl, rfl⟩) (visits_last hrun) htrade ho hid hstored
      hprice).mpr ⟨⟨10000, hquantity⟩, 12345, of_decide_eq_true hvalue⟩⟩

end LpPlatform.OrderFills
