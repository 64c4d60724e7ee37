import LpPlatform.CommissionLedger
import LpPlatform.RealizedProfit

/-!
# The profit on the dashboard and on the trades page

The dashboard pairs a close leg with the order placed under the client id in
front of its suffix and counts the quantity of the open leg. The trades page
pairs it with the trade of that id and counts the quantity of the close leg.
The two report the same profit when each close leg names the client id and the
trade id of one open trade, and closes it as a whole or without a move, or
names neither. Both subtract the same charges: the worker charges nothing but
brokerage.
-/

namespace LpPlatform.PageProfit

open Amounts BrokerPortal CommissionLedger CurrencyCaps DecimalText DepositsAdmin HashChain
open InterferenceLogic JsValues Ledger OrderFills OrderIntake OrderWorker PortalReads RealizedProfit
open RowStore Sessions StatementProgram StepRuns Tables TradeChain TradesList

/-- What the page reads of an item of the list. -/
structure TradeItem where
  tradeId : String
  side : String
  quantity : String
  price : String
  clientOrderId : Option String
  chargesTotal : Option String

/-- The text of a field, unless it is null or absent. -/
def textField (key : String) (item : Json) : Option String := (item.field? key).bind Json.string?

/-- An item as the page reads it. -/
def tradeItem (item : Json) : TradeItem :=
  ⟨(textField "tradeId" item).getD "", (textField "side" item).getD "",
    (textField "quantity" item).getD "", (textField "price" item).getD "",
    textField "clientOrderId" item, textField "chargesTotal" item⟩

/-- The value that was set last for a key. -/
def mapGet {β : Type} (entries : List (String × β)) (key : String) : Option β :=
  (entries.filter fun e => e.1 = key).getLast?.map Prod.snd

/-- What a trade realized, unless it is open, under a rounding. -/
def tradePnl (round : ℚ → ℚ) (all : List TradeItem) (t : TradeItem) : Option ℚ :=
  match t.clientOrderId.filter isCloseId with
  | none => none
  | some coid =>
    match mapGet (all.map fun t => (t.tradeId, t)) (String.ofList (coid.toList.dropLast.dropLast)) with
    | none => none
    | some opened =>
      let openPrice := numberWith round opened.price
      let closePrice := numberWith round t.price
      some (round ((if opened.side = "BUY" then round (closePrice - openPrice)
        else round (openPrice - closePrice)) * numberWith round t.quantity))

/-- `buildPnlMap`, under a rounding. -/
def buildPnlMap (round : ℚ → ℚ) (all : List TradeItem) : List (String × Option ℚ) :=
  all.map fun t => (t.tradeId, tradePnl round all t)

/-- The profit of the page, under a rounding. -/
def pageRawPnl (round : ℚ → ℚ) (all : List TradeItem) : ℚ :=
  all.foldl (fun s t => round (s + ((mapGet (buildPnlMap round all) t.tradeId).join.getD 0))) 0

/-- The charges of the page, under a rounding. -/
def pageCharges (round : ℚ → ℚ) (all : List TradeItem) : ℚ :=
  all.foldl (fun s t => round (s + numberWith round (t.chargesTotal.getD "0"))) 0

/-- `rawPnl` and `netPnl`. -/
structure Pnl where
  rawPnl : ℚ
  netPnl : ℚ
  deriving DecidableEq

/-- What the page reports. -/
def pagePnl (round : ℚ → ℚ) (all : List TradeItem) : Pnl :=
  ⟨pageRawPnl round all, round (pageRawPnl round all - pageCharges round all)⟩

/-- What the dashboard reports, for some order of the legs. -/
def dashboardPnl (round : ℚ → ℚ) (brokerId : String) (d : Store) (pick : ℕ) : Pnl :=
  let totalCharges := numberWith round (sumText ((brokerageRows brokerId d).map (·.1.amount)))
  let rawPnl := realizedWith round (anyOrder (legsWith round brokerId d) pick)
  ⟨rawPnl, round (rawPnl - totalCharges)⟩

/-- With the rounding of doubles these are the numbers of the dashboard. -/
theorem dashboardPnl_toDouble (brokerId : String) (d : Store) (pick : ℕ) :
    dashboardPnl toDouble brokerId d pick =
      ⟨realized (anyOrder (legsOf brokerId d) pick), toDouble (realized (anyOrder (legsOf brokerId d) pick) -
        number (sumText ((brokerageRows brokerId d).map (·.1.amount))))⟩ := rfl

/-- The rows of the list endpoint for `limit=500`. -/
def listRows (brokerId : String) (d : Store) : List Trade :=
  findByBroker ⟨brokerId, none, none, none, none, none, 500⟩ d

/-- The query of the page. -/
def pageQuery : Query := fun key => if key = "limit" then some (.one "500") else none

/-- The list endpoint returns these rows to a user of the broker. -/
theorem list_rows (K : PortalConfig) {user : CurrentUser} {brokerId : String}
    (hscope : scope (some user) none = .ok brokerId) (d : Store) (n : ℕ) (i : Input) :
    ∃ page, (list K (some user) pageQuery).solo platform [i] d n none = some (.ok page, d, n) ∧
      page.items = (listRows brokerId d).map (tradeListItem d) := by
  have hquery : tradeListQuerySchema K.dateParser pageQuery =
      some ⟨none, none, none, none, none, none, 500⟩ := by
    have hlimit : limitField (some (.one "500")) = some 500 := by decide +kernel
    simp [tradeListQuerySchema, pageQuery, stringParam, OrderIntake.optional, hlimit]
  rw [list, hquery]
  simp only [hscope, cursorField]
  refine ⟨_, rfl, ?_⟩
  simp [listRows]

/-- The order of a trade has a client id. -/
def clientOrderId (d : Store) (t : Trade) : Option String := (orderOf d t).map (·.clientOrderId)

/-- A row as the page reads it. -/
theorem tradeItem_listItem (d : Store) (t : Trade) : tradeItem (tradeListItem d t) =
    ⟨t.tradeId, sideText t.side, t.quantity.text, t.price.text, clientOrderId d t,
      some (chargesTotal d t.tradeId)⟩ := by
  have hclient : (nullableText (clientOrderId d t)).string? = clientOrderId d t := by
    cases clientOrderId d t <;> rfl
  exact congrArg (fun coid => (⟨t.tradeId, sideText t.side, t.quantity.text, t.price.text, coid,
    some (chargesTotal d t.tradeId)⟩ : TradeItem)) hclient

section Charges

variable {d : Store} {brokerId : String}

/-- The text of a sum, read exactly. -/
theorem numberWith_sumText (amounts : List Numeric) :
    numberWith id (sumText amounts) = ((amounts.map (·.units)).sum : ℤ) / 10000 := by
  rw [sumText]
  split
  · rename_i hnone
    subst hnone
    decide +kernel
  · exact numberWith_units _

/-- The text of the charges of a trade, read exactly. -/
theorem numberWith_chargesTotal (tradeId : String) : numberWith id (chargesTotal d tradeId) =
    (((d.charges.filter fun c => c.tradeId = tradeId).map (·.amount.units)).sum : ℤ) / 10000 := by
  rw [chargesTotal]
  split
  · exact numberWith_units _
  · rename_i hnone
    have hfilter : d.charges.filter (fun c => c.tradeId = tradeId) = [] :=
      List.filter_eq_nil_iff.mpr fun c hc hid => hnone (List.any_eq_true.mpr ⟨c, hc, hid⟩)
    rw [hfilter]
    decide +kernel

/-- The trades that a charge is of. -/
theorem sum_of_charge (c : Charge) (ts : List Trade) :
    ((ts.filter fun t => t.tradeId = c.tradeId).map fun _ => c.amount.units).sum =
      (ts.map fun t => if c.tradeId = t.tradeId then c.amount.units else 0).sum := by
  induction ts with
  | nil => rfl
  | cons t ts ih =>
    by_cases hsame : t.tradeId = c.tradeId
    · rw [List.filter_cons_of_pos (by simp [hsame]), List.map_cons, List.sum_cons, ih, List.map_cons,
        List.sum_cons, if_pos hsame.symm]
    · rw [List.filter_cons_of_neg (by simp [hsame]), ih, List.map_cons, List.sum_cons,
        if_neg (Ne.symm hsame), zero_add]

/-- A sum over a join, from either side. -/
theorem sum_join (cs : List Charge) (ts : List Trade) :
    (cs.flatMap fun c => (ts.filter fun t => t.tradeId = c.tradeId).map fun _ => c.amount.units).sum =
      (ts.map fun t => ((cs.filter fun c => c.tradeId = t.tradeId).map (·.amount.units)).sum).sum := by
  induction cs with
  | nil => simp
  | cons c cs ih =>
    rw [List.flatMap_cons, List.sum_append, ih, sum_of_charge, ← List.sum_map_add]
    refine congrArg List.sum (List.map_congr_left fun t _ => ?_)
    by_cases hsame : c.tradeId = t.tradeId <;> simp [hsame]

/-- Charges that are all brokerage sum to the same from either side. -/
theorem charges_agree (hcharges : ∀ c ∈ d.charges, c.type = .brokerage) :
    numberWith id (sumText ((brokerageRows brokerId d).map (·.1.amount))) =
      ((tradesOf brokerId d.trades).map fun t => numberWith id (chargesTotal d t.tradeId)).sum := by
  have hrows : ((brokerageRows brokerId d).map (·.1.amount)).map (·.units) =
      d.charges.flatMap fun c => ((tradesOf brokerId d.trades).filter fun t => t.tradeId = c.tradeId).map
        fun _ => c.amount.units := by
    rw [brokerageRows, List.filter_eq_self.mpr fun c hc => decide_eq_true (hcharges c hc),
      List.map_map, List.map_flatMap]
    simp [Function.comp_def]
  rw [numberWith_sumText, hrows, sum_join]
  simp only [numberWith_chargesTotal]
  generalize tradesOf brokerId d.trades = ts
  induction ts with
  | nil => simp
  | cons t ts ih =>
    simp only [List.map_cons, List.sum_cons, ← ih]
    push_cast
    ring

end Charges

/-- The client id of an open trade. -/
def openClientId (d : Store) (t : Trade) : Option String :=
  (clientOrderId d t).filter fun coid => coid ≠ "" ∧ ¬ isCloseId coid

/-- A trade as a leg, read exactly. -/
def exactLeg (d : Store) (t : Trade) : Leg := ⟨clientOrderId d t, t.side, t.price.value, t.quantity.value⟩

/-- Every close leg names the client id and the trade id of one open trade, and
closes it as a whole or without a move, or names neither. -/
def ClosedAlike (brokerId : String) (d : Store) : Prop :=
  ∀ t ∈ tradesOf brokerId d.trades, ∀ coid, clientOrderId d t = some (coid ++ "-C") →
    ∀ opened ∈ tradesOf brokerId d.trades,
      (openClientId d opened = some coid ↔ opened.tradeId = coid) ∧
      (opened.tradeId = coid → t.quantity = opened.quantity ∨ t.price = opened.price)

instance (brokerId : String) (d : Store) : Decidable (ClosedAlike brokerId d) :=
  decidable_of_iff (∀ t ∈ tradesOf brokerId d.trades, ∀ coid ∈ (clientOrderId d t).filter isCloseId,
    ∀ opened ∈ tradesOf brokerId d.trades,
      (openClientId d opened = some (String.ofList (coid.toList.dropLast.dropLast)) ↔
        opened.tradeId = String.ofList (coid.toList.dropLast.dropLast)) ∧
      (opened.tradeId = String.ofList (coid.toList.dropLast.dropLast) →
        t.quantity = opened.quantity ∨ t.price = opened.price)) (by
    constructor
    · intro h t ht coid hclose opened hopened
      have hpair := h t ht (coid ++ "-C")
        (Option.filter_eq_some_iff.mpr ⟨hclose, isCloseId_append coid⟩) opened hopened
      rwa [drop_suffix] at hpair
    · intro h t ht coid hclose opened hopened
      obtain ⟨hfound, hsuffix⟩ := Option.filter_eq_some_iff.mp hclose
      exact h t ht _ (by rw [split_suffix hsuffix]; exact hfound) opened hopened)

section Pairing

variable {d : Store} {brokerId : String}

theorem legsWith_id : legsWith id brokerId d = (tradesOf brokerId d.trades).map (exactLeg d) := by
  refine List.map_congr_left fun t _ => ?_
  rw [numberWith_text, numberWith_text]
  rfl

/-- Under distinct keys a row is found by its key. -/
theorem mapGet_row {ρ β : Type} {key : ρ → String} {f : ρ → β} {rows : List ρ}
    (h : (rows.map key).Nodup) {r : ρ} (hr : r ∈ rows) :
    mapGet (rows.map fun r => (key r, f r)) (key r) = some (f r) := by
  have hmem : (key r, f r) ∈ (rows.map fun r => (key r, f r)).filter fun e => e.1 = key r :=
    List.mem_filter.mpr ⟨List.mem_map_of_mem hr, by simp⟩
  rw [mapGet]
  cases hlast : ((rows.map fun r => (key r, f r)).filter fun e => e.1 = key r).getLast? with
  | none =>
    rw [List.getLast?_eq_none_iff.mp hlast] at hmem
    simp at hmem
  | some e =>
    obtain ⟨he, hkey⟩ := List.mem_filter.mp (List.mem_of_getLast? hlast)
    obtain ⟨r', hr', rfl⟩ := List.mem_map.mp he
    obtain rfl := List.inj_on_of_nodup_map h hr' hr (of_decide_eq_true hkey)
    rfl

/-- No row is found by another key. -/
theorem mapGet_none {ρ β : Type} {key : ρ → String} {f : ρ → β} {rows : List ρ} {k : String}
    (h : ∀ r ∈ rows, key r ≠ k) : mapGet (rows.map fun r => (key r, f r)) k = none := by
  have hnone : (rows.map fun r => (key r, f r)).filter (fun e => e.1 = k) = [] := by
    refine List.filter_eq_nil_iff.mpr fun e he hk => ?_
    obtain ⟨r, hr, rfl⟩ := List.mem_map.mp he
    exact h r hr (of_decide_eq_true hk)
  rw [mapGet, hnone]
  rfl

/-- A row of the page. -/
def pageItem (d : Store) (t : Trade) : TradeItem := tradeItem (tradeListItem d t)

theorem pageItem_fields (d : Store) (t : Trade) : (pageItem d t).tradeId = t.tradeId ∧
    (pageItem d t).side = sideText t.side ∧ numberWith id (pageItem d t).quantity = t.quantity.value ∧
    numberWith id (pageItem d t).price = t.price.value ∧
    (pageItem d t).clientOrderId = clientOrderId d t := by
  rw [pageItem, tradeItem_listItem]
  exact ⟨rfl, rfl, numberWith_text _, numberWith_text _, rfl⟩

/-- The page shows the trades of the broker in some order. -/
theorem listRows_perm (hfew : (tradesOf brokerId d.trades).length ≤ 500) :
    (listRows brokerId d).Perm (tradesOf brokerId d.trades) := by
  have hall : (tradesOf brokerId d.trades).filter (fun t => (none : Option String).all (· = t.symbol) &&
      (none : Option OrderSide).all (· = t.side) && (none : Option Instant).all (· ≤ t.executedAt) &&
      (none : Option Instant).all (t.executedAt < ·) && (none : Option ℤ).all ((t.id : ℤ) ≤ ·)) =
      tradesOf brokerId d.trades := List.filter_eq_self.mpr fun t _ => rfl
  rw [listRows, findByBroker, hall, List.take_of_length_le (by rw [List.length_insertionSort]; exact hfew)]
  exact List.perm_insertionSort _ _

/-- An open leg is of a trade with its client id. -/
theorem openLeg_trade {legs : List Leg} {coid : String} {l : Leg}
    (hlegs : legs.Perm ((tradesOf brokerId d.trades).map (exactLeg d)))
    (h : openLeg legs coid = some l) :
    ∃ opened ∈ tradesOf brokerId d.trades, exactLeg d opened = l ∧ openClientId d opened = some coid := by
  obtain ⟨hmem, hopen⟩ := List.mem_filter.mp (List.mem_of_getLast? h)
  obtain ⟨opened, hopened, rfl⟩ := List.mem_map.mp (hlegs.subset hmem)
  obtain ⟨hcoid, hcheck⟩ := of_decide_eq_true hopen
  exact ⟨opened, hopened, rfl, Option.filter_eq_some_iff.mpr ⟨hcoid, decide_eq_true hcheck⟩⟩

/-- A trade with a client id is among the open legs. -/
theorem openLeg_isSome {legs : List Leg} {coid : String} {opened : Trade}
    (hlegs : legs.Perm ((tradesOf brokerId d.trades).map (exactLeg d)))
    (hopened : opened ∈ tradesOf brokerId d.trades) (h : openClientId d opened = some coid) :
    (openLeg legs coid).isSome := by
  obtain ⟨hcoid, hcheck⟩ := Option.filter_eq_some_iff.mp h
  rw [openLeg, List.getLast?_isSome]
  refine List.ne_nil_of_mem (a := exactLeg d opened) (List.mem_filter.mpr ⟨?_, ?_⟩)
  · exact hlegs.symm.subset (List.mem_map_of_mem hopened)
  · exact decide_eq_true ⟨hcoid, of_decide_eq_true hcheck⟩

/-- The page finds the trade of an id. -/
theorem pageItem_found {rows : List Trade} (hids : (rows.map (·.tradeId)).Nodup) {opened : Trade}
    (hopened : opened ∈ rows) :
    mapGet ((rows.map (pageItem d)).map fun t => (t.tradeId, t)) opened.tradeId =
      some (pageItem d opened) := by
  rw [List.map_map]
  exact mapGet_row (f := pageItem d) hids hopened

/-- The page finds nothing under another id. -/
theorem pageItem_missing {rows : List Trade} {k : String} (h : ∀ r ∈ rows, r.tradeId ≠ k) :
    mapGet ((rows.map (pageItem d)).map fun t => (t.tradeId, t)) k = none := by
  rw [List.map_map]
  exact mapGet_none (f := pageItem d) h

/-- The move in the direction of a position, by its side and by its text. -/
theorem signed_move {side : OrderSide} {x y quantity move : ℚ} (h : move = (x - y) * quantity) :
    (if side = .buy then move else -move) =
      (if sideText side = "BUY" then x - y else y - x) * quantity := by
  cases side with
  | buy => simpa [sideText] using h
  | sell =>
    rw [if_neg (by decide), if_neg (by decide), h]
    ring

/-- What a close leg adds is the same on both sides. -/
theorem addLeg_tradePnl {legs : List Leg} {rows : List Trade} (halike : ClosedAlike brokerId d)
    (hlegs : legs.Perm ((tradesOf brokerId d.trades).map (exactLeg d)))
    (hrows : rows.Perm (tradesOf brokerId d.trades))
    (hids : (rows.map (·.tradeId)).Nodup) {t : Trade} (ht : t ∈ tradesOf brokerId d.trades) (rawPnl : ℚ) :
    addLeg id legs rawPnl (exactLeg d t) =
      rawPnl + (tradePnl id (rows.map (pageItem d)) (pageItem d t)).getD 0 := by
  obtain ⟨-, -, hquantity, hprice, hclient⟩ := pageItem_fields d t
  have hleg : (exactLeg d t).coid = clientOrderId d t := rfl
  rw [addLeg, tradePnl, hclient, hleg]
  cases hcoid : (clientOrderId d t).filter isCloseId with
  | none => simp
  | some coid =>
    obtain ⟨hfound, hsuffix⟩ := Option.filter_eq_some_iff.mp hcoid
    have hclose : clientOrderId d t = some (String.ofList (coid.toList.dropLast.dropLast) ++ "-C") := by
      rw [split_suffix hsuffix]
      exact hfound
    have hpair := halike t ht _ hclose
    simp only []
    by_cases hopen : ∃ opened ∈ tradesOf brokerId d.trades,
        opened.tradeId = String.ofList (coid.toList.dropLast.dropLast)
    · obtain ⟨opened, hopened, hid⟩ := hopen
      obtain ⟨hboth, hwhole⟩ := hpair opened hopened
      obtain ⟨l, hl⟩ := Option.isSome_iff_exists.mp (openLeg_isSome hlegs hopened (hboth.mpr hid))
      obtain ⟨opened', hopened', rfl, hclient'⟩ := openLeg_trade hlegs hl
      obtain rfl : opened' = opened :=
        List.inj_on_of_nodup_map hids (hrows.symm.subset hopened') (hrows.symm.subset hopened)
          (((hpair opened' hopened').1.mp hclient').trans hid.symm)
      have hpage := pageItem_found (d := d) hids (hrows.symm.subset hopened)
      rw [hid] at hpage
      obtain ⟨-, hside, -, hopenPrice, -⟩ := pageItem_fields d opened'
      rw [hl, hpage]
      simp only [hside, hopenPrice, hprice, hquantity, id, Option.getD_some]
      refine congrArg (rawPnl + ·) (signed_move ?_)
      rcases hwhole hid with hsame | hsame
      · exact congrArg (fun q : Numeric => (t.price.value - opened'.price.value) * q.value) hsame.symm
      · simp [exactLeg, hsame]
    · have hnone : openLeg legs (String.ofList (coid.toList.dropLast.dropLast)) = none := by
        by_contra hsome
        obtain ⟨l, hl⟩ := Option.ne_none_iff_exists'.mp hsome
        obtain ⟨opened, hopened, -, hclient'⟩ := openLeg_trade hlegs hl
        exact hopen ⟨opened, hopened, (hpair opened hopened).1.mp hclient'⟩
      rw [hnone, pageItem_missing fun r hr hid => hopen ⟨r, hrows.subset hr, hid⟩]
      simp

/-- A sum that adds a share for each element. -/
theorem foldl_shares {ρ : Type} {f : ℚ → ρ → ℚ} {share : ρ → ℚ} {rows : List ρ}
    (h : ∀ r ∈ rows, ∀ total, f total r = total + share r) (total : ℚ) :
    rows.foldl f total = total + (rows.map share).sum := by
  induction rows generalizing total with
  | nil => simp
  | cons r rows ih =>
    obtain ⟨hr, hrest⟩ := List.forall_mem_cons.mp h
    rw [List.foldl_cons, ih hrest, hr, List.map_cons, List.sum_cons, add_assoc]

/-- The page and the dashboard report the same of rows in any order. -/
theorem pnl_agree (halike : ClosedAlike brokerId d) (hids : (d.trades.map (·.tradeId)).Nodup)
    (hcharges : ∀ c ∈ d.charges, c.type = .brokerage)
    (hfew : (tradesOf brokerId d.trades).length ≤ 500) (pick : ℕ) :
    dashboardPnl id brokerId d pick = pagePnl id ((listRows brokerId d).map (pageItem d)) := by
  have hrows := listRows_perm hfew
  have hlegs : (anyOrder (legsWith id brokerId d) pick).Perm
      ((tradesOf brokerId d.trades).map (exactLeg d)) := by
    rw [← legsWith_id]
    exact anyOrder_perm _ _
  have htradeIds : ((listRows brokerId d).map (·.tradeId)).Nodup :=
    ((hrows.map _).nodup_iff).mpr ((List.filter_sublist.map _).nodup hids)
  have hserver : realizedWith id (anyOrder (legsWith id brokerId d) pick) =
      ((tradesOf brokerId d.trades).map fun t =>
        (tradePnl id ((listRows brokerId d).map (pageItem d)) (pageItem d t)).getD 0).sum := by
    have hadds := fun t ht => @addLeg_tradePnl d brokerId _ _ halike hlegs hrows htradeIds t ht
    have hshares : ∀ l ∈ anyOrder (legsWith id brokerId d) pick, ∀ total,
        addLeg id (anyOrder (legsWith id brokerId d) pick) total l =
          total + addLeg id (anyOrder (legsWith id brokerId d) pick) 0 l := by
      intro l hl total
      obtain ⟨t, ht, rfl⟩ := List.mem_map.mp (hlegs.subset hl)
      rw [hadds t ht, hadds t ht 0, zero_add]
    rw [realizedWith, foldl_shares hshares, zero_add, (hlegs.map _).sum_eq, List.map_map]
    refine congrArg List.sum (List.map_congr_left fun t ht => ?_)
    rw [Function.comp_apply, hadds t ht, zero_add]
  have hpage : pageRawPnl id ((listRows brokerId d).map (pageItem d)) =
      ((tradesOf brokerId d.trades).map fun t =>
        (tradePnl id ((listRows brokerId d).map (pageItem d)) (pageItem d t)).getD 0).sum := by
    rw [pageRawPnl, List.foldl_map, ← (hrows.map _).sum_eq]
    refine (foldl_shares (fun t ht total => ?_) 0).trans (zero_add _)
    have hown : mapGet (buildPnlMap id ((listRows brokerId d).map (pageItem d))) (pageItem d t).tradeId =
        some (tradePnl id ((listRows brokerId d).map (pageItem d)) (pageItem d t)) := by
      rw [buildPnlMap, List.map_map, (pageItem_fields d t).1]
      exact mapGet_row htradeIds ht
    rw [hown]
    rfl
  have hpageCharges : pageCharges id ((listRows brokerId d).map (pageItem d)) =
      ((tradesOf brokerId d.trades).map fun t => numberWith id (chargesTotal d t.tradeId)).sum := by
    rw [pageCharges, List.foldl_map, ← (hrows.map _).sum_eq]
    refine (foldl_shares (fun t ht total => ?_) 0).trans (zero_add _)
    rw [pageItem, tradeItem_listItem]
    rfl
  rw [dashboardPnl, pagePnl, hserver, hpage, hpageCharges, charges_agree hcharges]

end Pairing

/-- A store without trades and charges. -/
structure Untraded (d : Store) : Prop where
  trades : d.trades = []
  charges : d.charges = []

/-- Trades under distinct ids, with brokerage charges only. -/
structure BrokerageOnly (d : Store) : Prop where
  trades : (d.trades.map (·.tradeId)).Nodup
  charges : ∀ c ∈ d.charges, c.type = .brokerage

theorem brokerageOnly_traded {H : Sha256} {lot : String} {d : Store} {ws : List Write}
    (h : BrokerageOnly d) (hvalid : platform.validAll d ws = true) (hws : Traded H lot d ws) :
    BrokerageOnly (platform.applyAll d ws) := by
  constructor
  · refine applyAll_invariant platform (P := fun d => (d.trades.map (·.tradeId)).Nodup)
      (fun d w hd hw => ?_) h.trades hvalid
    cases w with
    | insertTrade row => exact nodup_insert hd (Bool.and_eq_true_iff.mp hw).1
    | _ => exact hd
  · have hnew : ∀ c ∈ ws.filterMap chargeRows.row?, c.type = .brokerage := by
      cases hws with
      | fill hfill =>
        obtain ⟨_, _, hcommission⟩ := hfill.commission
        cases hcommission with
        | exempt hdue => simp [chargeRows, Write.charge?]
        | @charged commission charge wallet pre entryRow hdue hamount hwallet hentry =>
          rcases hwallet with ⟨rfl, _⟩ | rfl <;> simpa [chargeRows, Write.charge?] using hentry.type
      | _ => simp [chargeRows, Write.charge?]
    intro c hc
    have hrows : (platform.applyAll d ws).charges = d.charges ++ ws.filterMap chargeRows.row? :=
      chargeRows.applyAll d ws
    rw [hrows, List.mem_append] at hc
    exact hc.elim (h.charges c) (hnew c)

/-- Session t fills a close leg, which is not charged. -/
def closing (t : ℕ) (tradeId : String) : List (Event OrderCall Input Failure) :=
  [.start t .runJob, .step t quiet, .step t quiet, .step t (drawing tradeId), .step t quiet,
    .step t quiet, .step t quiet, .step t quiet]

/-- A position is opened under a client id, and closed one above its price. -/
def openedAndClosed (openId : String) : List (Event OrderCall Input Failure) :=
  oneOrder (limitOrder openId "1" "1.2345") ++
    placing 3 (limitOrder "01HX0000000000000000000002-C" "1" "2.2345") "O2" ++ closing 4 "T2"

/-- The close leg names the trade it closes, and only the page counts it. -/
theorem profits_differ : ∃ es w,
    run (World.step platform (orders fillDigests "4")) (World.initial Store.empty 0) es = some w ∧
    w.db.orders.map (·.clientOrderId) = ["A", "01HX0000000000000000000002-C"] ∧
    dashboardPnl id "B1" w.db 0 = ⟨0, -4⟩ ∧
    pagePnl id ((listRows "B1" w.db).map (pageItem w.db)) = ⟨1, -3⟩ ∧
    dashboardPnl toDouble "B1" w.db 0 ≠ pagePnl toDouble ((listRows "B1" w.db).map (pageItem w.db)) := by
  obtain ⟨w, hrun, hcheck⟩ := run_reaches (World.step platform (orders fillDigests "4"))
    (World.initial Store.empty 0) (openedAndClosed "A")
    (fun w => w.db.orders.map (·.clientOrderId) = ["A", "01HX0000000000000000000002-C"] ∧
      dashboardPnl id "B1" w.db 0 = ⟨0, -4⟩ ∧
      pagePnl id ((listRows "B1" w.db).map (pageItem w.db)) = ⟨1, -3⟩ ∧
      dashboardPnl toDouble "B1" w.db 0 ≠ pagePnl toDouble ((listRows "B1" w.db).map (pageItem w.db)))
    (by decide +kernel)
  exact ⟨_, w, hrun, of_decide_eq_true hcheck⟩

/-- In every state of every run, while the broker has at most 500 trades, the
dashboard and the page report the same profit if every close leg is paired
alike and closes its position as a whole or without a move. -/
theorem pages_agree {H : Sha256} {lot : String} {d : Store} {n : ℕ} (hd : Untraded d)
    {es : List (Event OrderCall Input Failure)} {w : OrderWorld}
    (h : Visits (World.step platform (orders H lot)) (World.initial d n) es w) {brokerId : String}
    (hfew : (tradesOf brokerId w.db.trades).length ≤ 500) (halike : ClosedAlike brokerId w.db)
    (pick : ℕ) :
    dashboardPnl id brokerId w.db pick = pagePnl id ((listRows brokerId w.db).map (pageItem w.db)) := by
  have hstart : BrokerageOnly d := ⟨by simp [hd.trades], by simp [hd.charges]⟩
  have hrows : BrokerageOnly w.db :=
    traded_visits (fun _ _ hvalid hws hd => brokerageOnly_traded hd hvalid hws) hstart h
  exact pnl_agree halike hrows.trades hrows.charges hfew pick

theorem pages_agree_closed : ∃ w,
    run (World.step platform (orders fillDigests "4")) (World.initial Store.empty 0)
      (openedAndClosed "01HX0000000000000000000002") = some w ∧
    dashboardPnl id "B1" w.db 0 = ⟨1, -3⟩ ∧
    dashboardPnl id "B1" w.db 0 = pagePnl id ((listRows "B1" w.db).map (pageItem w.db)) := by
  obtain ⟨w, hrun, hcheck⟩ := run_reaches (World.step platform (orders fillDigests "4"))
    (World.initial Store.empty 0) (openedAndClosed "01HX0000000000000000000002")
    (fun w => dashboardPnl id "B1" w.db 0 = ⟨1, -3⟩ ∧
      (tradesOf "B1" w.db.trades).length ≤ 500 ∧ ClosedAlike "B1" w.db) (by decide +kernel)
  obtain ⟨hpnl, hfew, halike⟩ := of_decide_eq_true hcheck
  exact ⟨w, hrun, hpnl, pages_agree ⟨rfl, rfl⟩ (visits_last hrun) hfew halike 0⟩

end LpPlatform.PageProfit
