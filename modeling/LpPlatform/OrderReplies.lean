import LpPlatform.ApiEnvelopes
import LpPlatform.PortalReads

/-!
# Orders as the client hands them over

Rows of orders are sent with their numbers, amounts and times as texts, and the
client keeps the fields that it knows. What it hands over has them as the rows
have them, in the same order.
-/

namespace LpPlatform.OrderReplies

open Amounts ApiEnvelopes JsValues JsonHosts JsonTexts JsonTrees Sessions Tables TradeChain

variable {ν T : Type}

/-- A text of the program, in code units. -/
def jsText (s : String) : Text := units s.toList

def typeText : Tables.OrderType → String
  | .market => "MARKET"
  | .limit => "LIMIT"
  | .stop => "STOP"
  | .stopLimit => "STOP_LIMIT"

def timeInForceText : TimeInForce → String
  | .day => "DAY"
  | .ioc => "IOC"
  | .fok => "FOK"
  | .gtc => "GTC"

def statusText : OrderStatus → String
  | .pending => "PENDING"
  | .accepted => "ACCEPTED"
  | .partiallyFilled => "PARTIALLY_FILLED"
  | .filled => "FILLED"
  | .rejected => "REJECTED"
  | .cancelled => "CANCELLED"

/-- A text as a value. -/
def stringTree (s : String) : JsonTree ν := .str (jsText s)

/-- A text or null. -/
def nullableTree : Option String → JsonTree ν
  | some s => stringTree s
  | none => .null

/-- `Date.prototype.toJSON`. -/
def dateTree (t : Instant) : JsonTree ν := if isTimeValue t then stringTree (toISOString t) else .null

/-- The fields of a row as it is sent. Its number is a big integer, which is
sent as a text. -/
def orderFields (o : Order) : List (Text × JsonTree ν) :=
  [(ascii "id", stringTree (toString o.id)), (ascii "orderId", stringTree o.orderId),
    (ascii "clientOrderId", stringTree o.clientOrderId), (ascii "brokerId", stringTree o.brokerId),
    (ascii "symbol", stringTree o.symbol), (ascii "side", stringTree (sideText o.side)),
    (ascii "type", stringTree (typeText o.type)), (ascii "quantity", stringTree o.quantity.text),
    (ascii "price", nullableTree (o.price.map Numeric.text)),
    (ascii "timeInForce", stringTree (timeInForceText o.timeInForce)),
    (ascii "status", stringTree (statusText o.status)), (ascii "rejectionReason", nullableTree o.rejectionReason),
    (ascii "clientUserLabel", nullableTree o.clientUserLabel), (ascii "clientUserId", nullableTree o.clientUserId),
    (ascii "commissionAmount", nullableTree (o.commissionAmount.map Numeric.text)),
    (ascii "receivedAt", dateTree o.receivedAt), (ascii "updatedAt", dateTree o.updatedAt)]

/-- What the handler returns for rows. -/
def ordersTree (rows : List Order) : JsonTree ν :=
  .obj [(ascii "items", .arr (rows.map fun o => .obj (orderFields o)))]

/-- `OrderDto`. -/
structure OrderDto where
  id : Text
  orderId : Text
  clientOrderId : Text
  brokerId : Text
  symbol : Text
  side : OrderSide
  type : Text
  quantity : Text
  price : Option Text
  timeInForce : Text
  status : Text
  rejectionReason : Option Text
  receivedAt : Text
  updatedAt : Text
  deriving DecidableEq

/-- A field that must be there, as a text or null. -/
def nullableField (key : Text) (json : JsonTree ν) : Option (Option Text) :=
  match field? key json with
  | some (.str s) => some (some s)
  | some .null => some none
  | _ => none

/-- A field that must be one of two texts. -/
def sideField (json : JsonTree ν) : Option OrderSide :=
  (stringField (ascii "side") json).bind fun s =>
    if s = ascii "BUY" then some .buy else if s = ascii "SELL" then some .sell else none

/-- `orderSchema`. -/
def orderSchema (json : JsonTree ν) : Option OrderDto := do
  let id ← stringField (ascii "id") json
  let orderId ← stringField (ascii "orderId") json
  let clientOrderId ← stringField (ascii "clientOrderId") json
  let brokerId ← stringField (ascii "brokerId") json
  let symbol ← stringField (ascii "symbol") json
  let side ← sideField json
  let type ← stringField (ascii "type") json
  let quantity ← stringField (ascii "quantity") json
  let price ← nullableField (ascii "price") json
  let timeInForce ← stringField (ascii "timeInForce") json
  let status ← stringField (ascii "status") json
  let rejectionReason ← nullableField (ascii "rejectionReason") json
  let receivedAt ← stringField (ascii "receivedAt") json
  let updatedAt ← stringField (ascii "updatedAt") json
  return ⟨id, orderId, clientOrderId, brokerId, symbol, side, type, quantity, price, timeInForce, status,
    rejectionReason, receivedAt, updatedAt⟩

/-- The schema of `LpClient.listOrders`. -/
def itemsSchema (item : JsonTree ν → Option T) (data : Option (JsonTree ν)) : Option (List T) := do
  let json ← data
  match field? (ascii "items") json with
  | some (.arr items) => items.mapM item
  | _ => none

/-- A row as the client hands it over. -/
def orderDto (o : Order) : OrderDto where
  id := jsText (toString o.id)
  orderId := jsText o.orderId
  clientOrderId := jsText o.clientOrderId
  brokerId := jsText o.brokerId
  symbol := jsText o.symbol
  side := o.side
  type := jsText (typeText o.type)
  quantity := jsText o.quantity.text
  price := o.price.map fun x => jsText x.text
  timeInForce := jsText (timeInForceText o.timeInForce)
  status := jsText (statusText o.status)
  rejectionReason := o.rejectionReason.map jsText
  receivedAt := jsText (toISOString o.receivedAt)
  updatedAt := jsText (toISOString o.updatedAt)

section Rows

variable {N : Numerals ν} {o : Order} {rows : List Order}

theorem keyed_nullable (s : Option String) : (nullableTree s : JsonTree ν).Keyed := by cases s <;> trivial

theorem keyed_date (t : Instant) : (dateTree t : JsonTree ν).Keyed := by
  rw [dateTree]
  split_ifs <;> trivial

theorem keyed_order (o : Order) : (JsonTree.obj (orderFields o) : JsonTree ν).Keyed := by
  refine ⟨?_, ?_⟩
  · exact (by decide : [ascii "id", ascii "orderId", ascii "clientOrderId", ascii "brokerId", ascii "symbol",
      ascii "side", ascii "type", ascii "quantity", ascii "price", ascii "timeInForce", ascii "status",
      ascii "rejectionReason", ascii "clientUserLabel", ascii "clientUserId", ascii "commissionAmount",
      ascii "receivedAt", ascii "updatedAt"].Nodup)
  · rw [keyedFields_iff]
    intro field hfield
    simp only [orderFields, List.mem_cons, List.not_mem_nil, or_false] at hfield
    rcases hfield with rfl | rfl | rfl | rfl | rfl | rfl | rfl | rfl | rfl | rfl | rfl | rfl | rfl | rfl | rfl |
      rfl | rfl
    all_goals first | trivial | exact keyed_nullable _ | exact keyed_date _

theorem keyed_orders (rows : List Order) : (ordersTree rows : JsonTree ν).Keyed := by
  have hitems : KeyedItems (rows.map fun o => (JsonTree.obj (orderFields o) : JsonTree ν)) := by
    induction rows with
    | nil => trivial
    | cons o rows ih => exact ⟨keyed_order o, ih⟩
  exact ⟨List.nodup_singleton _, hitems, trivial⟩

/-- A text or null comes back as it was sent. -/
theorem nullable_read (f : ν → ν) (s : Option String) (key : Text) (json : JsonTree ν)
    (h : field? key json = some ((nullableTree s).map f)) : nullableField key json = some (s.map jsText) := by
  rw [nullableField, h]
  cases s <;> rfl

theorem date_read (f : ν → ν) {t : Instant} (ht : isTimeValue t = true) (key : Text) (json : JsonTree ν)
    (h : field? key json = some ((dateTree t).map f)) :
    stringField key json = some (jsText (toISOString t)) := by
  rw [stringField, h, dateTree, if_pos ht]
  rfl

theorem side_read (f : ν → ν) (side : OrderSide) (json : JsonTree ν)
    (h : field? (ascii "side") json = some ((stringTree (sideText side)).map f)) :
    sideField json = some side := by
  rw [sideField, stringField, h]
  cases side <;> rfl

/-- A row is read as it is. -/
theorem orderSchema_row (f : ν → ν) (hreceived : isTimeValue o.receivedAt = true)
    (hupdated : isTimeValue o.updatedAt = true) :
    orderSchema ((JsonTree.obj (orderFields o) : JsonTree ν).map f) = some (orderDto o) := by
  obtain ⟨json, hjson⟩ : ∃ json, (JsonTree.obj (orderFields o) : JsonTree ν).map f = json := ⟨_, rfl⟩
  have hid : stringField (ascii "id") json = some (jsText (toString o.id)) := hjson ▸ rfl
  have horderId : stringField (ascii "orderId") json = some (jsText o.orderId) := hjson ▸ rfl
  have hclientOrderId : stringField (ascii "clientOrderId") json = some (jsText o.clientOrderId) := hjson ▸ rfl
  have hbrokerId : stringField (ascii "brokerId") json = some (jsText o.brokerId) := hjson ▸ rfl
  have hsymbol : stringField (ascii "symbol") json = some (jsText o.symbol) := hjson ▸ rfl
  have hside : sideField json = some o.side := side_read f o.side json (hjson ▸ rfl)
  have htype : stringField (ascii "type") json = some (jsText (typeText o.type)) := hjson ▸ rfl
  have hquantity : stringField (ascii "quantity") json = some (jsText o.quantity.text) := hjson ▸ rfl
  have hprice : nullableField (ascii "price") json = some ((o.price.map Numeric.text).map jsText) :=
    nullable_read f _ (ascii "price") json (hjson ▸ rfl)
  have htif : stringField (ascii "timeInForce") json = some (jsText (timeInForceText o.timeInForce)) := hjson ▸ rfl
  have hstatus : stringField (ascii "status") json = some (jsText (statusText o.status)) := hjson ▸ rfl
  have hreason : nullableField (ascii "rejectionReason") json = some (o.rejectionReason.map jsText) :=
    nullable_read f _ (ascii "rejectionReason") json (hjson ▸ rfl)
  have hreceivedAt : stringField (ascii "receivedAt") json = some (jsText (toISOString o.receivedAt)) :=
    date_read f hreceived (ascii "receivedAt") json (hjson ▸ rfl)
  have hupdatedAt : stringField (ascii "updatedAt") json = some (jsText (toISOString o.updatedAt)) :=
    date_read f hupdated (ascii "updatedAt") json (hjson ▸ rfl)
  rw [hjson]
  simp only [orderSchema, hid, horderId, hclientOrderId, hbrokerId, hsymbol, hside, htype, hquantity, hprice, htif,
    hstatus, hreason, hreceivedAt, hupdatedAt, Option.map_map]
  rfl

/-- The rows are read one by one. -/
theorem mapM_rows (f : ν → ν)
    (htimes : ∀ o ∈ rows, isTimeValue o.receivedAt = true ∧ isTimeValue o.updatedAt = true) :
    (rows.map fun o => (JsonTree.obj (orderFields o) : JsonTree ν).map f).mapM orderSchema =
      some (rows.map orderDto) := by
  induction rows with
  | nil => rfl
  | cons o rows ih =>
    obtain ⟨hreceived, hupdated⟩ := htimes o (by simp)
    rw [List.map_cons, List.mapM_cons, orderSchema_row f hreceived hupdated,
      ih fun o ho => htimes o (by simp [ho])]
    rfl

/-- The client hands over the rows that the handler has found, field for field
and in their order. -/
theorem orders_reach_client (N : Numerals ν) (header : Option Text) (id : Text)
    (htimes : ∀ o ∈ rows, isTimeValue o.receivedAt = true ∧ isTimeValue o.updatedAt = true) :
    request N (itemsSchema orderSchema) (intercept N false header id (some ⟨ordersTree rows, keyed_orders rows⟩)) =
      .data (rows.map orderDto) := by
  have hmap : (ordersTree rows : JsonTree ν).map N.plain =
      .obj [(ascii "items", .arr (rows.map fun o => (JsonTree.obj (orderFields o) : JsonTree ν).map N.plain))] := by
    simp [ordersTree, JsonTree.map, mapFields, mapItems_eq, Function.comp_def]
  have hitems : itemsSchema orderSchema (some ((ordersTree rows : JsonTree ν).map N.plain)) =
      some (rows.map orderDto) := by
    rw [hmap]
    exact mapM_rows N.plain htimes
  rw [data_reaches_client]
  simp only [Option.map_some, hitems]

end Rows

/-- A limit order that is still waiting. -/
def waitingOrder : Order where
  id := 12
  orderId := "O1"
  clientOrderId := "T1-C"
  brokerId := "B1"
  symbol := "EURUSD"
  side := .sell
  type := .limit
  quantity := Numeric.one
  price := some Numeric.one
  timeInForce := .gtc
  clientUserLabel := none
  clientUserId := some "U1"
  commissionAmount := none
  receivedAt := 0
  status := .pending
  rejectionReason := none
  updatedAt := 1000

theorem orders_reach_client_sample : request noNumerals (itemsSchema orderSchema)
    (intercept noNumerals false none [] (some ⟨ordersTree [waitingOrder], keyed_orders [waitingOrder]⟩)) =
      .data [orderDto waitingOrder] :=
  orders_reach_client noNumerals none [] fun o ho => by
    obtain rfl : o = waitingOrder := List.mem_singleton.mp ho
    exact ⟨rfl, rfl⟩

end LpPlatform.OrderReplies
