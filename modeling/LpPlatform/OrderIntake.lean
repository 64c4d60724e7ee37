import LpPlatform.AuditInterceptor
import LpPlatform.TradeChain

/-!
# Order intake

An order request is checked by its schema, stored with status PENDING and put
on the orders queue; then an audit row is attempted. The three statements run
outside any transaction, so each takes effect on its own. Amounts keep every
decimal they were sent with until the columns of the order round them.
-/

namespace LpPlatform.OrderIntake

open Amounts AuditInterceptor DecimalText InterferenceLogic JsValues Ledger RowStore
open StatementProgram Tables

/-- A text that passes a check. -/
abbrev Checked (check : String → Bool) := { s : String // check s = true }

/-- A text, if it passes. -/
def checked (check : String → Bool) (s : String) : Option (Checked check) :=
  if h : check s = true then some ⟨s, h⟩ else none

theorem isSome_checked (check : String → Bool) (s : String) : (checked check s).isSome = check s := by
  unfold checked
  split <;> rename_i h <;> simp [h]

/-- A number of code units between two bounds. -/
def lengthWithin (low high : ℕ) (s : String) : Bool := low ≤ utf16Length s && utf16Length s ≤ high

/-- `POS_DECIMAL_RE`: either zero and a fraction with some other digit, or a
whole part that does not start with a zero. -/
def matchesPositive : List Char → Bool
  | '0' :: '.' :: fraction => fraction.all Char.isDigit && fraction.any (· ≠ '0')
  | c :: cs => c ≠ '0' && (unsigned? false (c :: cs)).isSome
  | [] => false

/-- A character of a symbol. -/
def isSymbolChar (c : Char) : Bool :=
  (65 ≤ c.toNat && c.toNat ≤ 90) || c.isDigit || c = '_' || c = '.' || c = '-'

/-- What `brokerIdString` accepts. -/
def isBrokerId (s : String) : Bool := lengthWithin 1 64 s

/-- What `symbolString` accepts. -/
def isSymbol (s : String) : Bool := lengthWithin 1 32 s && s.toList.all isSymbolChar

/-- What `decimalString` accepts, after it has been trimmed. -/
def isDecimal (s : String) : Bool := (literal? s.toList).isSome && s ≠ "-0"

/-- What `positiveDecimalString` accepts, after it has been trimmed. -/
def isPositiveDecimal (s : String) : Bool := matchesPositive s.toList

/-- A string field under a check. -/
def stringField (check : String → Bool) : Json → Option (Checked check)
  | .str s => checked check s
  | _ => none

/-- A string field that is trimmed before its check. -/
def trimmedField (check : String → Bool) : Json → Option (Checked check)
  | .str s => checked check (String.ofList (trim s.toList))
  | _ => none

/-- `brokerIdString`. -/
def brokerIdString : Json → Option (Checked isBrokerId) := stringField isBrokerId

/-- `symbolString`. -/
def symbolString : Json → Option (Checked isSymbol) := stringField isSymbol

/-- `decimalString`. -/
def decimalString : Json → Option (Checked isDecimal) := trimmedField isDecimal

/-- `positiveDecimalString`. -/
def positiveDecimalString : Json → Option (Checked isPositiveDecimal) :=
  trimmedField isPositiveDecimal

/-- `orderSideSchema`. -/
def orderSideSchema : Json → Option OrderSide
  | .str "BUY" => some .buy
  | .str "SELL" => some .sell
  | _ => none

/-- `orderTypeSchema`. -/
def orderTypeSchema : Json → Option Tables.OrderType
  | .str "MARKET" => some .market
  | .str "LIMIT" => some .limit
  | .str "STOP" => some .stop
  | .str "STOP_LIMIT" => some .stopLimit
  | _ => none

/-- `timeInForceSchema`. -/
def timeInForceSchema : Json → Option TimeInForce
  | .str "DAY" => some .day
  | .str "IOC" => some .ioc
  | .str "FOK" => some .fok
  | .str "GTC" => some .gtc
  | _ => none

/-- A field that may be absent. -/
def optional {α : Type} (field : Json → Option α) : Option Json → Option (Option α)
  | none => some none
  | some value => (field value).map some

/-- An order request that passes its schema. -/
structure OrderRequest where
  brokerId : Checked isBrokerId
  clientOrderId : Checked (lengthWithin 1 64)
  symbol : Checked isSymbol
  side : OrderSide
  type : Tables.OrderType
  quantity : Checked isPositiveDecimal
  price : Option (Checked isDecimal)
  timeInForce : TimeInForce
  clientUserLabel : Option (Checked (lengthWithin 0 120))
  clientUserId : Option (Checked (lengthWithin 0 120))
  commission : Option (Checked isDecimal)
  /-- A limit order carries its price. -/
  priced : type = .limit ∨ type = .stopLimit → price.isSome = true

/-- `orderRequestSchema`. -/
def orderRequestSchema (body : Json) : Option OrderRequest := do
  let brokerId ← (body.field? "brokerId").bind brokerIdString
  let clientOrderId ← (body.field? "clientOrderId").bind (stringField (lengthWithin 1 64))
  let symbol ← (body.field? "symbol").bind symbolString
  let side ← (body.field? "side").bind orderSideSchema
  let type ← (body.field? "type").bind orderTypeSchema
  let quantity ← (body.field? "quantity").bind positiveDecimalString
  let price ← optional decimalString (body.field? "price")
  let timeInForce ← optional timeInForceSchema (body.field? "timeInForce")
  let label ← optional (stringField (lengthWithin 0 120)) (body.field? "clientUserLabel")
  let userId ← optional (stringField (lengthWithin 0 120)) (body.field? "clientUserId")
  let commission ← optional decimalString (body.field? "commission")
  if h : type = .limit ∨ type = .stopLimit → price.isSome = true then
    some ⟨brokerId, clientOrderId, symbol, side, type, quantity, price, timeInForce.getD .day, label,
      userId, commission, h⟩
  else none

/-- A column that accepts NULL. -/
def nullableNumeric : Option (Checked isDecimal) → Except Failure (Option Numeric)
  | none => .ok none
  | some text => (Numeric.insert text.val).map some

/-- The row a request is stored as, under an identity value, an order id and
the clock of the database. -/
def OrderRequest.row (dto : OrderRequest) : Except Failure (ℕ → String → Instant → Order) := do
  let quantity ← Numeric.insert dto.quantity.val
  let price ← nullableNumeric dto.price
  let commissionAmount ← nullableNumeric dto.commission
  return fun id orderId now =>
    { id := id
      orderId := orderId
      clientOrderId := dto.clientOrderId.val
      brokerId := dto.brokerId.val
      symbol := dto.symbol.val
      side := dto.side
      type := dto.type
      quantity := quantity
      price := price
      timeInForce := dto.timeInForce
      clientUserLabel := dto.clientUserLabel.map (·.val)
      clientUserId := dto.clientUserId.map (·.val)
      commissionAmount := commissionAmount
      receivedAt := now
      status := .pending
      rejectionReason := none
      updatedAt := now }

/-- `OrdersRepository.insert`. -/
def insertOrder (dto : OrderRequest) : Program Order := do
  let row ← ofExcept dto.row
  exec (fun v i => [.insertOrder (row v.seq (i.id 0) i.now)]) fun v i => row v.seq (i.id 0) i.now

/-- `queue.add` of the job of an order. -/
def addJob (order : Order) : Program Unit :=
  exec (fun v _ => [.insertJob ⟨⟨v.seq, order.orderId, order.brokerId⟩, .waiting, 0⟩]) fun _ _ => ()

/-- What an audit row is made of, beside its ids. -/
structure AuditEntryInput where
  actorType : ActorType
  actorId : String
  action : String
  resourceType : Option String
  resourceId : Option String
  outcome : Outcome
  metadata : Json
  ipAddress : Option String
  userAgent : Option String

/-- `AuditService.record`: a failure of the insert is only logged. -/
def record (e : AuditEntryInput) : Program Unit :=
  Prog.tryCatch
    (exec (fun v i => [.insertAudit ⟨v.seq, i.id 0, e.actorType, e.actorId, e.action, e.resourceType,
      e.resourceId, e.outcome, e.metadata, e.ipAddress, e.userAgent⟩]) fun _ _ => ())
    fun _ => .done ()

/-- The broker that the signature of a request stands for. -/
structure AuthenticatedBroker where
  brokerId : String
  apiKeyId : String

/-- The audit entry of a placed order. -/
def placedEntry (dto : OrderRequest) (broker : AuthenticatedBroker) (orderId : String)
    (ip : Option String) : AuditEntryInput :=
  ⟨.brokerApi, broker.apiKeyId, "order.placed", some "order", some orderId, .success,
    .obj [("symbol", .str dto.symbol.val), ("side", .str (TradeChain.sideText dto.side)),
      ("qty", .str dto.quantity.val)], ip, none⟩

/-- `OrdersController.place`. Returns the id of the accepted order. -/
def place (dto : OrderRequest) (broker : Option AuthenticatedBroker) (ip : Option String) :
    Program String :=
  match broker with
  | none => .throw (.domain "AUTH_FORBIDDEN" "No authenticated broker on request" 403)
  | some broker => do
    ensure (broker.brokerId = dto.brokerId.val)
      (.domain "AUTH_FORBIDDEN" "brokerId mismatch with API key" 403)
    let order ← insertOrder dto
    addJob order
    record (placedEntry dto broker order.orderId ip)
    return order.orderId

/-- A request with its body in the validation pipe. -/
def placeEndpoint (body : Json) (broker : Option AuthenticatedBroker) (ip : Option String) :
    Program String :=
  match orderRequestSchema body with
  | some dto => place dto broker ip
  | none => .throw (.domain "VALIDATION_FAILED" "Validation failed" 400)

/-- The order row is what the request is stored as. -/
def StoredAs (dto : OrderRequest) (o : OrderTerms) : Prop :=
  ∃ row id orderId now, dto.row = .ok row ∧ o = (row id orderId now).toOrderTerms

/-- The amounts of a row are what the columns make of the request's. -/
theorem row_ok {dto : OrderRequest} {row : ℕ → String → Instant → Order} (h : dto.row = .ok row)
    (id : ℕ) (orderId : String) (now : Instant) :
    Numeric.insert dto.quantity.val = .ok (row id orderId now).quantity ∧
      nullableNumeric dto.price = .ok (row id orderId now).price ∧
      (row id orderId now).status = .pending ∧ (row id orderId now).orderId = orderId := by
  obtain ⟨quantity, hquantity, h⟩ := Charges.bind_ok h
  obtain ⟨price, hprice, h⟩ := Charges.bind_ok h
  obtain ⟨commission, -, h⟩ := Charges.bind_ok h
  obtain rfl := Except.ok.inj h
  exact ⟨hquantity, hprice, rfl, rfl⟩

/-- The other columns are the request's own. -/
theorem row_fields {dto : OrderRequest} {row : ℕ → String → Instant → Order} (h : dto.row = .ok row)
    (id : ℕ) (orderId : String) (now : Instant) :
    (row id orderId now).clientOrderId = dto.clientOrderId.val ∧
      (row id orderId now).brokerId = dto.brokerId.val ∧
      (row id orderId now).symbol = dto.symbol.val ∧ (row id orderId now).side = dto.side := by
  obtain ⟨quantity, -, h⟩ := Charges.bind_ok h
  obtain ⟨price, -, h⟩ := Charges.bind_ok h
  obtain ⟨commission, -, h⟩ := Charges.bind_ok h
  obtain rfl := Except.ok.inj h
  exact ⟨rfl, rfl, rfl, rfl⟩

end LpPlatform.OrderIntake
