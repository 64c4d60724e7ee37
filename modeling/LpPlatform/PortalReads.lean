import LpPlatform.BrokerPortal
import LpPlatform.PartPrograms
import LpPlatform.TradesList

/-!
# What a broker reads

The trades endpoints and the portal pages read the tables, and the latest
snapshot of open positions from a cache. Each of them first decides for which
broker it reads: a user of a broker for that broker, whatever the query says,
and an LP user for the broker that the query names. The pages compute with
doubles; a number that a query names may be any text.
-/

namespace LpPlatform.PortalReads

open Amounts BrokerPortal DecimalText DepositsAdmin HashChain InterferenceLogic JsValues Ledger
open OrderIntake PartPrograms RowStore StatementProgram Tables TradeChain TradesList

/-- A number as `Number` makes it. -/
inductive JsNum where
  | nan
  | infinite (negative : Bool)
  | finite (x : ℚ)
  deriving DecidableEq

/-- The value of a digit in a base of at most sixteen. -/
def digitIn (base : ℕ) (c : Char) : Option ℕ :=
  (if c.isDigit then some (c.toNat - 48)
    else if 97 ≤ c.toNat ∧ c.toNat ≤ 102 then some (c.toNat - 87)
    else if 65 ≤ c.toNat ∧ c.toNat ≤ 70 then some (c.toNat - 55)
    else none).filter (· < base)

/-- The number that digits stand for; there is at least one. -/
def digitsIn (base : ℕ) (cs : List Char) : Option ℕ :=
  if cs = [] then none
  else cs.foldl (fun n c => n.bind fun n => (digitIn base c).map (base * n + ·)) (some 0)

/-- The exponent of a decimal literal. -/
def exponentOf : List Char → Option ℤ
  | [] => some 0
  | e :: rest =>
    if e = 'e' ∨ e = 'E' then
      match rest with
      | '-' :: digits => (digitsIn 10 digits).map fun n => -(n : ℤ)
      | '+' :: digits => (digitsIn 10 digits).map fun n => (n : ℤ)
      | digits => (digitsIn 10 digits).map fun n => (n : ℤ)
    else none

/-- A decimal literal without a sign. -/
def unsignedDecimal (cs : List Char) : Option ℚ :=
  let whole := cs.takeWhile Char.isDigit
  let (fraction, rest) := match cs.dropWhile Char.isDigit with
    | '.' :: rest => (rest.takeWhile Char.isDigit, rest.dropWhile Char.isDigit)
    | rest => ([], rest)
  (digitsIn 10 (whole ++ fraction)).bind fun coefficient =>
    (exponentOf rest).map fun exponent =>
      let shift : ℤ := exponent - (fraction.length : ℤ)
      if 0 ≤ shift then (coefficient : ℚ) * 10 ^ shift.toNat
      else (coefficient : ℚ) / 10 ^ (-shift).toNat

/-- The double nearest to a rational, or an infinity. -/
def JsNum.nearest (x : ℚ) : JsNum :=
  let y := toDouble x
  if |y| < 2 ^ 1024 then .finite y else .infinite (decide (y < 0))

/-- A decimal literal, or an infinity, after its sign. -/
def unsignedNumber (negative : Bool) (cs : List Char) : JsNum :=
  if cs = "Infinity".toList then .infinite negative
  else match unsignedDecimal cs with
    | some x => .nearest (if negative then -x else x)
    | none => .nan

/-- `Number` of a text. -/
def toNumber (text : String) : JsNum :=
  let radix (base : ℕ) (cs : List Char) : JsNum :=
    match digitsIn base cs with
    | some n => .nearest n
    | none => .nan
  match trim text.toList with
  | [] => .finite 0
  | '0' :: 'x' :: cs | '0' :: 'X' :: cs => radix 16 cs
  | '0' :: 'o' :: cs | '0' :: 'O' :: cs => radix 8 cs
  | '0' :: 'b' :: cs | '0' :: 'B' :: cs => radix 2 cs
  | '-' :: cs => unsignedNumber true cs
  | '+' :: cs => unsignedNumber false cs
  | cs => unsignedNumber false cs

/-- `Number` of texts of every kind. -/
example : [toNumber " 5 ", toNumber "", toNumber "1e2", toNumber "0x1f", toNumber "-Infinity",
    toNumber "."] = [.finite 5, .finite 0, .finite 100, .finite 31, .infinite true, .nan] := by
  decide +kernel

/-- `toFixed` of a number. -/
def JsNum.toFixed (digits : ℕ) : JsNum → String
  | .nan => "NaN"
  | .infinite negative => if negative then "-Infinity" else "Infinity"
  | .finite x => JsValues.toFixed x digits

/-- The digits of a whole number, after its sign. -/
def unsignedInteger : List Char → Option ℤ
  | [] => some 0
  | '-' :: cs => (digitsIn 10 cs).map fun n => -(n : ℤ)
  | '+' :: cs => (digitsIn 10 cs).map fun n => (n : ℤ)
  | cs => (digitsIn 10 cs).map fun n => (n : ℤ)

/-- `BigInt` of a text. -/
def toBigInt (text : String) : Except Failure ℤ :=
  let n? := match trim text.toList with
    | '0' :: 'x' :: cs | '0' :: 'X' :: cs => (digitsIn 16 cs).map fun n => (n : ℤ)
    | '0' :: 'o' :: cs | '0' :: 'O' :: cs => (digitsIn 8 cs).map fun n => (n : ℤ)
    | '0' :: 'b' :: cs | '0' :: 'B' :: cs => (digitsIn 2 cs).map fun n => (n : ℤ)
    | cs => unsignedInteger cs
  match n? with
  | some n => .ok n
  | none => .error (.error s!"Cannot convert {text} to a BigInt")

/-- A value of a query, which may be named once or more often. -/
inductive QueryParam where
  | one (text : String)
  | many (texts : List String)

/-- The text of a value. -/
def QueryParam.text : QueryParam → String
  | .one text => text
  | .many texts => ",".intercalate texts

/-- A text in an array of the database. -/
def arrayElement (s : String) : String :=
  String.ofList ('"' :: (s.toList.flatMap fun c => if c = '"' ∨ c = '\\' then ['\\', c] else [c]) ++ ['"'])

/-- A value as it is sent to the database. -/
def QueryParam.sent : QueryParam → String
  | .one text => text
  | .many texts => "\x7b" ++ ",".intercalate (texts.map arrayElement) ++ "\x7d"

/-- A query. -/
abbrev Query := String → Option QueryParam

/-- A field of a query that a schema wants as a string. -/
def stringParam (query : Query) (key : String) : Option Json :=
  (query key).map fun
    | .one text => .str text
    | .many texts => .arr (texts.map Json.str)

/-- What the pages take from the host. -/
structure PortalConfig where
  dateParser : DateParser
  /-- `JSON.parse`, none when it throws. -/
  jsonParse : String → Option Json
  /-- `WITHDRAW_FLOOR`. -/
  floor : JsNumber

/-- The tables and the cache. -/
structure Portal where
  tables : Store
  cache : String → Option String

/-- Programs over both. -/
abbrev PortalProgram (α : Type) := Prog Portal Write Input Failure α

/-- A program over the tables. -/
def onTables {α : Type} (p : Program α) : PortalProgram α := onPart Portal.tables id p

/-- `redis.get`, with null for an error. -/
def cached (key : String) : PortalProgram (Option String) :=
  Prog.tryCatch (query fun v _ => v.own.cache key) fun _ => .done none

/-- `isoTimestamp`. -/
def isoTimestamp (P : DateParser) : Json → Option Instant
  | .str s => P.parse s
  | _ => none

/-- The limit of a page: a whole number from 1 to 500. -/
def limitField : Option QueryParam → Option ℕ
  | none => some 50
  | some value =>
    match toNumber value.text with
    | .finite x => if x.den = 1 ∧ 1 ≤ x ∧ x ≤ 500 then some x.num.toNat else none
    | _ => none

/-- A query for a page of trades that passes its schema. -/
structure ListQuery where
  brokerId : Option String
  symbol : Option String
  side : Option OrderSide
  from_ : Option Instant
  to_ : Option Instant
  cursor : Option String
  limit : ℕ

/-- `tradeListQuerySchema`. -/
def tradeListQuerySchema (P : DateParser) (query : Query) : Option ListQuery := do
  let brokerId ← optional brokerIdString (stringParam query "brokerId")
  let symbol ← optional symbolString (stringParam query "symbol")
  let side ← optional orderSideSchema (stringParam query "side")
  let from_ ← optional (isoTimestamp P) (stringParam query "from")
  let to_ ← optional (isoTimestamp P) (stringParam query "to")
  let cursor ← optional Json.string? (stringParam query "cursor")
  let limit ← limitField (query "limit")
  some ⟨brokerId.map (·.val), symbol.map (·.val), side, from_, to_, cursor, limit⟩

/-- The cursor, as the column compares it. -/
def cursorField : Option String → Except Failure (Option ℤ)
  | none => .ok none
  | some text =>
    if text = "" then .ok none
    else do
      let n ← toBigInt text
      if -2 ^ 63 ≤ n ∧ n < 2 ^ 63 then return some n
      else .error (.database s!"value \"{n}\" is out of range for type bigint")

/-- A page of trades. -/
structure TradePage where
  items : List Json
  nextCursor : Option String

/-- `TradesController.list`. -/
def list (K : PortalConfig) (user : Option CurrentUser) (query : Query) : Program TradePage := do
  match tradeListQuerySchema K.dateParser query with
  | none => .throw (.domain "VALIDATION_FAILED" "Validation failed" 400)
  | some q => do
    let brokerId ← ofExcept (scope user q.brokerId)
    let cursor ← ofExcept (cursorField q.cursor)
    let rows ← StatementProgram.query fun v _ =>
      (findByBroker ⟨brokerId, q.symbol, q.side, q.from_, q.to_, cursor, q.limit⟩ v.own).map
        fun t => (t.id, tradeListItem v.own t)
    let last := rows.getLast?
    return ⟨rows.map Prod.snd,
      if rows.length = q.limit then last.map fun r => toString ((r.1 : ℤ) - 1) else none⟩

/-- A trade with its charges. -/
structure TradeWithCharges where
  trade : Trade
  charges : List Charge

/-- `TradesController.detail`. -/
def detail (user : Option CurrentUser) (tradeId : String) : Program TradeWithCharges :=
  match user with
  | none => .throw (.domain "AUTH_FORBIDDEN" "No user" 403)
  | some user => do
    let found ← StatementProgram.query fun v i =>
      anyRow (v.own.trades.filter fun t => t.tradeId = tradeId) i.pick
    match found with
    | none => .throw (.domain "NOT_FOUND" s!"Trade not found: {tradeId}" 404)
    | some trade =>
      if user.role = .brokerUser ∧ some trade.brokerId ≠ user.brokerId then
        .throw (.domain "AUTH_FORBIDDEN" "Cross-broker access denied" 403)
      else do
        let charges ← StatementProgram.query fun v i =>
          anyOrder (v.own.charges.filter fun c => c.tradeId = tradeId) i.pick
        return ⟨trade, charges⟩

/-- The broker that the query names. -/
def requestedBroker (query : Query) : Option String := (query "brokerId").map QueryParam.sent

/-- Rows with the greatest ids, the newest first. -/
def newest {ρ : Type} (id : ρ → ℕ) (limit : ℕ) (rows : List ρ) : List ρ :=
  (rows.insertionSort fun a b => id b ≤ id a).take limit

/-- `BrokerPortalController.listDepositRequests`. -/
def listDepositRequests (user : Option CurrentUser) (query : Query) : Program (List DepositDto) := do
  let brokerId ← ofExcept (scope user (requestedBroker query))
  StatementProgram.query fun v _ =>
    (newest (·.id) 100 (v.own.requests.filter fun r => r.brokerId = brokerId)).map mapDeposit

/-- What can be withdrawn. -/
structure Withdrawable where
  balance : String
  floor : String
  withdrawable : String
  currency : String

/-- `BrokerPortalController.withdrawable`. -/
def withdrawable (K : PortalConfig) (user : Option CurrentUser) (query : Query) :
    Program Withdrawable := do
  let brokerId ← ofExcept (scope user (requestedBroker query))
  let walletsOf ← findWalletsByBroker brokerId
  let currency := (walletsOf.head?.map (·.currency)).getD "USD"
  let balance ← addBalances walletsOf 0
  let avail := max 0 (toDouble (balance - K.floor.value))
  return ⟨toFixed balance 2, toFixed K.floor.value 2, toFixed avail 2, currency⟩

/-- A sum as the database prints it; without rows it is the constant 0. -/
def sumText (amounts : List Numeric) : String :=
  if amounts = [] then "0"
  else
    let units := (amounts.map (·.units)).sum
    String.ofList (Literal.fixed ⟨decide (units < 0), units.natAbs, 4⟩)

/-- The charges of a broker, joined with its trades. -/
def brokerageRows (brokerId : String) (d : Store) : List (Charge × Trade) :=
  (d.charges.filter fun c => c.type = .brokerage).flatMap fun c =>
    ((tradesOf brokerId d.trades).filter fun t => t.tradeId = c.tradeId).map fun t => (c, t)

/-- The order of a trade, if any. -/
def orderOf (d : Store) (t : Trade) : Option Order := d.orders.find? fun o => o.orderId = t.orderId

/-- A commission as it is listed. -/
structure CommissionItem where
  amount : String
  description : String
  tradeId : String
  symbol : String
  side : String
  quantity : String
  user : Option String
  userId : Option String

/-- The commissions of a broker. -/
structure Commissions where
  total : String
  items : List CommissionItem

/-- The row of a commission. -/
def commissionItem (d : Store) (row : Charge × Trade) : CommissionItem :=
  let order := orderOf d row.2
  ⟨row.1.amount.text, row.1.description, row.2.tradeId, row.2.symbol, sideText row.2.side,
    row.2.quantity.text, order.bind (·.clientUserLabel), order.bind (·.clientUserId)⟩

/-- The sum of the commissions of a broker. -/
def brokerageTotal (brokerId : String) : Program String :=
  StatementProgram.query fun v _ => sumText ((brokerageRows brokerId v.own).map (·.1.amount))

/-- `BrokerPortalController.commissions`. -/
def commissions (user : Option CurrentUser) (query : Query) : Program Commissions := do
  let brokerId ← ofExcept (scope user (requestedBroker query))
  let items ← StatementProgram.query fun v _ =>
    (newest (·.1.id) 500 (brokerageRows brokerId v.own)).map (commissionItem v.own)
  let total ← brokerageTotal brokerId
  return ⟨total, items⟩

/-- Open positions as they were pushed last. -/
structure Positions where
  positions : Json
  totalPnl : Json
  ts : Json

/-- A field of a value that is neither null nor undefined. -/
def present (key : String) (value : Json) : Option Json :=
  match value.field? key with
  | some .null => none
  | field => field

/-- The snapshot that a text in the cache holds, unless it is empty or not an
object of any kind. -/
def snapshotOf (K : PortalConfig) (raw : Option String) : Option Json :=
  ((raw.filter (· ≠ "")).bind K.jsonParse).filter fun
    | .null => false
    | _ => true

/-- `BrokerPortalController.positions`. -/
def positions (K : PortalConfig) (user : Option CurrentUser) (query : Query) :
    PortalProgram Positions := do
  let brokerId ← ofExcept (scope user (requestedBroker query))
  let now ← draw fun i : Input => toISOString i.now
  let raw ← cached ("positions:" ++ brokerId)
  match snapshotOf K raw with
  | none => return ⟨.arr [], .str "0", .str now⟩
  | some snap => return ⟨(present "positions" snap).getD (.arr []),
      (present "totalPnl" snap).getD (.str "0"), (present "ts" snap).getD (.str now)⟩

/-- A wallet with its balance. -/
structure WalletBalance where
  walletId : String
  currency : String
  balance : String

/-- The balances of some wallets. -/
def withBalance : List Wallet → Program (List WalletBalance)
  | [] => return []
  | w :: wallets => do
    let text ← getBalance w.walletId
    let rest ← withBalance wallets
    return ⟨w.walletId, w.currency, text⟩ :: rest

/-- `BrokerPortalController.wallet`. -/
def wallet (user : Option CurrentUser) (query : Query) : Program (List WalletBalance) := do
  let brokerId ← ofExcept (scope user (requestedBroker query))
  let wallets ← findWalletsByBroker brokerId
  withBalance wallets

/-- `Number(limit) || 100`, between 1 and 500, as the database takes it. -/
def cappedLimit (limit : Option QueryParam) : Except Failure ℕ :=
  let wanted : JsNum := match limit.map fun value => toNumber value.text with
    | none | some .nan => .finite 100
    | some (.finite x) => .finite (if x = 0 then 100 else x)
    | some infinite => infinite
  match wanted with
  | .finite x =>
    let capped := min (max x 1) 500
    if capped.den = 1 then .ok capped.num.toNat
    else .error (.database "invalid input syntax for type bigint")
  | .infinite negative => .ok (if negative then 1 else 500)
  | .nan => .ok 100

/-- `LedgerRepository.findEntriesByBroker`. -/
def findEntriesByBroker (brokerId : String) (limit : ℕ) : Program (List LedgerEntry) :=
  StatementProgram.query fun v _ => newest (·.id) limit (v.own.entries.flatMap fun e =>
    (v.own.wallets.filter fun w => w.walletId = e.walletId ∧ w.brokerId = brokerId).map fun _ => e)

/-- `BrokerPortalController.ledgerEntries`. -/
def ledgerEntries (user : Option CurrentUser) (query : Query) : Program (List LedgerEntry) := do
  let brokerId ← ofExcept (scope user (requestedBroker query))
  let limit ← ofExcept (cappedLimit (query "limit"))
  findEntriesByBroker brokerId limit

/-- The status of an order, from its text. -/
def orderStatus? : String → Option OrderStatus
  | "PENDING" => some .pending
  | "ACCEPTED" => some .accepted
  | "PARTIALLY_FILLED" => some .partiallyFilled
  | "FILLED" => some .filled
  | "REJECTED" => some .rejected
  | "CANCELLED" => some .cancelled
  | _ => none

/-- The status a query asks for. -/
def statusField (status : Option QueryParam) : Except Failure (Option OrderStatus) :=
  match (status.map QueryParam.sent).filter (· ≠ "") with
  | none => .ok none
  | some text =>
    match orderStatus? text with
    | some status => .ok (some status)
    | none => .error (.database "invalid input value for enum order_status")

/-- `OrdersRepository.findByBroker`. -/
def ordersByBroker (brokerId : String) (status : Option OrderStatus) (limit : ℕ) :
    Program (List Order) :=
  StatementProgram.query fun v _ => newest (·.id) limit
    (v.own.orders.filter fun o => o.brokerId = brokerId ∧ status.all (· = o.status))

/-- `BrokerPortalController.ordersList`. -/
def ordersList (user : Option CurrentUser) (query : Query) : Program (List Order) := do
  let brokerId ← ofExcept (scope user (requestedBroker query))
  let limit ← ofExcept (cappedLimit (query "limit"))
  let status ← ofExcept (statusField (query "status"))
  ordersByBroker brokerId status limit

/-- A trade as the dashboard reads it. -/
structure Leg where
  coid : Option String
  side : OrderSide
  price : ℚ
  qty : ℚ

/-- The trades of a broker with the client ids of their orders. -/
def legsOf (brokerId : String) (d : Store) : List Leg :=
  (tradesOf brokerId d.trades).map fun t =>
    ⟨(orderOf d t).map (·.clientOrderId), t.side, number t.price.text, number t.quantity.text⟩

/-- Whether a client id is of a close leg. -/
def isCloseId (coid : String) : Bool := ['-', 'C'].isSuffixOf coid.toList

/-- The last open leg under a client id. -/
def openLeg (legs : List Leg) (coid : String) : Option Leg :=
  (legs.filter fun l => l.coid = some coid ∧ coid ≠ "" ∧ ¬ isCloseId coid).getLast?

/-- The profit that the close legs realize, added up in doubles. -/
def realized (legs : List Leg) : ℚ :=
  legs.foldl (fun rawPnl l =>
    match l.coid.filter isCloseId with
    | none => rawPnl
    | some coid =>
      match openLeg legs (String.ofList (coid.toList.dropLast.dropLast)) with
      | none => rawPnl
      | some opened =>
        let move := toDouble (toDouble (l.price - opened.price) * opened.qty)
        toDouble (rawPnl + if opened.side = .buy then move else -move)) 0

mutual

/-- `String` of a value. -/
def jsonText : Json → String
  | .null => "null"
  | .bool b => if b then "true" else "false"
  | .num n => n.text
  | .str s => s
  | .arr items => ",".intercalate (jsonTexts items)
  | .obj _ => "[object Object]"

/-- The items of an array, null as nothing. -/
def jsonTexts : List Json → List String
  | [] => []
  | .null :: items => "" :: jsonTexts items
  | item :: items => jsonText item :: jsonTexts items

end

/-- `Number` of a value. -/
def jsonNumber : Json → JsNum
  | .null => .finite 0
  | .bool b => .finite (if b then 1 else 0)
  | .num n => .finite n.value
  | value => toNumber (jsonText value)

/-- The account summary. -/
structure Dashboard where
  currency : String
  balance : String
  lockedCapital : String
  profitWallet : String
  withdrawable : String
  totalCharges : String
  rawPnl : String
  netPnl : String
  floatingPnl : String
  totalEquity : String
  freeMargin : String

/-- `BrokerPortalController.dashboard`. -/
def dashboard (K : PortalConfig) (user : Option CurrentUser) (query : Query) :
    PortalProgram Dashboard := do
  let brokerId ← ofExcept (scope user (requestedBroker query))
  let walletsOf ← onTables (findWalletsByBroker brokerId)
  let currency := (walletsOf.head?.map (·.currency)).getD "USD"
  let balance ← onTables (addBalances walletsOf 0)
  let charges ← onTables (brokerageTotal brokerId)
  let totalCharges := number charges
  let legs ← onTables (StatementProgram.query fun v i => anyOrder (legsOf brokerId v.own) i.pick)
  let rawPnl := realized legs
  let snap ← cached ("positions:" ++ brokerId)
  let floatingPnl : JsNum := match snapshotOf K snap with
    | none => .finite 0
    | some value => jsonNumber ((present "totalPnl" value).getD (.num ⟨0, "0"⟩))
  let profitWallet := max 0 (toDouble (balance - K.floor.value))
  let round (x : ℚ) := toFixed x 2
  return ⟨currency, round balance, round K.floor.value, round profitWallet, round profitWallet,
    round totalCharges, round rawPnl, round (toDouble (rawPnl - totalCharges)),
    floatingPnl.toFixed 2, round balance, round profitWallet⟩

/-- A request for a list or a page, with its query. -/
inductive PortalCall where
  | list (query : Query)
  | listDepositRequests (query : Query)
  | withdrawable (query : Query)
  | commissions (query : Query)
  | positions (query : Query)
  | wallet (query : Query)
  | ledgerEntries (query : Query)
  | ordersList (query : Query)
  | dashboard (query : Query)

/-- What is returned. -/
inductive PortalReply where
  | list (page : TradePage)
  | listDepositRequests (items : List DepositDto)
  | withdrawable (amounts : Withdrawable)
  | commissions (found : Commissions)
  | positions (snapshot : Positions)
  | wallet (balances : List WalletBalance)
  | ledgerEntries (items : List LedgerEntry)
  | ordersList (items : List Order)
  | dashboard (summary : Dashboard)

/-- The handler of a request. -/
def portalReads (K : PortalConfig) (user : Option CurrentUser) : PortalCall → PortalProgram PortalReply
  | .list query => onTables (do return .list (← list K user query))
  | .listDepositRequests query =>
    onTables (do return .listDepositRequests (← listDepositRequests user query))
  | .withdrawable query => onTables (do return .withdrawable (← withdrawable K user query))
  | .commissions query => onTables (do return .commissions (← commissions user query))
  | .positions query => do return .positions (← positions K user query)
  | .wallet query => onTables (do return .wallet (← wallet user query))
  | .ledgerEntries query => onTables (do return .ledgerEntries (← ledgerEntries user query))
  | .ordersList query => onTables (do return .ordersList (← ordersList user query))
  | .dashboard query => do return .dashboard (← dashboard K user query)

end LpPlatform.PortalReads
