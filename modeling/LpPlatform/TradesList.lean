import LpPlatform.OrderFills

/-!
# Reading trades back

The list endpoint returns the trades of a broker as JSON, amounts with the
four decimals of their columns, and the client parses every item of a page by
its schema. The schema accepts an amount only when it is positive, while the
intake accepts zero and negative prices and amounts that the columns round to
zero.
-/

namespace LpPlatform.TradesList

open Amounts DecimalText HashChain InterferenceLogic JsValues Ledger OrderFills OrderIntake
open OrderWorker RowStore Sessions StatementProgram StepRuns Tables TradeChain

/-- A digit of Crockford's base 32. -/
def isUlidChar (c : Char) : Bool :=
  c.isDigit || (65 ≤ c.toNat && c.toNat ≤ 90 && c ≠ 'I' && c ≠ 'L' && c ≠ 'O' && c ≠ 'U')

/-- What `ulidString` accepts. -/
def isUlid (s : String) : Bool := s.toList.length = 26 && s.toList.all isUlidChar

/-- `HEX_64`. -/
def isHex64 (s : String) : Bool :=
  s.toList.length = 64 && s.toList.all fun c => c.isDigit || (97 ≤ c.toNat && c.toNat ≤ 102)

/-- A field that is a string under a check. -/
def hasString (check : String → Bool) (key : String) (item : Json) : Bool :=
  match item.field? key with
  | some (.str s) => check s
  | _ => false

/-- A field that some schema accepts. -/
def hasField {α : Type} (schema : Json → Option α) (key : String) (item : Json) : Bool :=
  ((item.field? key).bind schema).isSome

/-- A string field that may be null or absent. -/
def hasNullable (key : String) (item : Json) : Bool :=
  match item.field? key with
  | none | some .null | some (.str _) => true
  | _ => false

/-- A string field that may be absent. -/
def hasOptional (key : String) (item : Json) : Bool :=
  match item.field? key with
  | none | some (.str _) => true
  | _ => false

/-- `tradeRecordSchema`. -/
def tradeRecordSchema (P : DateParser) (item : Json) : Bool :=
  hasString isUlid "tradeId" item && hasString isUlid "orderId" item &&
    hasField brokerIdString "brokerId" item && hasField symbolString "symbol" item &&
    hasField orderSideSchema "side" item && hasField positiveDecimalString "quantity" item &&
    hasField positiveDecimalString "price" item &&
    hasString (fun s => (P.parse s).isSome) "executedAt" item &&
    hasString isHex64 "prevHash" item && hasString isHex64 "hash" item

/-- `tradeListItemSchema` of the client. -/
def tradeListItemSchema (P : DateParser) (item : Json) : Bool :=
  tradeRecordSchema P item && hasNullable "clientOrderId" item && hasNullable "clientUserLabel" item &&
    hasNullable "clientUserId" item && hasOptional "chargesTotal" item

/-- A text or null. -/
def nullableText : Option String → Json
  | none => .null
  | some s => .str s

/-- The sum of the charges of a trade, as the database prints it. -/
def chargesTotal (d : Store) (tradeId : String) : String :=
  if d.charges.any fun c => c.tradeId = tradeId then
    let units := ((d.charges.filter fun c => c.tradeId = tradeId).map (·.amount.units)).sum
    String.ofList (Literal.fixed ⟨decide (units < 0), units.natAbs, 4⟩)
  else "0"

/-- An item of the list, as it is sent. -/
def tradeListItem (d : Store) (t : Trade) : Json :=
  let order := d.orders.find? fun o => o.orderId = t.orderId
  .obj [("id", .str (toString t.id)), ("tradeId", .str t.tradeId), ("orderId", .str t.orderId),
    ("brokerId", .str t.brokerId), ("symbol", .str t.symbol), ("side", .str (sideText t.side)),
    ("quantity", .str t.quantity.text), ("price", .str t.price.text),
    ("executedAt", .str (toISOString t.executedAt)), ("prevHash", .str t.prevHash),
    ("hash", .str t.hash), ("clientOrderId", nullableText (order.map (·.clientOrderId))),
    ("clientUserLabel", nullableText (order.bind (·.clientUserLabel))),
    ("clientUserId", nullableText (order.bind (·.clientUserId))),
    ("chargesTotal", .str (chargesTotal d t.tradeId))]

/-- What a page is asked for by, after the schema of the query. -/
structure TradeListQuery where
  brokerId : String
  symbol : Option String
  side : Option OrderSide
  from_ : Option Instant
  to_ : Option Instant
  cursor : Option ℤ
  limit : ℕ

/-- `TradesRepository.findByBroker`. -/
def findByBroker (q : TradeListQuery) (d : Store) : List Trade :=
  (((tradesOf q.brokerId d.trades).filter fun t =>
    q.symbol.all (· = t.symbol) && q.side.all (· = t.side) && q.from_.all (· ≤ t.executedAt) &&
      q.to_.all (t.executedAt < ·) && q.cursor.all ((t.id : ℤ) ≤ ·)).insertionSort
        fun a b => b.id ≤ a.id).take q.limit

/-- A text of at least half a ten-thousandth. -/
def Countable (text : String) : Prop := ∃ v, textValue text = some v ∧ 1 / 20000 ≤ v

/-- The amounts of a request are not rounded to zero and not negative. -/
def Readable (dto : OrderRequest) : Prop :=
  Countable dto.quantity.val ∧ ∀ price ∈ dto.price, Countable price.val

/-- Both ids of a trade are what `ulid` returns and its time is a date's. -/
structure Drawn (t : Trade) : Prop where
  tradeId : isUlid t.tradeId = true
  orderId : isUlid t.orderId = true
  executedAt : isTimeValue t.executedAt = true

/-- A literal of four decimals is matched when it is not zero and has no sign. -/
theorem matchesPositive_fixed (negative : Bool) (coefficient : ℕ) :
    matchesPositive (Literal.fixed ⟨negative, coefficient, 4⟩) =
      (!negative && decide (0 < coefficient)) := by
  cases negative with
  | true =>
    have hnone : (unsigned? false ('-' :: unsignedText coefficient 4)) = none := by
      cases h : unsigned? false ('-' :: unsignedText coefficient 4) with
      | none => rfl
      | some l =>
        have hdash := unsigned?_chars h '-' (List.mem_cons_self ..)
        simp [Char.isDigit] at hdash
    simp [Literal.fixed, matchesPositive, hnone]
  | false =>
    have hfixed : Literal.fixed ⟨false, coefficient, 4⟩ =
        Nat.toDigits 10 (coefficient / 10 ^ 4) ++ '.' :: padded 4 (coefficient % 10 ^ 4) := by
      simp [Literal.fixed, unsignedText]
    have hread := unsigned?_unsignedText false coefficient 4
    have htext : unsignedText coefficient 4 =
        Nat.toDigits 10 (coefficient / 10 ^ 4) ++ '.' :: padded 4 (coefficient % 10 ^ 4) := by
      simp [unsignedText]
    rw [hfixed]
    by_cases hwhole : coefficient / 10 ^ 4 = 0
    · -- below one: some digit after the point is not a zero
      have hall := isDigit_padded 4 coefficient
      have hsmall : coefficient % 10 ^ 4 = coefficient := by omega
      have hany := any_padded 4 coefficient
      rw [hwhole, Nat.toDigits_zero, hsmall]
      simp only [List.cons_append, List.nil_append, matchesPositive, hall, Bool.true_and,
        Bool.not_false]
      rw [Bool.eq_iff_iff, hany]
      simp [Nat.pos_iff_ne_zero]
    · -- from one on: the whole part has no leading zero
      obtain ⟨c, cs, hcs, hne⟩ := head_toDigits (Nat.pos_of_ne_zero hwhole)
      have hpos : 0 < coefficient := by omega
      rw [htext, hcs, List.cons_append] at hread
      rw [hcs, List.cons_append]
      have hmatch : matchesPositive (c :: (cs ++ '.' :: padded 4 (coefficient % 10 ^ 4))) =
          (c ≠ '0' && (unsigned? false (c :: (cs ++ '.' :: padded 4 (coefficient % 10 ^ 4)))).isSome) := by
        rw [matchesPositive.eq_2]
        intro fraction hc
        exact absurd hc hne
      rw [hmatch, hread]
      simp [hne, hpos]

/-- Column text is a positive decimal when the column is positive. -/
theorem positive_text (x : Numeric) :
    (positiveDecimalString (.str x.text)).isSome = decide (0 < x.units) := by
  have hl : literal? x.text.toList = some ⟨decide (x.units < 0), x.units.natAbs, 4⟩ := by
    rw [Numeric.text, String.toList_ofList, literal?_fixed]
  have hmatch : isPositiveDecimal x.text = decide (0 < x.units) := by
    rw [isPositiveDecimal, Numeric.text, String.toList_ofList, matchesPositive_fixed]
    by_cases hpos : 0 < x.units
    · simp [hpos, Int.not_lt.mpr (Int.le_of_lt hpos), Int.ne_of_gt hpos]
    · by_cases hneg : x.units < 0
      · simp [hpos, hneg]
      · have hzero : x.units = 0 := by omega
        simp [hzero]
  simp only [positiveDecimalString, trimmedField, trim_literal hl, String.ofList_toList]
  rw [isSome_checked, hmatch]

theorem orderSide_text (side : OrderSide) : orderSideSchema (.str (sideText side)) = some side := by
  cases side <;> rfl

/-- A trade of a request is accepted when both of its amounts are positive. -/
theorem record_accepted {P : DateParser} {d : Store} {t : Trade} (hdrawn : Drawn t)
    (hbroker : isBrokerId t.brokerId = true) (hsymbol : isSymbol t.symbol = true)
    (hprev : isHex64 t.prevHash = true) (hhash : isHex64 t.hash = true) :
    tradeRecordSchema P (tradeListItem d t) =
      (decide (0 < t.quantity.units) && decide (0 < t.price.units)) := by
  have hdate : (P.parse (toISOString t.executedAt)).isSome = true :=
    P.parse_iso t.executedAt hdrawn.executedAt
  have hside : (orderSideSchema (.str (sideText t.side))).isSome = true := by
    rw [orderSide_text]
    rfl
  have hbroker' : (brokerIdString (.str t.brokerId)).isSome = true := by
    rw [brokerIdString, stringField, isSome_checked, hbroker]
  have hsymbol' : (symbolString (.str t.symbol)).isSome = true := by
    rw [symbolString, stringField, isSome_checked, hsymbol]
  simp [tradeRecordSchema, tradeListItem, hasString, hasField, Json.field?, hdrawn.tradeId,
    hdrawn.orderId, hdate, hside, hbroker', hsymbol', hprev, hhash, positive_text]

/-- The fields the client adds are always acceptable. -/
theorem item_accepted (P : DateParser) (d : Store) (t : Trade) :
    tradeListItemSchema P (tradeListItem d t) = tradeRecordSchema P (tradeListItem d t) := by
  have hnullable : ∀ s, nullableText s = .null ∨ ∃ x, nullableText s = .str x := fun s => by
    cases s with
    | none => exact Or.inl rfl
    | some x => exact Or.inr ⟨x, rfl⟩
  have haccepts : ∀ key s, (tradeListItem d t).field? key = some (nullableText s) →
      hasNullable key (tradeListItem d t) = true := by
    intro key s hkey
    rcases hnullable s with hs | ⟨x, hs⟩ <;> simp [hasNullable, hkey, hs]
  have horder := haccepts "clientOrderId" _ (by simp [tradeListItem, Json.field?]; rfl)
  have hlabel := haccepts "clientUserLabel" _ (by simp [tradeListItem, Json.field?]; rfl)
  have hid := haccepts "clientUserId" _ (by simp [tradeListItem, Json.field?]; rfl)
  have htotal : hasOptional "chargesTotal" (tradeListItem d t) = true := by
    simp [hasOptional, tradeListItem, Json.field?]
  rw [tradeListItemSchema, horder, hlabel, hid, htotal]
  simp

/-- A column is positive when its text was countable. -/
theorem countable_iff {text : String} {x : Numeric} (h : Numeric.insert text = .ok x) :
    0 < x.units ↔ Countable text := by
  obtain ⟨l, hl, -⟩ := insert_ok h
  have htext : textValue text = some (litValue l) := by rw [textValue, hl, Option.map_some]
  rw [insert_positive hl h, Countable, htext]
  simp

/-- A trade that fills the order of a request has positive amounts when the
request is readable. -/
theorem readable_iff {dto : OrderRequest} {o : OrderTerms} {t : Trade} (hdto : StoredAs dto o)
    (hfills : Fills o t) : (0 < t.quantity.units ∧ 0 < t.price.units) ↔ Readable dto := by
  obtain ⟨row, id, orderId, now, hrow, rfl⟩ := hdto
  obtain ⟨hquantity, hcolumn, -, -⟩ := row_ok hrow id orderId now
  rw [Readable, hfills.quantity, hfills.price, countable_iff hquantity]
  refine and_congr_right fun _ => ?_
  cases hp : dto.price with
  | none =>
    rw [hp, nullableNumeric] at hcolumn
    have hnone : (row id orderId now).price = none := (Except.ok.inj hcolumn).symm
    rw [hnone]
    simp [fallbackPrice, Numeric.hundred]
  | some price =>
    rw [hp, nullableNumeric] at hcolumn
    cases hx : Numeric.insert price.val with
    | error e => simp [hx, Except.map] at hcolumn
    | ok x =>
      have hsome : (row id orderId now).price = some x := by
        simpa [hx, Except.map, eq_comm] using hcolumn
      rw [hsome, Option.getD_some, countable_iff hx]
      simp

/-- In every state of every run, the client accepts a trade exactly when the
request of its order is readable, and a page exactly when that holds of every
trade on it. -/
theorem trades_readable_iff {H : Sha256} {lot : String} (hlower : ∀ text, isHex64 (H.hex text) = true)
    {P : DateParser} {d : Store} {n : ℕ} (hd : NoOrders d)
    {es : List (Event OrderCall Input Failure)} {w : OrderWorld}
    (h : Visits (World.step platform (orders H lot)) (World.initial d n) es w)
    (hdrawn : ∀ t ∈ w.db.trades, Drawn t) :
    (∀ t ∈ w.db.trades, ∀ o ∈ orderTerms.rows w.db, o.orderId = t.orderId → ∀ dto, StoredAs dto o →
      (tradeRecordSchema P (tradeListItem w.db t) = true ↔ Readable dto)) ∧
    ∀ q, ((findByBroker q w.db).map (tradeListItem w.db)).all (tradeListItemSchema P) = true ↔
      ∀ t ∈ findByBroker q w.db, ∀ o ∈ orderTerms.rows w.db, o.orderId = t.orderId →
        ∀ dto, StoredAs dto o → Readable dto := by
  have hsourced : Sourced H w.db := sourced_visits (sourced_noOrders hd) h
  have hgenesis : isHex64 GENESIS_HASH = true := by decide
  have hrecord : ∀ t ∈ w.db.trades, ∀ o ∈ orderTerms.rows w.db, o.orderId = t.orderId →
      ∀ dto, StoredAs dto o → (tradeRecordSchema P (tradeListItem w.db t) = true ↔ Readable dto) := by
    intro t ht o ho hid dto hdto
    have hfills := fills_order hsourced ht ho hid
    obtain ⟨⟨text, htext⟩, hprev⟩ := hsourced.hashes t ht
    have hprev' : isHex64 t.prevHash = true := by
      rcases hprev with hgen | ⟨text', htext'⟩
      · rw [hgen, hgenesis]
      · rw [htext', hlower]
    obtain ⟨row, id, orderId, now, hrow, hterms⟩ := id hdto
    obtain ⟨-, hb, hs, -⟩ := row_fields hrow id orderId now
    have hbroker : isBrokerId t.brokerId = true := by
      rw [hfills.brokerId, hterms, hb]
      exact dto.brokerId.property
    have hsymbol : isSymbol t.symbol = true := by
      rw [hfills.symbol, hterms, hs]
      exact dto.symbol.property
    rw [record_accepted (hdrawn t ht) hbroker hsymbol hprev' (by rw [htext, hlower]),
      ← readable_iff hdto hfills]
    simp
  refine ⟨hrecord, fun q => ?_⟩
  have hpage : ∀ t ∈ findByBroker q w.db, t ∈ w.db.trades := by
    intro t ht
    have hsorted := List.mem_of_mem_take ht
    have hfilter := (List.mem_insertionSort _).mp hsorted
    exact (List.mem_filter.mp (List.mem_filter.mp hfilter).1).1
  simp only [List.all_map, List.all_eq_true, Function.comp_apply, item_accepted]
  refine forall_congr' fun t => forall_congr' fun ht => ?_
  constructor
  · intro hok o ho hid dto hdto
    exact (hrecord t (hpage t ht) o ho hid dto hdto).mp hok
  · intro hall
    obtain ⟨o, ho, hfills⟩ := hsourced.fills t (hpage t ht)
    obtain ⟨dto, hdto⟩ := hsourced.requests o ho
    exact (hrecord t (hpage t ht) o ho hfills.orderId.symm dto hdto).mpr
      (hall o ho hfills.orderId.symm dto hdto)

/-- A trade at a price of zero or below is not accepted. -/
theorem record_refused {P : DateParser} {d : Store} {t : Trade} (h : ¬ 0 < t.price.units) :
    tradeRecordSchema P (tradeListItem d t) = false := by
  have hprice : hasField positiveDecimalString "price" (tradeListItem d t) = false := by
    have hfield : (tradeListItem d t).field? "price" = some (.str t.price.text) := by
      simp [tradeListItem, Json.field?]
    rw [hasField, hfield, Option.bind_some, positive_text]
    exact decide_eq_false h
  simp [tradeRecordSchema, hprice]

/-- The first page of broker B1. -/
def firstPage : TradeListQuery := ⟨"B1", none, none, none, none, none, 50⟩

/-- A trade, the ids and the time of which are genuine, stands alone on the
first page. -/
def onFirstPage (w : OrderWorld) (trade : Trade) : Bool :=
  isUlid trade.tradeId && isUlid trade.orderId && isTimeValue trade.executedAt &&
    findByBroker firstPage w.db = [trade] && w.db.trades = [trade]

/-- A limit order at a price of zero is accepted, and the page with its trade
is rejected. -/
theorem zero_price_unreadable : ∃ es w dto o trade,
    run (World.step platform (orders fillDigests "4")) (World.initial Store.empty 0) es = some w ∧
    orderRequestSchema (limitOrder "C1" "1" "0") = some dto ∧ o ∈ orderTerms.rows w.db ∧
    StoredAs dto o ∧ trade ∈ w.db.trades ∧ o.orderId = trade.orderId ∧ Drawn trade ∧
    ∀ P, tradeRecordSchema P (tradeListItem w.db trade) = false ∧
      ((findByBroker firstPage w.db).map (tradeListItem w.db)).all (tradeListItemSchema P) = false := by
  obtain ⟨w, hrun, hcheck⟩ := run_reaches (World.step platform (orders fillDigests "4"))
    (World.initial Store.empty 0) (oneOrder (limitOrder "C1" "1" "0"))
    (fun w => recorded (limitOrder "C1" "1" "0") w fun _ trade =>
      onFirstPage w trade && !decide (0 < trade.price.units)) (by decide +kernel)
  obtain ⟨dto, o, trade, hdto, ho, hstored, htrade, hid, hzero⟩ := recorded_exists hcheck
  simp only [onFirstPage, Bool.and_eq_true, Bool.not_eq_true', decide_eq_true_eq,
    decide_eq_false_iff_not] at hzero
  obtain ⟨⟨⟨⟨⟨hulid, hoid⟩, htime⟩, hpage⟩, -⟩, hprice⟩ := hzero
  refine ⟨_, w, dto, o, trade, hrun, hdto, ho, hstored, htrade, hid, ⟨hulid, hoid, htime⟩,
    fun P => ⟨record_refused hprice, ?_⟩⟩
  rw [hpage]
  simp [item_accepted, record_refused hprice]

theorem trades_readable_once : ∃ es w,
    run (World.step platform (orders fillDigests "4")) (World.initial Store.empty 0) es = some w ∧
    (∀ text, isHex64 (fillDigests.hex text) = true) ∧ (∀ t ∈ w.db.trades, Drawn t) ∧
    (∃ dto o trade, o ∈ orderTerms.rows w.db ∧ StoredAs dto o ∧ trade ∈ w.db.trades ∧
      o.orderId = trade.orderId ∧ tradeRecordSchema .epoch (tradeListItem w.db trade) = true ∧
      Readable dto) := by
  obtain ⟨w, hrun, hcheck⟩ := run_reaches (World.step platform (orders fillDigests "4"))
    (World.initial Store.empty 0) (oneOrder (limitOrder "C1" "1" "1.2345"))
    (fun w => recorded (limitOrder "C1" "1" "1.2345") w fun _ trade =>
      onFirstPage w trade && tradeRecordSchema .epoch (tradeListItem w.db trade))
    (by decide +kernel)
  obtain ⟨dto, o, trade, hdto, ho, hstored, htrade, hid, hgood⟩ := recorded_exists hcheck
  simp only [onFirstPage, Bool.and_eq_true, decide_eq_true_eq] at hgood
  obtain ⟨⟨⟨⟨⟨hulid, hoid⟩, htime⟩, -⟩, hall⟩, haccepted⟩ := hgood
  have hlower : ∀ text, isHex64 (fillDigests.hex text) = true :=
    Sha256.known_hex (by decide) (by decide)
  have hdrawn : ∀ t ∈ w.db.trades, Drawn t := by
    intro t ht
    obtain rfl : t = trade := by simpa [hall] using ht
    exact ⟨hulid, hoid, htime⟩
  exact ⟨_, w, hrun, hlower, hdrawn, dto, o, trade, ho, hstored, htrade, hid, haccepted,
    ((trades_readable_iff (P := .epoch) hlower ⟨rfl, rfl⟩ (visits_last hrun) hdrawn).1 trade
      htrade o ho hid dto hstored).mp haccepted⟩

end LpPlatform.TradesList
