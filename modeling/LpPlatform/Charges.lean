import Mathlib.Data.List.Sort
import LpPlatform.Tables

/-!
# Charges on a fill

A rate row applies from its date on. The charges of a fill are proportions of
its turnover under the latest row of its segment that applies. Each is
rounded to two decimals when its line is emitted, and zero charges have no
line.
-/

namespace LpPlatform.Charges

open Amounts DecimalText JsValues Tables

/-- The segment of a product. -/
inductive ProductSegment where
  | eqDelivery
  | eqIntraday
  | fut
  | opt
  deriving DecidableEq, Repr

/-- The segment as text. -/
def segmentText : ProductSegment → String
  | .eqDelivery => "EQ_DELIVERY"
  | .eqIntraday => "EQ_INTRADAY"
  | .fut => "FUT"
  | .opt => "OPT"

/-- A row of the rate table. -/
structure ChargeRate where
  effectiveFrom : String
  segment : ProductSegment
  brokerageRate : String
  brokerageMin : String
  brokerageMax : String
  sttBuyRate : String
  sttSellRate : String
  exchangeFeeRate : String
  sebiFeeRate : String
  stampDutyBuyRate : String
  gstRate : String
  deriving DecidableEq

/-- The rate table. -/
def CHARGE_RATES : List ChargeRate := [
  { effectiveFrom := "2024-10-01"
    segment := .eqDelivery
    brokerageRate := "0"
    brokerageMin := "0"
    brokerageMax := "0"
    sttBuyRate := "0.001"
    sttSellRate := "0.001"
    exchangeFeeRate := "0.0000297"
    sebiFeeRate := "0.000001"
    stampDutyBuyRate := "0.00015"
    gstRate := "0.18" },
  { effectiveFrom := "2024-10-01"
    segment := .eqIntraday
    brokerageRate := "0.0003"
    brokerageMin := "0"
    brokerageMax := "20"
    sttBuyRate := "0"
    sttSellRate := "0.00025"
    exchangeFeeRate := "0.0000297"
    sebiFeeRate := "0.000001"
    stampDutyBuyRate := "0.00003"
    gstRate := "0.18" },
  { effectiveFrom := "2024-10-01"
    segment := .fut
    brokerageRate := "0.0003"
    brokerageMin := "0"
    brokerageMax := "20"
    sttBuyRate := "0"
    sttSellRate := "0.0002"
    exchangeFeeRate := "0.0000173"
    sebiFeeRate := "0.000001"
    stampDutyBuyRate := "0.00002"
    gstRate := "0.18" },
  { effectiveFrom := "2024-10-01"
    segment := .opt
    brokerageRate := "0"
    brokerageMin := "20"
    brokerageMax := "20"
    sttBuyRate := "0"
    sttSellRate := "0.001"
    exchangeFeeRate := "0.0003503"
    sebiFeeRate := "0.000001"
    stampDutyBuyRate := "0.00003"
    gstRate := "0.18" }]

/-- Days from the epoch to a date. Years start in March. -/
def daysOfCivil (year month day : ℤ) : ℤ :=
  let y := if month ≤ 2 then year - 1 else year
  let era := y / 400
  let yearOfEra := y % 400
  let dayOfYear := (153 * (if 2 < month then month - 3 else month + 9) + 2) / 5 + day - 1
  let dayOfEra := yearOfEra * 365 + yearOfEra / 4 - yearOfEra / 100 + dayOfYear
  era * 146097 + dayOfEra - 719468

/-- `new Date` of a `YYYY-MM-DD` text: midnight in UTC. -/
def dateOf? (text : String) : Option Instant :=
  match text.toList with
  | [y₁, y₂, y₃, y₄, '-', m₁, m₂, '-', d₁, d₂] => do
    let year ← digits? [y₁, y₂, y₃, y₄]
    let month ← digits? [m₁, m₂]
    let day ← digits? [d₁, d₂]
    if 1 ≤ month ∧ month ≤ 12 ∧ 1 ≤ day ∧ day ≤ 31 then
      some (daysOfCivil year month day * 86400000)
    else none
  | _ => none

/-- The row is of the segment and applies at an instant. -/
def ChargeRate.applies (segment : ProductSegment) (executedAt : Instant) (r : ChargeRate) : Bool :=
  r.segment = segment && (dateOf? r.effectiveFrom).any fun start => start ≤ executedAt

/-- Latest date first; the dates are compared as text. -/
def ChargeRate.later (a b : ChargeRate) : Prop :=
  b.effectiveFrom.toList.map Char.toNat ≤ a.effectiveFrom.toList.map Char.toNat

instance : DecidableRel ChargeRate.later := fun a b =>
  inferInstanceAs (Decidable (b.effectiveFrom.toList.map Char.toNat ≤
    a.effectiveFrom.toList.map Char.toNat))

/-- The row of a table in force for a segment at an instant. -/
def activeRate (table : List ChargeRate) (segment : ProductSegment) (executedAt : Instant) :
    Except Failure ChargeRate :=
  match (table.filter (ChargeRate.applies segment executedAt)).insertionSort ChargeRate.later with
  | first :: _ => .ok first
  | [] => .error
    (.error s!"No active charge rate for {segmentText segment} at {toISOString executedAt}")

/-- The row in force for a segment at an instant. -/
def getActiveRate (segment : ProductSegment) (executedAt : Instant) : Except Failure ChargeRate :=
  activeRate CHARGE_RATES segment executedAt

/-- A fill as the charges see it. -/
structure FillForCharges where
  tradeId : String
  side : OrderSide
  quantity : String
  price : String
  executedAt : Instant
  segment : ProductSegment

/-- One itemised charge. -/
structure ChargeLine where
  tradeId : String
  type : ChargeType
  amount : String
  description : String
  deriving DecidableEq

/-- A value between two bounds; a maximum of zero is none. -/
def clamp (value min max : Money) : Money :=
  if value.lt min then min
  else if max.gt Money.zero && value.gt max then max
  else value

/-- A charge of a trade, to two decimals. -/
def line (tradeId : String) (type : ChargeType) (amount : Money) (description : String) :
    ChargeLine :=
  ⟨tradeId, type, (amount.round 2).toString, description⟩

/-- A line for a charge that is not zero. -/
def lineUnlessZero (tradeId : String) (type : ChargeType) (amount : Money) (description : String) :
    List ChargeLine :=
  if amount.isZero then [] else [line tradeId type amount description]

/-- The product with a decimal text. -/
def mulText (m : Money) (text : String) : Except Failure Money := do
  let factor ← Money.new text
  return m.mul factor

/-- The transaction tax of a turnover. -/
def sttOf (rate : ChargeRate) (turnover : Money) : OrderSide → Except Failure Money
  | .buy => mulText turnover rate.sttBuyRate
  | .sell => mulText turnover rate.sttSellRate

/-- The stamp duty of a turnover, on purchases only. -/
def stampOf (rate : ChargeRate) (turnover : Money) : OrderSide → Except Failure Money
  | .buy => mulText turnover rate.stampDutyBuyRate
  | .sell => .ok Money.zero

/-- The charges of a fill under a rate row. -/
def computeWith (rate : ChargeRate) (fill : FillForCharges) : Except Failure (List ChargeLine) := do
  let quantity ← Money.new fill.quantity
  let turnover ← mulText quantity fill.price
  let brokerageRaw ← mulText turnover rate.brokerageRate
  let brokerageMin ← Money.new rate.brokerageMin
  let brokerageMax ← Money.new rate.brokerageMax
  let brokerage := clamp brokerageRaw brokerageMin brokerageMax
  let stt ← sttOf rate turnover fill.side
  let exchangeFee ← mulText turnover rate.exchangeFeeRate
  let sebiFee ← mulText turnover rate.sebiFeeRate
  let stamp ← stampOf rate turnover fill.side
  let gstBase := (brokerage.add exchangeFee).add sebiFee
  let gst ← mulText gstBase rate.gstRate
  return lineUnlessZero fill.tradeId .brokerage brokerage "Brokerage" ++
    lineUnlessZero fill.tradeId .stt stt "Securities Transaction Tax" ++
    lineUnlessZero fill.tradeId .exchangeFee exchangeFee "Exchange transaction charge" ++
    lineUnlessZero fill.tradeId .sebiFee sebiFee "SEBI turnover fee" ++
    lineUnlessZero fill.tradeId .stampDuty stamp "Stamp duty" ++
    lineUnlessZero fill.tradeId .gst gst "GST on (brokerage + exchange + SEBI)"

/-- `ChargesService.computeForFill`. -/
def computeForFill (fill : FillForCharges) : Except Failure (List ChargeLine) := do
  let rate ← getActiveRate fill.segment fill.executedAt
  computeWith rate fill

/-- `ChargesService.totalFor`. -/
def totalFor (lines : List ChargeLine) : Except Failure Money :=
  lines.foldlM (fun total l => do return total.add (← Money.new l.amount)) Money.zero

theorem lineUnlessZero_tradeId {tradeId : String} {type : ChargeType} {amount : Money}
    {description : String} {l : ChargeLine}
    (h : l ∈ lineUnlessZero tradeId type amount description) : l.tradeId = tradeId := by
  unfold lineUnlessZero at h
  split at h
  · simp at h
  · obtain rfl := List.mem_singleton.mp h
    rfl

theorem bind_ok {α β : Type} {x : Except Failure α} {f : α → Except Failure β} {b : β}
    (h : x >>= f = .ok b) : ∃ a, x = .ok a ∧ f a = .ok b := by
  cases x with
  | error e => cases h
  | ok a => exact ⟨a, rfl, h⟩

/-- Every line is of the trade it was computed for. -/
theorem computeForFill_tradeId {fill : FillForCharges} {lines : List ChargeLine}
    (h : computeForFill fill = .ok lines) : ∀ l ∈ lines, l.tradeId = fill.tradeId := by
  obtain ⟨rate, -, h⟩ := bind_ok h
  obtain ⟨quantity, -, h⟩ := bind_ok h
  obtain ⟨turnover, -, h⟩ := bind_ok h
  obtain ⟨brokerageRaw, -, h⟩ := bind_ok h
  obtain ⟨brokerageMin, -, h⟩ := bind_ok h
  obtain ⟨brokerageMax, -, h⟩ := bind_ok h
  obtain ⟨stt, -, h⟩ := bind_ok h
  obtain ⟨exchangeFee, -, h⟩ := bind_ok h
  obtain ⟨sebiFee, -, h⟩ := bind_ok h
  obtain ⟨stamp, -, h⟩ := bind_ok h
  obtain ⟨gst, -, h⟩ := bind_ok h
  obtain rfl := Except.ok.inj h
  intro l hl
  simp only [List.mem_append] at hl
  rcases hl with ((((hl | hl) | hl) | hl) | hl) | hl <;> exact lineUnlessZero_tradeId hl

/-- A delivery sale for 100000: no brokerage and no stamp duty. -/
example : computeForFill ⟨"T1", .sell, "100", "1000", 1730000000000, .eqDelivery⟩ = .ok [
    ⟨"T1", .stt, "100", "Securities Transaction Tax"⟩,
    ⟨"T1", .exchangeFee, "2.97", "Exchange transaction charge"⟩,
    ⟨"T1", .sebiFee, "0.1", "SEBI turnover fee"⟩,
    ⟨"T1", .gst, "0.55", "GST on (brokerage + exchange + SEBI)"⟩] := by decide +kernel

end LpPlatform.Charges
