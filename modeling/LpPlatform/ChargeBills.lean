import LpPlatform.Charges
import LpPlatform.MoneyArithmetic

/-!
# The bill of a fill

A tariff is what the texts of a rate row denote for one side. Each charge is a
monotone function of the turnover, to forty digits; the bill emits those that
are not zero, rounded to paise. So the total is monotone in the turnover. A
line is positive when its charge is more than half a paisa. The tax is taken on
the charges before they are rounded, so it is not the tax on the emitted lines
when half a paisa lies between the two.
-/

namespace LpPlatform.ChargeBills

open Amounts Charges DecimalRounding JsValues MoneyArithmetic MoneyText Tables

/-- The figures of a rate row for one side. -/
structure Tariff where
  brokerage : ℚ
  /-- The least brokerage. -/
  floor : ℚ
  /-- The greatest brokerage, none when it is zero. -/
  ceiling : ℚ
  stt : ℚ
  exchangeFee : ℚ
  sebiFee : ℚ
  stampDuty : ℚ
  gst : ℚ

/-- The tariff that a rate row denotes. -/
def tariff (rate : ChargeRate) (side : OrderSide) : Tariff where
  brokerage := denoted rate.brokerageRate
  floor := denoted rate.brokerageMin
  ceiling := denoted rate.brokerageMax
  stt := match side with
    | .buy => denoted rate.sttBuyRate
    | .sell => denoted rate.sttSellRate
  exchangeFee := denoted rate.exchangeFeeRate
  sebiFee := denoted rate.sebiFeeRate
  stampDuty := match side with
    | .buy => denoted rate.stampDutyBuyRate
    | .sell => 0
  gst := denoted rate.gstRate

/-- A rate within its bounds. -/
def clamped (floor ceiling x : ℚ) : ℚ :=
  if x < floor then floor else if 0 < ceiling ∧ ceiling < x then ceiling else x

/-- The proportion of a turnover at a rate, to forty digits. -/
def share (turnover rate : ℚ) : ℚ := significant 40 (turnover * rate)

/-- The brokerage on a turnover. -/
def Tariff.brokerageOn (t : Tariff) (turnover : ℚ) : ℚ :=
  clamped t.floor t.ceiling (share turnover t.brokerage)

/-- The base of the tax, to forty digits. -/
def Tariff.gstBase (t : Tariff) (turnover : ℚ) : ℚ :=
  significant 40 (significant 40 (t.brokerageOn turnover + share turnover t.exchangeFee) +
    share turnover t.sebiFee)

/-- The charge of a type on a turnover, before it is rounded to paise. -/
def Tariff.charge (t : Tariff) (turnover : ℚ) : ChargeType → ℚ
  | .brokerage => t.brokerageOn turnover
  | .stt => share turnover t.stt
  | .exchangeFee => share turnover t.exchangeFee
  | .sebiFee => share turnover t.sebiFee
  | .stampDuty => share turnover t.stampDuty
  | .gst => share (t.gstBase turnover) t.gst
  | .transactionFee => 0

/-- The types of charges, in the order of the bill. -/
def billTypes : List ChargeType := [.brokerage, .stt, .exchangeFee, .sebiFee, .stampDuty, .gst]

/-- What a line says of its type. -/
def description : ChargeType → String
  | .brokerage => "Brokerage"
  | .stt => "Securities Transaction Tax"
  | .exchangeFee => "Exchange transaction charge"
  | .sebiFee => "SEBI turnover fee"
  | .stampDuty => "Stamp duty"
  | .gst => "GST on (brokerage + exchange + SEBI)"
  | .transactionFee => ""

/-- The lines of some types of charges. -/
def bill (tradeId : String) (amounts : ChargeType → Money) (types : List ChargeType) : List ChargeLine :=
  types.flatMap fun type => lineUnlessZero tradeId type (amounts type) (description type)

/-- The amount emitted for a type, zero without a line. -/
def lineAmount (lines : List ChargeLine) (type : ChargeType) : ℚ :=
  ((lines.find? fun l => l.type = type).map fun l => denoted l.amount).getD 0

/-- The text is a decimal. -/
def IsDecimal (text : String) : Prop := ∃ m, Money.new text = .ok m

/-- A rate row of decimals, with rates that are not negative and bounds in order. -/
structure ValidRow (rate : ChargeRate) : Prop where
  decimals : ∀ text ∈ [rate.brokerageRate, rate.brokerageMin, rate.brokerageMax, rate.sttBuyRate,
    rate.sttSellRate, rate.exchangeFeeRate, rate.sebiFeeRate, rate.stampDutyBuyRate, rate.gstRate],
    IsDecimal text
  nonneg : ∀ text ∈ [rate.brokerageRate, rate.sttBuyRate, rate.sttSellRate, rate.exchangeFeeRate,
    rate.sebiFeeRate, rate.stampDutyBuyRate, rate.gstRate], 0 ≤ denoted text
  bounds : denoted rate.brokerageMin ≤ denoted rate.brokerageMax ∨ denoted rate.brokerageMax = 0

/-- A fill of decimals. -/
structure DecimalFill (fill : FillForCharges) : Prop where
  quantity : IsDecimal fill.quantity
  price : IsDecimal fill.price

instance (text : String) : Decidable (IsDecimal text) :=
  match h : Money.new text with
  | .ok m => isTrue ⟨m, h⟩
  | .error _ => isFalse fun ⟨_, hm⟩ => by simp [h] at hm

instance (rate : ChargeRate) : Decidable (ValidRow rate) :=
  decidable_of_iff (_ ∧ _ ∧ _) ⟨fun h => ⟨h.1, h.2.1, h.2.2⟩, fun h => ⟨h.decimals, h.nonneg, h.bounds⟩⟩

instance (fill : FillForCharges) : Decidable (DecimalFill fill) :=
  decidable_of_iff (_ ∧ _) ⟨fun h => ⟨h.1, h.2⟩, fun h => ⟨h.quantity, h.price⟩⟩

/-- Quantity times price. -/
def turnover (fill : FillForCharges) : ℚ := denoted fill.quantity * denoted fill.price

/-- The charge of a type on a fill under a rate row, before it is rounded. -/
def chargeOn (rate : ChargeRate) (fill : FillForCharges) (type : ChargeType) : ℚ :=
  (tariff rate fill.side).charge (significant 40 (turnover fill)) type

/-- Half a paisa lies between the tax on the charges and the tax on the
amounts that are emitted for them. -/
def HalfPaisaBetween (rate : ChargeRate) (fill : FillForCharges) : Prop :=
  ∃ n : ℤ, ¬ (Passes 2 n (chargeOn rate fill .gst) ↔
    Passes 2 n (denoted rate.gstRate * (roundTo 2 (chargeOn rate fill .brokerage) +
      roundTo 2 (chargeOn rate fill .exchangeFee) + roundTo 2 (chargeOn rate fill .sebiFee))))

/-- Every row of the table is valid. -/
theorem validRow_table : ∀ rate ∈ CHARGE_RATES, ValidRow rate := by decide +kernel

/-- The row for options. -/
def optionRate : ChargeRate := CHARGE_RATES.get ⟨3, by decide⟩

/-- A purchase of options at a price. -/
def optionFill (price : String) : FillForCharges := ⟨"T1", .buy, "1", price, 1736919000000, .opt⟩

section Computing

/-- A text that is a decimal is read as what it denotes. -/
theorem IsDecimal.read {text : String} (h : IsDecimal text) :
    ∃ m, Money.new text = .ok m ∧ m.value = denoted text := by
  obtain ⟨m, hm⟩ := h
  exact ⟨m, hm, new_denoted hm⟩

theorem mulText_ok {text : String} {factor : Money} (h : Money.new text = .ok factor) (m : Money) :
    mulText m text = .ok (m.mul factor) := by
  rw [mulText, h]
  rfl

theorem value_zero : Money.zero.value = 0 := by norm_num [Money.value, Money.zero, DecimalText.Literal, litValue]

/-- A clamp of money clamps its value. -/
theorem clamp_value (value min max : Money) :
    (clamp value min max).value = clamped min.value max.value value.value := by
  simp only [clamp, clamped, Money.lt, Money.gt, value_zero, decide_eq_true_eq, Bool.and_eq_true]
  split_ifs <;> rfl

/-- The transaction tax by the side of the fill. -/
theorem sttOf_ok {rate : ChargeRate} (hrow : ValidRow rate) (side : OrderSide) (turnover : Money) :
    ∃ m, sttOf rate turnover side = .ok m ∧
      m.value = share turnover.value (tariff rate side).stt := by
  cases side with
  | buy =>
    obtain ⟨factor, hfactor, hvalue⟩ := (hrow.decimals rate.sttBuyRate (by simp)).read
    exact ⟨_, mulText_ok hfactor turnover, by rw [mul_significant, hvalue]; rfl⟩
  | sell =>
    obtain ⟨factor, hfactor, hvalue⟩ := (hrow.decimals rate.sttSellRate (by simp)).read
    exact ⟨_, mulText_ok hfactor turnover, by rw [mul_significant, hvalue]; rfl⟩

/-- The stamp duty, nothing on a sale. -/
theorem stampOf_ok {rate : ChargeRate} (hrow : ValidRow rate) (side : OrderSide) (turnover : Money) :
    ∃ m, stampOf rate turnover side = .ok m ∧
      m.value = share turnover.value (tariff rate side).stampDuty := by
  cases side with
  | buy =>
    obtain ⟨factor, hfactor, hvalue⟩ := (hrow.decimals rate.stampDutyBuyRate (by simp)).read
    exact ⟨_, mulText_ok hfactor turnover, by rw [mul_significant, hvalue]; rfl⟩
  | sell =>
    refine ⟨_, rfl, ?_⟩
    rw [value_zero, tariff, share, mul_zero, significant_zero]

/-- The lines are those of the charges of the tariff. -/
theorem computeWith_bill {rate : ChargeRate} {fill : FillForCharges} (hrow : ValidRow rate)
    (hfill : DecimalFill fill) :
    ∃ amounts : ChargeType → Money, (∀ type, (amounts type).value = chargeOn rate fill type) ∧
      computeWith rate fill = .ok (bill fill.tradeId amounts billTypes) := by
  obtain ⟨quantity, hq, hqvalue⟩ := hfill.quantity.read
  obtain ⟨price, hp, hpvalue⟩ := hfill.price.read
  obtain ⟨brokerageRate, hb, hbvalue⟩ := (hrow.decimals rate.brokerageRate (by simp)).read
  obtain ⟨brokerageMin, hmin, hminvalue⟩ := (hrow.decimals rate.brokerageMin (by simp)).read
  obtain ⟨brokerageMax, hmax, hmaxvalue⟩ := (hrow.decimals rate.brokerageMax (by simp)).read
  obtain ⟨exchangeFeeRate, he, hevalue⟩ := (hrow.decimals rate.exchangeFeeRate (by simp)).read
  obtain ⟨sebiFeeRate, hs, hsvalue⟩ := (hrow.decimals rate.sebiFeeRate (by simp)).read
  obtain ⟨gstRate, hg, hgvalue⟩ := (hrow.decimals rate.gstRate (by simp)).read
  have hturnover : (quantity.mul price).value = significant 40 (turnover fill) := by
    rw [mul_significant, hqvalue, hpvalue, turnover]
  obtain ⟨stt, hstt, hsttvalue⟩ := sttOf_ok hrow fill.side (quantity.mul price)
  obtain ⟨stamp, hstamp, hstampvalue⟩ := stampOf_ok hrow fill.side (quantity.mul price)
  let brokerage := clamp ((quantity.mul price).mul brokerageRate) brokerageMin brokerageMax
  let exchangeFee := (quantity.mul price).mul exchangeFeeRate
  let sebiFee := (quantity.mul price).mul sebiFeeRate
  have hbrokerage : brokerage.value = chargeOn rate fill .brokerage := by
    rw [clamp_value, mul_significant, hturnover, hbvalue, hminvalue, hmaxvalue]
    rfl
  have hexchange : exchangeFee.value = chargeOn rate fill .exchangeFee := by
    rw [mul_significant, hturnover, hevalue]
    rfl
  have hsebi : sebiFee.value = chargeOn rate fill .sebiFee := by
    rw [mul_significant, hturnover, hsvalue]
    rfl
  refine ⟨fun
    | .brokerage => brokerage
    | .stt => stt
    | .exchangeFee => exchangeFee
    | .sebiFee => sebiFee
    | .stampDuty => stamp
    | .gst => ((brokerage.add exchangeFee).add sebiFee).mul gstRate
    | .transactionFee => Money.zero, fun type => ?_, ?_⟩
  · cases type with
    | brokerage => exact hbrokerage
    | stt => rw [hsttvalue, hturnover, chargeOn, Tariff.charge]
    | exchangeFee => exact hexchange
    | sebiFee => exact hsebi
    | stampDuty => rw [hstampvalue, hturnover, chargeOn, Tariff.charge]
    | gst =>
      rw [mul_significant, add_significant, add_significant, hbrokerage, hexchange, hsebi, hgvalue,
        chargeOn, Tariff.charge]
      rfl
    | transactionFee => exact value_zero
  · have hbind : ∀ {α β : Type} (a : α) (f : α → Except Failure β), (Except.ok a >>= f) = f a :=
      fun _ _ => rfl
    simp only [computeWith, hbind, hq, mulText_ok hp, mulText_ok hb, hmin, hmax, hstt, mulText_ok he, mulText_ok hs,
      hstamp, mulText_ok hg, bill, billTypes, List.flatMap_cons, List.flatMap_nil, List.append_nil,
      List.append_assoc]
    rfl

end Computing

section Lines

/-- The emitted text is read as the charge rounded to paise. -/
theorem line_read (tradeId : String) (type : ChargeType) (amount : Money) (text : String) :
    ∃ m, Money.new (line tradeId type amount text).amount = .ok m ∧ m.value = roundTo 2 amount.value := by
  refine ⟨_, new_toString_parts (amount.round 2), ?_⟩
  rw [← round_value]
  exact litValue_isNegative (amount.round 2)

theorem line_denoted (tradeId : String) (type : ChargeType) (amount : Money) (text : String) :
    denoted (line tradeId type amount text).amount = roundTo 2 amount.value := by
  obtain ⟨m, hm, hvalue⟩ := line_read tradeId type amount text
  rw [← new_denoted hm, hvalue]

theorem isZero_iff (m : Money) : m.isZero = true ↔ m.value = 0 := by
  rw [← abs_eq_zero, value_natAbs, div_eq_zero_iff, Money.isZero, decide_eq_true_iff, Nat.cast_eq_zero]
  simp

/-- A line is one of a type whose charge is not zero. -/
theorem mem_bill {tradeId : String} {amounts : ChargeType → Money} {types : List ChargeType} {l : ChargeLine} :
    l ∈ bill tradeId amounts types ↔ ∃ type ∈ types, (amounts type).value ≠ 0 ∧
      l = line tradeId type (amounts type) (description type) := by
  simp only [bill, List.mem_flatMap, lineUnlessZero]
  refine exists_congr fun type => and_congr_right fun _ => ?_
  rw [Ne, ← isZero_iff]
  split <;> simp_all

/-- The types of the lines are among those asked for, in their order. -/
theorem bill_types (tradeId : String) (amounts : ChargeType → Money) (types : List ChargeType) :
    ((bill tradeId amounts types).map (·.type)).Sublist types := by
  induction types with
  | nil => simp [bill]
  | cons type types ih =>
    have hrest : (bill tradeId amounts (type :: types)).map (·.type) =
        (lineUnlessZero tradeId type (amounts type) (description type)).map (·.type) ++
          (bill tradeId amounts types).map (·.type) := by simp [bill]
    rw [hrest, lineUnlessZero]
    split
    · exact ih.cons _
    · exact ih.cons_cons _

/-- The amount emitted for a type is its charge rounded to paise. -/
theorem lineAmount_bill {tradeId : String} {amounts : ChargeType → Money} {types : List ChargeType}
    {type : ChargeType} (hmem : type ∈ types) :
    lineAmount (bill tradeId amounts types) type = roundTo 2 (amounts type).value := by
  unfold lineAmount
  cases hfind : (bill tradeId amounts types).find? fun l => l.type = type with
  | none =>
    -- no line of the type: its charge is zero
    have hzero : (amounts type).value = 0 := by
      by_contra hne
      have hline : line tradeId type (amounts type) (description type) ∈ bill tradeId amounts types :=
        mem_bill.mpr ⟨type, hmem, hne, rfl⟩
      have hno := List.find?_eq_none.mp hfind _ hline
      exact hno (decide_eq_true rfl)
    rw [hzero, roundTo_zero]
    rfl
  | some l =>
    have htype : l.type = type := by simpa using List.find?_some hfind
    obtain ⟨type', -, -, rfl⟩ := mem_bill.mp (List.mem_of_find?_eq_some hfind)
    obtain rfl : type' = type := htype
    rw [Option.map_some, Option.getD_some, line_denoted]

/-- What has been added up, to forty digits, over some types of charges. -/
def billTotal (charges : ChargeType → ℚ) (types : List ChargeType) (total : ℚ) : ℚ :=
  types.foldl (fun acc type => significant 40 (acc + roundTo 2 (charges type))) total

/-- The total of the lines adds up the charges rounded to paise, those without
a line included. -/
theorem totalFor_bill {tradeId : String} {amounts : ChargeType → Money} {types : List ChargeType} :
    ∃ total, totalFor (bill tradeId amounts types) = .ok total ∧
      total.value = billTotal (fun type => (amounts type).value) types 0 := by
  have hfold : ∀ acc : Money, significant 40 acc.value = acc.value → ∃ total,
      (bill tradeId amounts types).foldlM (fun total l => do return total.add (← Money.new l.amount)) acc =
        (.ok total : Except Failure Money) ∧
      total.value = billTotal (fun type => (amounts type).value) types acc.value := by
    induction types with
    | nil => exact fun acc _ => ⟨acc, rfl, rfl⟩
    | cons type types ih =>
      intro acc hacc
      have hrest : bill tradeId amounts (type :: types) =
          lineUnlessZero tradeId type (amounts type) (description type) ++ bill tradeId amounts types := by
        simp [bill]
      rw [hrest, billTotal, List.foldl_cons, ← billTotal]
      by_cases hzero : (amounts type).isZero = true
      · -- nothing is added for a charge without a line
        rw [lineUnlessZero, if_pos hzero, List.nil_append, (isZero_iff _).mp hzero, roundTo_zero, add_zero, hacc]
        exact ih acc hacc
      · rw [lineUnlessZero, if_neg hzero, List.singleton_append, List.foldlM_cons]
        obtain ⟨m, hm, hvalue⟩ := line_read tradeId type (amounts type) (description type)
        have hsum : (acc.add m).value = significant 40 (acc.value + roundTo 2 (amounts type).value) := by
          rw [add_significant, hvalue]
        have hfixed : significant 40 (acc.add m).value = (acc.add m).value := by
          rw [hsum, significant_idem (by decide)]
        rw [hm, ← hsum]
        exact ih (acc.add m) hfixed
  have hzero : significant 40 Money.zero.value = Money.zero.value := by rw [value_zero, significant_zero]
  have htotal := hfold Money.zero hzero
  rw [value_zero] at htotal
  exact htotal

end Lines

section Monotone

theorem clamped_mono {floor ceiling : ℚ} (h : floor ≤ ceiling ∨ ceiling = 0) :
    Monotone (clamped floor ceiling) := by
  intro x y hxy
  unfold clamped
  rcases h with hle | rfl
  · split_ifs <;> grind
  · split_ifs <;> grind

/-- What is clamped lies between the bounds. -/
theorem clamped_bounds {floor ceiling : ℚ} (h : floor ≤ ceiling ∨ ceiling = 0) (x : ℚ) :
    floor ≤ clamped floor ceiling x ∧ (0 < ceiling → clamped floor ceiling x ≤ ceiling) := by
  unfold clamped
  rcases h with hle | rfl
  · split_ifs <;> grind
  · split_ifs <;> grind

theorem share_mono {rate x y : ℚ} (hrate : 0 ≤ rate) (h : x ≤ y) : share x rate ≤ share y rate :=
  significant_mono (by decide) (mul_le_mul_of_nonneg_right h hrate)

/-- Every charge is monotone in the turnover. -/
theorem chargeOn_mono {rate : ChargeRate} (hrow : ValidRow rate) {fill fill' : FillForCharges}
    (hside : fill.side = fill'.side) (hle : turnover fill ≤ turnover fill') (type : ChargeType) :
    chargeOn rate fill type ≤ chargeOn rate fill' type := by
  have hnonneg := hrow.nonneg
  have hturnover : significant 40 (turnover fill) ≤ significant 40 (turnover fill') :=
    significant_mono (by decide) hle
  have hbrokerage : chargeOn rate fill .brokerage ≤ chargeOn rate fill' .brokerage := by
    simp only [chargeOn, Tariff.charge, Tariff.brokerageOn, tariff]
    exact clamped_mono hrow.bounds (share_mono (hnonneg rate.brokerageRate (by simp)) hturnover)
  have hexchange : chargeOn rate fill .exchangeFee ≤ chargeOn rate fill' .exchangeFee := by
    simp only [chargeOn, Tariff.charge, tariff]
    exact share_mono (hnonneg rate.exchangeFeeRate (by simp)) hturnover
  have hsebi : chargeOn rate fill .sebiFee ≤ chargeOn rate fill' .sebiFee := by
    simp only [chargeOn, Tariff.charge, tariff]
    exact share_mono (hnonneg rate.sebiFeeRate (by simp)) hturnover
  cases type with
  | brokerage => exact hbrokerage
  | exchangeFee => exact hexchange
  | sebiFee => exact hsebi
  | transactionFee => exact le_rfl
  | stt =>
    simp only [chargeOn, Tariff.charge, ← hside]
    refine share_mono ?_ hturnover
    cases fill.side with
    | buy => exact hnonneg rate.sttBuyRate (by simp)
    | sell => exact hnonneg rate.sttSellRate (by simp)
  | stampDuty =>
    simp only [chargeOn, Tariff.charge, ← hside]
    refine share_mono ?_ hturnover
    cases fill.side with
    | buy => exact hnonneg rate.stampDutyBuyRate (by simp)
    | sell => exact le_rfl
  | gst =>
    simp only [chargeOn, Tariff.charge] at hbrokerage hexchange hsebi
    simp only [chargeOn, Tariff.charge, Tariff.gstBase]
    have hsum := significant_mono (K := ℚ) (by decide : 0 < 40) (add_le_add hbrokerage hexchange)
    have hbase := significant_mono (K := ℚ) (by decide : 0 < 40) (add_le_add hsum hsebi)
    have hrate : (tariff rate fill.side).gst = (tariff rate fill'.side).gst := rfl
    rw [hrate]
    exact share_mono (hnonneg rate.gstRate (by simp)) hbase

/-- A total is monotone in the charges and in what it starts from. -/
theorem billTotal_mono {charges charges' : ChargeType → ℚ} (h : ∀ type, charges type ≤ charges' type)
    (types : List ChargeType) {total total' : ℚ} (htotal : total ≤ total') :
    billTotal charges types total ≤ billTotal charges' types total' := by
  induction types generalizing total total' with
  | nil => exact htotal
  | cons type types ih =>
    refine ih (significant_mono (by decide) ?_)
    exact add_le_add htotal (roundTo_mono 2 (h type))

/-- Of two fills of one side, the one with the larger turnover is charged no
less in total. -/
theorem totals_monotone {rate : ChargeRate} (hrow : ValidRow rate) {fill fill' : FillForCharges}
    (hfill : DecimalFill fill) (hfill' : DecimalFill fill') (hside : fill.side = fill'.side)
    (hle : turnover fill ≤ turnover fill') :
    ∃ lines lines' total total', computeWith rate fill = .ok lines ∧ computeWith rate fill' = .ok lines' ∧
      totalFor lines = .ok total ∧ totalFor lines' = .ok total' ∧ total.value ≤ total'.value := by
  obtain ⟨amounts, hamounts, hlines⟩ := computeWith_bill hrow hfill
  obtain ⟨amounts', hamounts', hlines'⟩ := computeWith_bill hrow hfill'
  obtain ⟨total, htotal, hvalue⟩ := @totalFor_bill fill.tradeId amounts billTypes
  obtain ⟨total', htotal', hvalue'⟩ := @totalFor_bill fill'.tradeId amounts' billTypes
  refine ⟨_, _, total, total', hlines, hlines', htotal, htotal', ?_⟩
  rw [hvalue, hvalue']
  refine billTotal_mono (fun type => ?_) billTypes le_rfl
  rw [hamounts, hamounts']
  exact chargeOn_mono hrow hside hle type

/-- Two purchases of options at the row of the table. -/
theorem totals_monotone_options : ∃ lines lines' total total',
    computeWith optionRate (optionFill "1000") = .ok lines ∧
    computeWith optionRate (optionFill "1500") = .ok lines' ∧
    totalFor lines = .ok total ∧ totalFor lines' = .ok total' ∧ total.value ≤ total'.value :=
  totals_monotone (validRow_table _ (List.get_mem _ _)) (by decide +kernel) (by decide +kernel) rfl
    (by decide +kernel)

end Monotone

section Paise

/-- The tax of the bill is the tax on its lines exactly when no half paisa lies
between the tax on the charges and the tax on the lines. -/
theorem gst_reconciles_iff {rate : ChargeRate} (hrow : ValidRow rate) {fill : FillForCharges}
    (hfill : DecimalFill fill) : ∃ lines, computeWith rate fill = .ok lines ∧
      (lineAmount lines .gst = roundTo 2 (denoted rate.gstRate * (lineAmount lines .brokerage +
        lineAmount lines .exchangeFee + lineAmount lines .sebiFee)) ↔ ¬ HalfPaisaBetween rate fill) := by
  obtain ⟨amounts, hamounts, hlines⟩ := computeWith_bill hrow hfill
  have hemitted : ∀ type ∈ billTypes, lineAmount (bill fill.tradeId amounts billTypes) type =
      roundTo 2 (chargeOn rate fill type) := fun type htype => by rw [lineAmount_bill htype, hamounts]
  refine ⟨_, hlines, ?_⟩
  rw [hemitted .gst (by decide), hemitted .brokerage (by decide), hemitted .exchangeFee (by decide),
    hemitted .sebiFee (by decide), roundTo_eq_iff, HalfPaisaBetween, not_exists]
  exact forall_congr' fun n => not_not.symm

/-- Half a paisa lies between on a purchase of options for 1500. -/
theorem gst_reconciles_iff_options : ∃ lines, computeWith optionRate (optionFill "1500") = .ok lines ∧
    (lineAmount lines .gst = roundTo 2 (denoted optionRate.gstRate * (lineAmount lines .brokerage +
      lineAmount lines .exchangeFee + lineAmount lines .sebiFee)) ↔
        ¬ HalfPaisaBetween optionRate (optionFill "1500")) :=
  gst_reconciles_iff (validRow_table _ (List.get_mem _ _)) (by decide +kernel)

/-- On that purchase the emitted tax is 3.69, and 3.70 is the tax on the lines. -/
theorem gst_unreconciled : ∃ lines, computeForFill (optionFill "1500") = .ok lines ∧
    lineAmount lines .gst = 3.69 ∧
    roundTo 2 (denoted optionRate.gstRate * (lineAmount lines .brokerage +
      lineAmount lines .exchangeFee + lineAmount lines .sebiFee)) = 3.7 := by
  refine ⟨[⟨"T1", .brokerage, "20", "Brokerage"⟩,
    ⟨"T1", .exchangeFee, "0.53", "Exchange transaction charge"⟩, ⟨"T1", .sebiFee, "0", "SEBI turnover fee"⟩,
    ⟨"T1", .stampDuty, "0.04", "Stamp duty"⟩,
    ⟨"T1", .gst, "3.69", "GST on (brokerage + exchange + SEBI)"⟩], by decide +kernel, by decide +kernel, ?_⟩
  decide +kernel

/-- A bill has one line of a type at most, and the brokerage is within its
bounds, rounded to paise. All lines are positive exactly when no charge is
there but at most half a paisa. -/
theorem lines_real_iff {rate : ChargeRate} (hrow : ValidRow rate) {fill : FillForCharges}
    (hfill : DecimalFill fill) : ∃ lines, computeWith rate fill = .ok lines ∧
      (lines.map (·.type)).Nodup ∧
      (∀ l ∈ lines, l.type = .brokerage → roundTo 2 (denoted rate.brokerageMin) ≤ denoted l.amount ∧
        (0 < denoted rate.brokerageMax → denoted l.amount ≤ roundTo 2 (denoted rate.brokerageMax))) ∧
      ((∀ l ∈ lines, 0 < denoted l.amount) ↔
        ∀ type ∈ billTypes, chargeOn rate fill type = 0 ∨ 1 / 200 < chargeOn rate fill type) := by
  obtain ⟨amounts, hamounts, hlines⟩ := computeWith_bill hrow hfill
  refine ⟨_, hlines, (bill_types _ _ _).nodup (by decide), ?_, ?_⟩
  · intro l hl htype
    obtain ⟨type, -, -, rfl⟩ := mem_bill.mp hl
    obtain rfl : type = .brokerage := htype
    have hbounds := clamped_bounds hrow.bounds
      (share (significant 40 (turnover fill)) (tariff rate fill.side).brokerage)
    have hcharge : chargeOn rate fill .brokerage = clamped (denoted rate.brokerageMin)
        (denoted rate.brokerageMax) (share (significant 40 (turnover fill)) (tariff rate fill.side).brokerage) := by
      simp only [chargeOn, Tariff.charge, Tariff.brokerageOn, tariff]
    rw [line_denoted, hamounts, hcharge]
    exact ⟨roundTo_mono 2 hbounds.1, fun hceiling => roundTo_mono 2 (hbounds.2 hceiling)⟩
  · have hpositive : ∀ x : ℚ, 0 < roundTo 2 x ↔ 1 / 200 < x := by
      intro x
      rw [roundTo_pos_iff]
      norm_num
    constructor
    · intro hall type htype
      by_cases hzero : (amounts type).value = 0
      · exact Or.inl ((hamounts type).symm.trans hzero)
      · have hline := hall _ (mem_bill.mpr ⟨type, htype, hzero, rfl⟩)
        rw [line_denoted, hpositive, hamounts] at hline
        exact Or.inr hline
    · intro hall l hl
      obtain ⟨type, htype, hne, rfl⟩ := mem_bill.mp hl
      rw [hamounts] at hne
      rw [line_denoted, hpositive, hamounts]
      exact (hall type htype).resolve_left hne

/-- The lines of a purchase of options for 6000 are positive. -/
theorem lines_real_iff_options : ∃ lines, computeWith optionRate (optionFill "6000") = .ok lines ∧
    (lines.map (·.type)).Nodup ∧
    (∀ l ∈ lines, l.type = .brokerage → roundTo 2 (denoted optionRate.brokerageMin) ≤ denoted l.amount ∧
      (0 < denoted optionRate.brokerageMax → denoted l.amount ≤ roundTo 2 (denoted optionRate.brokerageMax))) ∧
    ((∀ l ∈ lines, 0 < denoted l.amount) ↔ ∀ type ∈ billTypes,
      chargeOn optionRate (optionFill "6000") type = 0 ∨ 1 / 200 < chargeOn optionRate (optionFill "6000") type) :=
  lines_real_iff (validRow_table _ (List.get_mem _ _)) (by decide +kernel)

/-- A purchase of options for 1500 has a line of nothing. -/
theorem zero_line_emitted : ∃ lines, computeForFill (optionFill "1500") = .ok lines ∧
    ⟨"T1", .sebiFee, "0", "SEBI turnover fee"⟩ ∈ lines ∧ ¬ 0 < denoted "0" := by
  refine ⟨[⟨"T1", .brokerage, "20", "Brokerage"⟩,
    ⟨"T1", .exchangeFee, "0.53", "Exchange transaction charge"⟩, ⟨"T1", .sebiFee, "0", "SEBI turnover fee"⟩,
    ⟨"T1", .stampDuty, "0.04", "Stamp duty"⟩,
    ⟨"T1", .gst, "3.69", "GST on (brokerage + exchange + SEBI)"⟩], by decide +kernel, by decide, by decide +kernel⟩

end Paise

end LpPlatform.ChargeBills
