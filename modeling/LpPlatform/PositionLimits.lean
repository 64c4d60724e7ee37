import LpPlatform.ChargeBills
import LpPlatform.RiskService

/-!
# Position limits over runs

Orders and new limits come in any order. An order is checked against the
position and the limit in force, and an accepted one moves the position. The
position that the check compares is rounded to forty digits, so after every
accepted order the position is within the limit up to that rounding. An order
that does not increase the position is still rejected when it stays beyond a
limit that was lowered, so a broker is not trapped exactly when its position
is within the limit.
-/

namespace LpPlatform.PositionLimits

open Amounts ChargeBills DecimalRounding JsValues MoneyArithmetic MoneyText RiskService StepRuns Tables

/-- A broker's position in a symbol, and the limit in force as text. -/
structure Desk where
  position : ℚ
  limit : String

/-- What happens to a desk. -/
inductive Move where
  /-- An order is checked. -/
  | order (input : PreTradeCheckInput)
  /-- A new limit is set. -/
  | limit (text : String)

/-- A position after an order. -/
def after (position : ℚ) (input : PreTradeCheckInput) : ℚ :=
  if input.side = .buy then position + denoted input.quantity else position - denoted input.quantity

/-- The check passes. -/
def accepts (input : PreTradeCheckInput) : Bool :=
  match check input with
  | .ok _ => true
  | .error _ => false

/-- An order is checked on the position and the limit of the desk, and moves the
position when it is accepted. -/
def Desk.move (desk : Desk) : Move → Option Desk
  | .order input =>
    if denoted input.currentPosition = desk.position ∧ input.positionLimit = desk.limit then
      some (if accepts input then { desk with position := after desk.position input } else desk)
    else none
  | .limit text => some { desk with limit := text }

/-- The number has at most forty significant digits. -/
def FortyDigits (x : ℚ) : Prop := significant 40 x = x

/-- The check has rejected for the position limit. -/
def rejectsLimit : Except Failure Unit → Bool
  | .error (.domain code _ _) => code = "RISK_POSITION_LIMIT_EXCEEDED"
  | _ => false

/-- An order of positive quantity that does not increase the absolute position.
A price and a balance are decimals, and a purchase is worth no more than the
balance. -/
structure Reducing (input : PreTradeCheckInput) : Prop where
  quantity : IsDecimal input.quantity
  positive : 0 < denoted input.quantity
  margin : ∀ price ∈ input.price, IsDecimal price ∧ IsDecimal input.walletBalance ∧
    (input.side = .buy → denoted input.quantity * denoted price ≤ denoted input.walletBalance)
  reduces : |after (denoted input.currentPosition) input| ≤ |denoted input.currentPosition|

/-- At a position and a limit no reducing order is rejected for the limit. -/
def NeverTrapped (currentPosition positionLimit : String) : Prop :=
  ∀ input, input.currentPosition = currentPosition → input.positionLimit = positionLimit →
    Reducing input → rejectsLimit (check input) = false

section Checking

/-- A position after an order, as the check computes it. -/
theorem projected_value {input : PreTradeCheckInput} {qty current : Money}
    (hqty : Money.new input.quantity = .ok qty) (hcurrent : Money.new input.currentPosition = .ok current) :
    (if input.side = .buy then current.add qty else current.sub qty).value =
      significant 40 (after (denoted input.currentPosition) input) := by
  unfold after
  split
  · rw [add_significant, new_denoted hqty, new_denoted hcurrent]
  · rw [sub_significant, new_denoted hqty, new_denoted hcurrent]

/-- The check of a position compares it, to forty digits, with the limit. -/
theorem checkPosition_limit {input : PreTradeCheckInput} {qty : Money} (hqty : Money.new input.quantity = .ok qty)
    (hcurrent : IsDecimal input.currentPosition) (hlimit : IsDecimal input.positionLimit) :
    (checkPosition input qty = .ok () ↔
      significant 40 |after (denoted input.currentPosition) input| ≤ denoted input.positionLimit) ∧
    (rejectsLimit (checkPosition input qty) = true ↔
      denoted input.positionLimit < significant 40 |after (denoted input.currentPosition) input|) := by
  obtain ⟨current, hcurrent⟩ := hcurrent
  obtain ⟨limit, hlimit⟩ := hlimit
  have hvalue := projected_value hqty hcurrent
  generalize hprojected : (if input.side = .buy then current.add qty else current.sub qty) = projected at hvalue
  have hgt : projected.abs.gt limit = true ↔
      denoted input.positionLimit < significant 40 |after (denoted input.currentPosition) input| := by
    rw [Money.gt, decide_eq_true_iff, value_abs, hvalue, abs_significant (by decide), new_denoted hlimit]
  have hcheck : checkPosition input qty = if projected.abs.gt limit then
      .error (.domain "RISK_POSITION_LIMIT_EXCEEDED"
        s!"Position limit exceeded: projected {projected.toString} > limit {limit.toString}" 422)
      else .ok () := by
    rw [checkPosition, hlimit, hcurrent, ← hprojected]
    rfl
  rw [hcheck, ← hgt, ← not_lt, ← hgt]
  by_cases hover : projected.abs.gt limit = true
  · rw [if_pos hover]
    exact ⟨iff_of_false (by simp) (not_not.mpr hover), iff_of_true rfl hover⟩
  · rw [if_neg hover]
    exact ⟨iff_of_true rfl hover, iff_of_false (by simp [rejectsLimit]) hover⟩

theorem new_limit {text : String} {e : Failure} (h : Money.new text = .error e) : rejectsLimit (.error e) = false := by
  obtain ⟨message, rfl⟩ := new_error h
  rfl

/-- A check of a margin never rejects for the position limit. -/
theorem checkMargin_limit (input : PreTradeCheckInput) (qty : Money) (price : String) :
    rejectsLimit (checkMargin input qty price) = false := by
  refine bind_rejects (fun e => new_limit) fun factor _ => bind_rejects (fun e => new_limit) fun balance _ => ?_
  split <;> rfl

/-- What comes before the check of the position. -/
def beforePosition (input : PreTradeCheckInput) (qty : Money) : Except Failure Unit :=
  if qty.isZero || qty.isNegative then
    .error (.domain "ORDER_INVALID_QUANTITY" "Quantity must be > 0" 400)
  else match input.price with
    | some price => checkMargin input qty price
    | none => .ok ()

/-- The check of the position comes last. -/
theorem check_eq {input : PreTradeCheckInput} {qty : Money} (hqty : Money.new input.quantity = .ok qty) :
    check input = beforePosition input qty >>= fun _ => checkPosition input qty := by
  have hbind : ∀ {α β : Type} (a : α) (f : α → Except Failure β), (Except.ok a >>= f) = f a :=
    fun _ _ => rfl
  rw [check, hqty, hbind, beforePosition]
  by_cases hinvalid : (qty.isZero || qty.isNegative) = true
  · rw [if_pos hinvalid, if_pos hinvalid]
    rfl
  · rw [if_neg hinvalid, if_neg hinvalid]
    cases input.price <;> rfl

theorem beforePosition_limit (input : PreTradeCheckInput) (qty : Money) :
    rejectsLimit (beforePosition input qty) = false := by
  unfold beforePosition
  split
  · rfl
  · split
    · exact checkMargin_limit input qty _
    · rfl

/-- An accepted order passes the check of its position. -/
theorem accepts_position {input : PreTradeCheckInput} (h : accepts input = true) :
    ∃ qty, Money.new input.quantity = .ok qty ∧ IsDecimal input.currentPosition ∧
      IsDecimal input.positionLimit ∧ checkPosition input qty = .ok () := by
  have hcheck : check input = .ok () := by
    unfold accepts at h
    split at h
    · assumption
    · simp at h
  obtain ⟨qty, hqty, -⟩ := Charges.bind_ok hcheck
  rw [check_eq hqty] at hcheck
  obtain ⟨-, -, hposition⟩ := Charges.bind_ok hcheck
  obtain ⟨limit, hlimit, hrest⟩ := Charges.bind_ok hposition
  obtain ⟨current, hcurrent, -⟩ := Charges.bind_ok hrest
  exact ⟨qty, hqty, ⟨current, hcurrent⟩, ⟨limit, hlimit⟩, hposition⟩

/-- An accepted order leaves the position, to forty digits, within the limit. -/
theorem accepts_within {input : PreTradeCheckInput} (h : accepts input = true) :
    significant 40 |after (denoted input.currentPosition) input| ≤ denoted input.positionLimit := by
  obtain ⟨qty, hqty, hcurrent, hlimit, hposition⟩ := accepts_position h
  exact (checkPosition_limit hqty hcurrent hlimit).1.mp hposition

/-- What is rejected for the limit is beyond it, to forty digits. -/
theorem rejected_beyond {input : PreTradeCheckInput} (hcurrent : IsDecimal input.currentPosition)
    (hlimit : IsDecimal input.positionLimit) (h : rejectsLimit (check input) = true) :
    denoted input.positionLimit < significant 40 |after (denoted input.currentPosition) input| := by
  by_contra hwithin
  refine absurd h (Bool.eq_false_iff.mp ?_)
  cases hqty : Money.new input.quantity with
  | error e =>
    have hcheck : check input = .error e := by
      rw [check, hqty]
      rfl
    rw [hcheck]
    exact new_limit hqty
  | ok qty =>
    rw [check_eq hqty]
    refine bind_rejects (fun e he => ?_) fun _ _ => ?_
    · rw [← he]
      exact beforePosition_limit input qty
    · rw [Bool.eq_false_iff, Ne, (checkPosition_limit hqty hcurrent hlimit).2]
      exact hwithin

/-- An order at the market that is beyond the limit is rejected for it. -/
theorem market_rejected {input : PreTradeCheckInput} (hquantity : IsDecimal input.quantity)
    (hpositive : 0 < denoted input.quantity) (hprice : input.price = none)
    (hcurrent : IsDecimal input.currentPosition) (hlimit : IsDecimal input.positionLimit)
    (h : denoted input.positionLimit < significant 40 |after (denoted input.currentPosition) input|) :
    rejectsLimit (check input) = true := by
  obtain ⟨qty, hqty⟩ := hquantity
  have hvalid : (qty.isZero || qty.isNegative) = false := by
    rw [← new_denoted hqty, ← isPositive_iff, Money.isPositive] at hpositive
    rw [Money.isNegative]
    cases hz : qty.isZero <;> cases hn : qty.negative <;> simp_all
  have hcheck : check input = checkPosition input qty := by
    rw [check_eq hqty, beforePosition, if_neg (by simp [hvalid]), hprice]
    rfl
  rw [hcheck, (checkPosition_limit hqty hcurrent hlimit).2]
  exact h

end Checking

section Trapping

/-- An order to flip a position: its quantity is twice the position. -/
theorem flipping_order {text : String} (hcurrent : IsDecimal text) (hne : denoted text ≠ 0) (limit : String) :
    ∃ input : PreTradeCheckInput, input.currentPosition = text ∧ input.positionLimit = limit ∧
      input.price = none ∧ IsDecimal input.quantity ∧ 0 < denoted input.quantity ∧
      after (denoted text) input = -denoted text := by
  obtain ⟨m, hm⟩ := hcurrent
  have hvalue := new_denoted hm
  let flip : Money := ofLiteral ⟨false, 2 * m.coefficient, m.scale⟩
  have hread := new_toString_parts flip
  have hflip : denoted flip.toString = 2 * |denoted text| := by
    rw [← new_denoted hread, ← hvalue, value_natAbs]
    have hlit : flip.value = 2 * ((m.coefficient : ℚ) / 10 ^ m.scale) := by
      rw [litValue_ofLiteral, litValue]
      push_cast
      simp
      ring
    rw [← hlit]
    exact litValue_isNegative flip
  have hpos : 0 < denoted flip.toString := by
    rw [hflip]
    have habs := abs_pos.mpr hne
    linarith
  refine ⟨⟨"B1", "X", if denoted text < 0 then .buy else .sell, flip.toString, none, "0", limit, text⟩,
    rfl, rfl, rfl, ⟨_, hread⟩, hpos, ?_⟩
  unfold after
  by_cases hneg : denoted text < 0
  · rw [if_pos hneg, if_pos rfl, hflip, abs_of_neg hneg]
    ring
  · rw [if_neg hneg, if_neg (by simp), hflip, abs_of_nonneg (not_lt.mp hneg)]
    ring

/-- No reducing order is rejected for the limit exactly when there is no
position or it is within the limit. -/
theorem neverTrapped_iff {currentPosition positionLimit : String} (hcurrent : IsDecimal currentPosition)
    (hlimit : IsDecimal positionLimit) : NeverTrapped currentPosition positionLimit ↔
      denoted currentPosition = 0 ∨ significant 40 |denoted currentPosition| ≤ denoted positionLimit := by
  constructor
  · intro hnever
    by_contra hnot
    rw [not_or, not_le] at hnot
    obtain ⟨input, rfl, rfl, hprice, hquantity, hpositive, hafter⟩ :=
      flipping_order hcurrent hnot.1 positionLimit
    have hreducing : Reducing input := by
      refine ⟨hquantity, hpositive, by simp [hprice], ?_⟩
      rw [hafter, abs_neg]
    have hrejected := market_rejected hquantity hpositive hprice hcurrent hlimit (by
      rw [hafter, abs_neg]
      exact hnot.2)
    exact absurd (hnever input rfl rfl hreducing) (by simp [hrejected])
  · rintro hwithin input rfl rfl hreducing
    by_contra hrejected
    have hbeyond := rejected_beyond hcurrent hlimit (Bool.not_eq_false _ ▸ hrejected)
    have hreduces := hreducing.reduces
    rcases hwithin with hzero | hle
    · -- without a position every order increases it
      have hpositive := hreducing.positive
      unfold after at hreduces
      rw [hzero] at hreduces
      split at hreduces
      · rw [zero_add, abs_zero, abs_nonpos_iff] at hreduces
        exact hpositive.ne' hreduces
      · rw [zero_sub, abs_neg, abs_zero, abs_nonpos_iff] at hreduces
        exact hpositive.ne' hreduces
    · have hmono := significant_mono (K := ℚ) (by decide : 0 < 40) hreduces
      exact absurd (hmono.trans hle) (not_le.mpr hbeyond)

end Trapping

/-- Over every run of orders and new limits, after every accepted order the
position is within the limit in force, to forty digits, and so exactly when it
has no more digits. At any position and limit no reducing order is rejected for
the limit exactly when there is no position or it is within the limit. -/
theorem position_limits_iff (desk : Desk) (moves : List Move) (currentPosition positionLimit : String) :
    (∀ before input after, Takes Desk.move desk moves before (.order input) after →
      accepts input = true → significant 40 |after.position| ≤ denoted after.limit ∧
        (FortyDigits after.position → |after.position| ≤ denoted after.limit)) ∧
    (IsDecimal currentPosition → IsDecimal positionLimit →
      (NeverTrapped currentPosition positionLimit ↔
        denoted currentPosition = 0 ∨ significant 40 |denoted currentPosition| ≤ denoted positionLimit)) := by
  refine ⟨fun before input after htakes haccepts => ?_, neverTrapped_iff⟩
  have hstep := takes_step htakes
  simp only [Desk.move, haccepts, if_true, Option.ite_none_right_eq_some] at hstep
  obtain ⟨⟨hposition, hlimit⟩, hafter⟩ := hstep
  obtain rfl := Option.some.inj hafter
  have hwithin := accepts_within haccepts
  rw [hposition, hlimit] at hwithin
  refine ⟨hwithin, fun hdigits => ?_⟩
  have habs := abs_significant (K := ℚ) (by decide : 0 < 40) (PositionLimits.after before.position input)
  rw [← habs, hdigits] at hwithin
  exact hwithin

/-- An order at the market for `X`. -/
def marketOrder (side : OrderSide) (quantity positionLimit currentPosition : String) : PreTradeCheckInput :=
  ⟨"B1", "X", side, quantity, none, "0", positionLimit, currentPosition⟩

/-- A position of 60 and a purchase of 40, at a limit of 100. -/
theorem position_limits_sixty :
    significant 40 |after 60 (marketOrder .buy "40" "100" "60")| ≤ denoted "100" ∧
      NeverTrapped "60" "100" := by
  obtain ⟨hruns, htraps⟩ :=
    position_limits_iff ⟨60, "100"⟩ [.order (marketOrder .buy "40" "100" "60")] "60" "100"
  have haccepts : accepts (marketOrder .buy "40" "100" "60") = true := by decide +kernel
  have hdesk : denoted (marketOrder .buy "40" "100" "60").currentPosition = (60 : ℚ) ∧
      (marketOrder .buy "40" "100" "60").positionLimit = "100" := by decide +kernel
  have htakes : Takes Desk.move ⟨60, "100"⟩ [.order (marketOrder .buy "40" "100" "60")] ⟨60, "100"⟩
      (.order (marketOrder .buy "40" "100" "60")) ⟨after 60 (marketOrder .buy "40" "100" "60"), "100"⟩ := by
    refine ⟨[], [], rfl, rfl, ?_⟩
    simp only [Desk.move, if_pos hdesk, haccepts, if_true]
  refine ⟨(hruns _ _ _ htakes haccepts).1, ?_⟩
  exact (htraps ⟨_, rfl⟩ ⟨_, rfl⟩).mpr (.inr (by decide +kernel))

/-- The limit was lowered to 100 under a position of 200: a sale of 50 reduces
the position and is rejected for the limit. -/
theorem reducing_sale_rejected :
    Reducing (marketOrder .sell "50" "100" "200") ∧
    check (marketOrder .sell "50" "100" "200") = .error (.domain "RISK_POSITION_LIMIT_EXCEEDED"
      "Position limit exceeded: projected 150 > limit 100" 422) ∧
    ¬ NeverTrapped "200" "100" := by
  have hreducing : Reducing (marketOrder .sell "50" "100" "200") := by
    refine ⟨⟨_, rfl⟩, by decide +kernel, fun price hprice => ?_, by decide +kernel⟩
    simp [marketOrder] at hprice
  have hcheck : check (marketOrder .sell "50" "100" "200") = .error (.domain
      "RISK_POSITION_LIMIT_EXCEEDED" "Position limit exceeded: projected 150 > limit 100" 422) := by
    decide +kernel
  refine ⟨hreducing, hcheck, fun hnever => ?_⟩
  have hfalse := hnever _ rfl rfl hreducing
  rw [hcheck] at hfalse
  simp [rejectsLimit] at hfalse

end LpPlatform.PositionLimits
