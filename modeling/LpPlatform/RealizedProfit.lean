import LpPlatform.CurrencyCaps
import LpPlatform.PortalReads

/-!
# The profit that close legs realize

The dashboard pairs every close leg with the open leg under the client id in
front of its suffix, and counts the quantity of the open leg for each of them.
On exact decimals its sum is the profit on the closed quantities exactly when
the price moves, weighted by the quantity that each close leg leaves open, add
up to zero. It is right for every selection of the close legs exactly when each
of them closes its position as a whole or without a move.
-/

namespace LpPlatform.RealizedProfit

open CurrencyCaps JsValues PortalReads RowStore Tables TradeChain TradesList

/-- The trades of a broker as the dashboard reads them, under a rounding. -/
def legsWith (round : ℚ → ℚ) (brokerId : String) (d : Store) : List Leg :=
  (tradesOf brokerId d.trades).map fun t =>
    ⟨(orderOf d t).map (·.clientOrderId), t.side, numberWith round t.price.text,
      numberWith round t.quantity.text⟩

/-- One leg of the sum, under a rounding. -/
def addLeg (round : ℚ → ℚ) (legs : List Leg) (rawPnl : ℚ) (l : Leg) : ℚ :=
  match l.coid.filter isCloseId with
  | none => rawPnl
  | some coid =>
    match openLeg legs (String.ofList (coid.toList.dropLast.dropLast)) with
    | none => rawPnl
    | some opened =>
      let move := round (round (l.price - opened.price) * opened.qty)
      round (rawPnl + if opened.side = .buy then move else -move)

/-- The profit that the close legs realize, added up under a rounding. -/
def realizedWith (round : ℚ → ℚ) (legs : List Leg) : ℚ := legs.foldl (addLeg round legs) 0

/-- With the rounding of doubles it is the sum of the dashboard. -/
theorem realizedWith_toDouble (legs : List Leg) : realizedWith toDouble legs = realized legs := rfl

/-- With the rounding of doubles the legs are those of the dashboard. -/
theorem legsWith_toDouble (brokerId : String) (d : Store) :
    legsWith toDouble brokerId d = legsOf brokerId d := rfl

/-- The client id of an open leg. -/
def openId (l : Leg) : Option String := l.coid.filter fun coid => coid ≠ "" ∧ ¬ isCloseId coid

/-- A leg closes another one: its client id is that of the open leg with the suffix. -/
def Closes (l opened : Leg) : Prop := ∃ coid, openId opened = some coid ∧ l.coid = some (coid ++ "-C")

instance (l opened : Leg) : Decidable (Closes l opened) :=
  match h : openId opened with
  | none => isFalse (by simp [Closes, h])
  | some coid => decidable_of_iff (l.coid = some (coid ++ "-C")) (by simp [Closes, h])

/-- Every client id of an open leg is of one open leg. -/
def OneOpen (legs : List Leg) : Prop := (legs.filterMap openId).Nodup

instance (legs : List Leg) : Decidable (OneOpen legs) :=
  inferInstanceAs (Decidable (legs.filterMap openId).Nodup)

/-- The close legs with the legs they close. -/
def matched (legs : List Leg) : List (Leg × Leg) :=
  legs.flatMap fun l => (legs.filter fun opened => Closes l opened).map fun opened => (l, opened)

/-- The move of the price in the direction of the position. -/
def gain (l opened : Leg) : ℚ := (if opened.side = .buy then 1 else -1) * (l.price - opened.price)

/-- The profit on the closed quantities. -/
def closedProfit (legs : List Leg) : ℚ := ((matched legs).map fun p => gain p.1 p.2 * p.1.qty).sum

/-- What the close legs leave open, times their moves. -/
def leftOpen (legs : List Leg) : ℚ :=
  ((matched legs).map fun p => gain p.1 p.2 * (p.2.qty - p.1.qty)).sum

section Suffixes

/-- A client id is of a close leg if it ends with the suffix. -/
theorem isCloseId_append (coid : String) : isCloseId (coid ++ "-C") = true := by
  rw [isCloseId, List.isSuffixOf_iff_suffix, String.toList_append]
  exact List.suffix_append coid.toList _

/-- Two characters less is the client id in front of the suffix. -/
theorem drop_suffix (coid : String) :
    String.ofList ((coid ++ "-C").toList.dropLast.dropLast) = coid := by
  have hlist : (coid ++ "-C").toList = coid.toList ++ ['-', 'C'] := String.toList_append
  rw [hlist]
  simp

theorem split_suffix {coid : String} (h : isCloseId coid = true) :
    String.ofList (coid.toList.dropLast.dropLast) ++ "-C" = coid := by
  rw [isCloseId, List.isSuffixOf_iff_suffix] at h
  obtain ⟨front, hfront⟩ := h
  have hcoid : coid = String.ofList front ++ "-C" := by
    rw [← String.toList_inj, String.toList_append, String.toList_ofList, ← hfront]
    rfl
  rw [hcoid, drop_suffix]

end Suffixes

section Matching

variable {legs : List Leg}

/-- The last open leg under a client id is the only one. -/
theorem openLeg_unique (h : OneOpen legs) (coid : String) :
    legs.filter (fun l => openId l = some coid) = (openLeg legs coid).toList := by
  have hsame : legs.filter (fun l => l.coid = some coid ∧ coid ≠ "" ∧ ¬ isCloseId coid) =
      legs.filter fun l => openId l = some coid := by
    refine List.filter_congr fun l _ => ?_
    simp only [openId, Option.filter_eq_some_iff, decide_eq_true_eq]
  have hcount : (legs.filter fun l => openId l = some coid).length ≤ 1 := by
    have hle := List.nodup_iff_count_le_one.mp h coid
    rw [List.count_filterMap, List.countP_eq_length_filter] at hle
    exact (congrArg List.length (List.filter_congr fun l _ => (beq_eq_decide ..).symm)).trans_le hle
  rw [openLeg, hsame]
  match hlist : legs.filter fun l => openId l = some coid, hcount with
  | [], _ => rfl
  | [l], _ => rfl

/-- The legs that a close leg closes. -/
theorem closes_iff {l opened : Leg} : Closes l opened ↔
    ∃ coid, l.coid = some coid ∧ isCloseId coid = true ∧
      openId opened = some (String.ofList (coid.toList.dropLast.dropLast)) := by
  constructor
  · rintro ⟨coid, hopen, hclose⟩
    exact ⟨coid ++ "-C", hclose, isCloseId_append coid, by rw [drop_suffix]; exact hopen⟩
  · rintro ⟨coid, hclose, hsuffix, hopen⟩
    exact ⟨_, hopen, by rw [split_suffix hsuffix]; exact hclose⟩

/-- What a leg adds to the sum of the dashboard. -/
def share (legs : List Leg) (l : Leg) : ℚ :=
  ((legs.filter fun opened => Closes l opened).map fun opened => gain l opened * opened.qty).sum

/-- Without rounding a leg adds its share. -/
theorem addLeg_id (h : OneOpen legs) (rawPnl : ℚ) (l : Leg) :
    addLeg id legs rawPnl l = rawPnl + share legs l := by
  rw [addLeg]
  cases hcoid : l.coid.filter isCloseId with
  | none =>
    have hnone : legs.filter (fun opened => Closes l opened) = [] := by
      refine List.filter_eq_nil_iff.mpr fun opened _ hcloses => ?_
      obtain ⟨coid, hclose, hsuffix, _⟩ := closes_iff.mp (of_decide_eq_true hcloses)
      simp [hclose, hsuffix] at hcoid
    simp [share, hnone]
  | some coid =>
    obtain ⟨hclose, hsuffix⟩ := Option.filter_eq_some_iff.mp hcoid
    have hlegs : legs.filter (fun opened => Closes l opened) =
        (openLeg legs (String.ofList (coid.toList.dropLast.dropLast))).toList := by
      rw [← openLeg_unique h]
      refine List.filter_congr fun opened _ => decide_eq_decide.mpr ?_
      rw [closes_iff]
      simp [hclose, hsuffix]
    rw [share, hlegs]
    cases hopen : openLeg legs (String.ofList (coid.toList.dropLast.dropLast)) with
    | none => simp [hopen]
    | some opened =>
      by_cases hside : opened.side = .buy
      · simp [hopen, gain, hside]
      · simp only [hopen, hside, if_false, gain, Option.toList_some, List.map_singleton, List.sum_singleton,
          id]
        ring

/-- The sum of the dashboard, without rounding, counts the open quantity for
every close leg. -/
theorem realizedWith_id (h : OneOpen legs) : realizedWith id legs = (legs.map (share legs)).sum := by
  have hfold : ∀ (rest : List Leg) (rawPnl : ℚ),
      rest.foldl (addLeg id legs) rawPnl = rawPnl + (rest.map (share legs)).sum := by
    intro rest
    induction rest with
    | nil => simp
    | cons l rest ih =>
      intro rawPnl
      rw [List.foldl_cons, ih, addLeg_id h, List.map_cons, List.sum_cons, add_assoc]
  rw [realizedWith, hfold, zero_add]

/-- A sum over the matched legs, leg by leg. -/
theorem sum_matched (f : Leg → Leg → ℚ) : ((matched legs).map fun p => f p.1 p.2).sum =
    (legs.map fun l => ((legs.filter fun opened => Closes l opened).map (f l)).sum).sum := by
  rw [matched, List.map_flatMap, List.flatMap_def, List.sum_flatten, List.map_map]
  simp [Function.comp_def]

/-- Both sums differ by what is left open. -/
theorem realized_sub_closed (h : OneOpen legs) :
    realizedWith id legs - closedProfit legs = leftOpen legs := by
  have hrealized : realizedWith id legs = ((matched legs).map fun p => gain p.1 p.2 * p.2.qty).sum := by
    rw [realizedWith_id h, sum_matched fun l opened => gain l opened * opened.qty]
    rfl
  rw [hrealized, closedProfit, leftOpen, sub_eq_iff_eq_add, ← List.sum_map_add]
  refine congrArg List.sum (List.map_congr_left fun p _ => ?_)
  ring

/-- A selection of the legs that leaves out close legs only. -/
def KeepsOpens (legs : List Leg) (keep : Leg → Bool) : Prop :=
  ∀ l ∈ legs, (openId l).isSome → keep l = true

theorem oneOpen_filter (h : OneOpen legs) (keep : Leg → Bool) : OneOpen (legs.filter keep) :=
  h.sublist (List.filter_sublist.filterMap openId)

theorem mem_matched {l opened : Leg} :
    (l, opened) ∈ matched legs ↔ l ∈ legs ∧ opened ∈ legs ∧ Closes l opened := by
  simp [matched]

/-- A leg that closes another one is not open itself. -/
theorem openId_closes {l opened : Leg} (h : Closes l opened) : openId l = none := by
  obtain ⟨coid, -, hclose⟩ := h
  rw [openId, hclose, Option.filter_eq_none_iff]
  intro coid' hcoid
  obtain rfl := Option.some.inj hcoid
  simp [isCloseId_append]

/-- A leg closes one open leg. -/
theorem closes_unique (h : OneOpen legs) {l o o' : Leg} (ho : o ∈ legs) (ho' : o' ∈ legs)
    (hcloses : Closes l o) (hcloses' : Closes l o') : o' = o := by
  obtain ⟨coid, hl, -, hopen⟩ := closes_iff.mp hcloses
  obtain ⟨coid', hl', -, hopen'⟩ := closes_iff.mp hcloses'
  obtain rfl := Option.some.inj (hl.symm.trans hl')
  have hmem : o ∈ legs.filter fun l => openId l = some (String.ofList (coid.toList.dropLast.dropLast)) :=
    List.mem_filter.mpr ⟨ho, decide_eq_true hopen⟩
  have hmem' : o' ∈ legs.filter fun l => openId l = some (String.ofList (coid.toList.dropLast.dropLast)) :=
    List.mem_filter.mpr ⟨ho', decide_eq_true hopen'⟩
  rw [openLeg_unique h, Option.mem_toList] at hmem hmem'
  exact Option.some.inj (hmem'.symm.trans hmem)

/-- One matched close leg decides the sum of a selection without the others. -/
theorem leftOpen_single (h : OneOpen legs) {p : Leg × Leg} (hp : p ∈ matched legs)
    (hall : ∀ keep, KeepsOpens legs keep → leftOpen (legs.filter keep) = 0) :
    gain p.1 p.2 * (p.2.qty - p.1.qty) = 0 := by
  classical
  obtain ⟨l, opened⟩ := p
  obtain ⟨hl, hopened, hcloses⟩ := mem_matched.mp hp
  have hkeeps : KeepsOpens legs fun l' => (openId l').isSome || decide (l' = l) := by
    intro l' _ hopen
    simp [hopen]
  have hsum := hall _ hkeeps
  have hsame : ∀ x ∈ (matched (legs.filter fun l' => (openId l').isSome || decide (l' = l))).map
      (fun p => gain p.1 p.2 * (p.2.qty - p.1.qty)), x = gain l opened * (opened.qty - l.qty) := by
    intro x hx
    obtain ⟨⟨a, b⟩, hab, rfl⟩ := List.mem_map.mp hx
    obtain ⟨ha, hb, hclosesAB⟩ := mem_matched.mp hab
    obtain rfl : a = l := by
      have hkept := (List.mem_filter.mp ha).2
      simpa [openId_closes hclosesAB] using hkept
    obtain rfl : b = opened := closes_unique h hopened (List.mem_filter.mp hb).1 hcloses hclosesAB
    rfl
  rw [leftOpen, List.sum_eq_card_nsmul _ _ hsame] at hsum
  have hmem : (l, opened) ∈ matched (legs.filter fun l' => (openId l').isSome || decide (l' = l)) := by
    refine mem_matched.mpr ⟨List.mem_filter.mpr ⟨hl, by simp⟩, List.mem_filter.mpr ⟨hopened, ?_⟩, hcloses⟩
    obtain ⟨coid, hopen, -⟩ := hcloses
    simp [hopen]
  have hlength : 0 < ((matched (legs.filter fun l' => (openId l').isSome || decide (l' = l))).map
      fun p => gain p.1 p.2 * (p.2.qty - p.1.qty)).length := by
    rw [List.length_map]
    exact List.length_pos_of_mem hmem
  rw [nsmul_eq_mul, mul_eq_zero, Nat.cast_eq_zero] at hsum
  exact hsum.resolve_left hlength.ne'

/-- On exact decimals the dashboard counts the closed quantities exactly when
what the close legs leave open weighs out, and for every selection of the
close legs exactly when each of them closes the whole quantity of its open leg
or at its price. -/
theorem rawPnl_closed_iff (h : OneOpen legs) :
    (realizedWith id legs = closedProfit legs ↔ leftOpen legs = 0) ∧
    ((∀ keep, KeepsOpens legs keep →
        realizedWith id (legs.filter keep) = closedProfit (legs.filter keep)) ↔
      ∀ p ∈ matched legs, p.1.qty = p.2.qty ∨ p.1.price = p.2.price) := by
  have hiff : ∀ {legs : List Leg}, OneOpen legs →
      (realizedWith id legs = closedProfit legs ↔ leftOpen legs = 0) := fun h => by
    rw [← realized_sub_closed h, sub_eq_zero]
  have hpair : ∀ p : Leg × Leg, gain p.1 p.2 * (p.2.qty - p.1.qty) = 0 ↔
      p.1.qty = p.2.qty ∨ p.1.price = p.2.price := by
    intro p
    have hsign : (if p.2.side = .buy then 1 else -1 : ℚ) ≠ 0 := by split <;> norm_num
    rw [gain, mul_eq_zero, mul_eq_zero, or_iff_right hsign, sub_eq_zero, sub_eq_zero, or_comm,
      eq_comm (a := p.2.qty)]
  refine ⟨hiff h, fun hall p hp => ?_, fun hwhole keep hkeep => ?_⟩
  · refine (hpair p).mp (leftOpen_single h hp fun keep hkeep => ?_)
    exact (hiff (oneOpen_filter h keep)).mp (hall keep hkeep)
  · refine (hiff (oneOpen_filter h keep)).mpr (List.sum_eq_zero fun x hx => ?_)
    obtain ⟨⟨l, opened⟩, hmem, rfl⟩ := List.mem_map.mp hx
    obtain ⟨hl, hopened, hcloses⟩ := mem_matched.mp hmem
    exact (hpair _).mpr (hwhole _ (mem_matched.mpr
      ⟨(List.mem_filter.mp hl).1, (List.mem_filter.mp hopened).1, hcloses⟩))

end Matching

/-- Two lots are bought, and closed in two parts. -/
def twoParts : List Leg :=
  [⟨some "A", .buy, 100, 2⟩, ⟨some "A-C", .sell, 110, 1⟩, ⟨some "A-C", .sell, 120, 1⟩]

/-- The dashboard reports twice the profit. -/
theorem realized_twice : OneOpen twoParts ∧ realized twoParts = 60 ∧ realizedWith id twoParts = 60 ∧
    closedProfit twoParts = 30 := by
  decide +kernel

/-- The whole position is closed at once. -/
def onePart : List Leg := [⟨some "A-C", .sell, 110, 2⟩, ⟨some "A", .buy, 100, 2⟩]

theorem realized_whole : realizedWith id onePart = closedProfit onePart ∧ closedProfit onePart = 20 :=
  ⟨(rawPnl_closed_iff (by decide +kernel)).1.mpr (by decide +kernel), by decide +kernel⟩

end LpPlatform.RealizedProfit
