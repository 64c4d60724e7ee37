import LpPlatform.CommissionLedger

/-!
# Close legs and the trades they close

A fill is exempt from the commission when the client order id ends in '-C'.
Nothing looks for the trade that such an order would close. An exemption is
earned when the broker has an earlier trade whose order has the id before the
suffix, and every exemption on record is earned exactly when that trade was
there at the commit of each fill without a commission.
-/

namespace LpPlatform.CloseLegs

open Amounts CommissionLedger HashChain InterferenceLogic JsValues Ledger OrderFills OrderIntake
open OrderWorker RowStore Sessions StatementProgram StepRuns Tables TradeChain

/-- The trades that were committed before a trade. -/
def earlier (d : Store) (t : Trade) : List Trade :=
  d.trades.takeWhile fun x => x.tradeId ≠ t.tradeId

/-- The order closes one of some trades of its broker: its client order id is
that of the trade's order, followed by '-C'. -/
def ClosesOne (d : Store) (o : OrderTerms) (trades : List Trade) : Prop :=
  ∃ x, o.clientOrderId = x ++ "-C" ∧ ∃ t ∈ trades, t.brokerId = o.brokerId ∧
    ∃ opened ∈ orderTerms.rows d, opened.orderId = t.orderId ∧ opened.clientOrderId = x

/-- A trade of positive quantity that carries no commission closes an earlier
one. -/
def ExemptionsEarned (d : Store) : Prop :=
  ∀ t ∈ d.trades, 0 < t.quantity.units → Exempt d t →
    ∀ o ∈ orderTerms.rows d, o.orderId = t.orderId → ClosesOne d o (earlier d t)

/-- When no commission is due on the order of a trade, the order closes a trade
that is already there. -/
def Covered (lot : String) (d : Store) (t : Trade) : Prop :=
  ∀ o ∈ orderTerms.rows d, o.orderId = t.orderId → 0 < o.quantity.units → ¬ Due lot o →
    ClosesOne d o d.trades

/-- Every trade that the event commits is covered by the rows it finds. -/
def FillsCovered (lot : String) (w : OrderWorld) (e : Event OrderCall Input Failure) : Prop :=
  ∀ t ws, w.commit? platform e = some (t, ws) →
    ∀ trade ∈ List.filterMap Write.trade? ws, Covered lot w.db trade

section Rules

variable {H : Sha256} {lot : String} {d d' : Store}

/-- The one order of a trade. -/
theorem order_unique (h : Books lot d) {t : Trade} (ht : t ∈ d.trades) {o : OrderTerms}
    (ho : o ∈ orderTerms.rows d) (hid : o.orderId = t.orderId) :
    Fills o t ∧ ((Due lot o ∧ Charged d t) ∨ (¬ Due lot o ∧ Exempt d t)) := by
  obtain ⟨o', ho', hfills, hstate⟩ := h.booked t ht
  have hsame : o' = o :=
    List.inj_on_of_nodup_map h.orders ho' ho (hfills.orderId.symm.trans hid.symm)
  exact hsame ▸ ⟨hfills, hstate⟩

/-- A trade is exempt when no commission is due on its order. -/
theorem exempt_iff (h : Books lot d) {t : Trade} (ht : t ∈ d.trades) {o : OrderTerms}
    (ho : o ∈ orderTerms.rows d) (hid : o.orderId = t.orderId) : Exempt d t ↔ ¬ Due lot o := by
  rcases (order_unique h ht ho hid).2 with ⟨hdue, hcharged⟩ | ⟨hdue, hexempt⟩
  · exact iff_of_false (fun hexempt => not_charged_exempt hexempt hcharged) (fun hnot => hnot hdue)
  · exact iff_of_true hexempt hdue

/-- Whether exemptions are earned, in terms of the orders alone. -/
theorem earned_iff (h : Books lot d) : ExemptionsEarned d ↔
    ∀ t ∈ d.trades, ∀ o ∈ orderTerms.rows d, o.orderId = t.orderId → 0 < o.quantity.units →
      ¬ Due lot o → ClosesOne d o (earlier d t) := by
  constructor
  · intro hearned t ht o ho hid hpos hdue
    have hquantity : t.quantity = o.quantity := (order_unique h ht ho hid).1.quantity
    exact hearned t ht (hquantity ▸ hpos) ((exempt_iff h ht ho hid).mpr hdue) o ho hid
  · intro hclose t ht hpos hexempt o ho hid
    have hquantity : t.quantity = o.quantity := (order_unique h ht ho hid).1.quantity
    exact hclose t ht o ho hid (hquantity ▸ hpos) ((exempt_iff h ht ho hid).mp hexempt)

/-- New orders are not the orders of trades that are there. -/
theorem order_grown (h : Books lot d) (hunique : UniqueOrders d')
    (hsub : ∀ o ∈ orderTerms.rows d, o ∈ orderTerms.rows d') {t : Trade} (ht : t ∈ d.trades)
    {o : OrderTerms} (hid : o.orderId = t.orderId) :
    o ∈ orderTerms.rows d' ↔ o ∈ orderTerms.rows d := by
  refine ⟨fun ho => ?_, hsub o⟩
  obtain ⟨o', ho', hfills, -⟩ := h.booked t ht
  have hsame : o' = o :=
    List.inj_on_of_nodup_map hunique (hsub o' ho') ho (hfills.orderId.symm.trans hid.symm)
  exact hsame ▸ ho'

theorem closesOne_grown (h : Books lot d) (hunique : UniqueOrders d')
    (hsub : ∀ o ∈ orderTerms.rows d, o ∈ orderTerms.rows d') {trades : List Trade}
    (htrades : ∀ t ∈ trades, t ∈ d.trades) (o : OrderTerms) :
    ClosesOne d' o trades ↔ ClosesOne d o trades := by
  refine exists_congr fun x => and_congr_right fun _ => exists_congr fun t =>
    and_congr_right fun ht => and_congr_right fun _ => exists_congr fun opened => ?_
  constructor
  · rintro ⟨hmem, hid, hx⟩
    exact ⟨(order_grown h hunique hsub (htrades t ht) hid).mp hmem, hid, hx⟩
  · rintro ⟨hmem, hid, hx⟩
    exact ⟨hsub opened hmem, hid, hx⟩

/-- The trades before one that is there stay the same. -/
theorem earlier_old {trade t : Trade} (ht : t ∈ d.trades) (htrades : d'.trades = d.trades ++ [trade]) :
    earlier d' t = earlier d t := by
  have hstop : (d.trades.takeWhile fun x => x.tradeId ≠ t.tradeId).length ≠ d.trades.length := by
    intro hlen
    have hall := List.takeWhile_eq_self_iff.mp
      ((List.takeWhile_prefix _).eq_of_length hlen) t ht
    simp at hall
  rw [earlier, htrades, List.takeWhile_append, if_neg hstop, earlier]

/-- The trades before a new one are all that were there. -/
theorem earlier_new {trade : Trade} (hnew : ∀ t ∈ d.trades, t.tradeId ≠ trade.tradeId)
    (htrades : d'.trades = d.trades ++ [trade]) : earlier d' trade = d.trades := by
  rw [earlier, htrades, List.takeWhile_append_of_pos]
  · simp
  · exact fun t ht => decide_eq_true (hnew t ht)

/-- A commit without a trade leaves the exemptions as they are. -/
theorem earned_quiet (h : Books lot d) (h' : Books lot d') (htrades : d'.trades = d.trades)
    (hsub : ∀ o ∈ orderTerms.rows d, o ∈ orderTerms.rows d') :
    ExemptionsEarned d' ↔ ExemptionsEarned d := by
  rw [earned_iff h, earned_iff h', htrades]
  refine forall_congr' fun t => forall_congr' fun ht => forall_congr' fun o => ?_
  have hearlier : earlier d' t = earlier d t := by rw [earlier, htrades, earlier]
  have hcloses : ClosesOne d' o (earlier d' t) ↔ ClosesOne d o (earlier d t) := by
    rw [hearlier]
    exact closesOne_grown h h'.orders hsub (fun x hx => (List.takeWhile_subset _) hx) o
  rw [hcloses]
  constructor
  · exact fun hall ho hid => hall (hsub o ho) hid
  · exact fun hall ho hid => hall ((order_grown h h'.orders hsub ht hid).mp ho) hid

/-- A fill leaves exemptions earned when they were and the new trade is
covered. -/
theorem earned_fill (h : Books lot d) {o : Order} {trade : Trade} {rest : List Write}
    (hvalid : platform.validAll d (.insertTrade trade :: rest) = true)
    (hfill : FillCommit H lot d o trade rest) :
    ExemptionsEarned (platform.applyAll d (.insertTrade trade :: rest)) ↔
      ExemptionsEarned d ∧ Covered lot d trade := by
  have h' := books_fill h hvalid hfill
  obtain ⟨horders, htrades⟩ := fill_rows hfill
  generalize platform.applyAll d (.insertTrade trade :: rest) = d' at h' horders htrades
  have hnew : ∀ t ∈ d.trades, t.tradeId ≠ trade.tradeId := by
    intro t ht hsame
    have hnodup := h'.trades
    rw [htrades, List.map_append, List.nodup_append] at hnodup
    exact hnodup.2.2 _ (List.mem_map_of_mem ht) _ (by simp) hsame
  have hsub : ∀ o ∈ orderTerms.rows d, o ∈ orderTerms.rows d' := fun o ho => horders ▸ ho
  have hold : ∀ t ∈ d.trades, ∀ o, ClosesOne d' o (earlier d' t) ↔ ClosesOne d o (earlier d t) := by
    intro t ht o
    rw [earlier_old ht htrades]
    exact closesOne_grown h h'.orders hsub (fun x hx => List.takeWhile_subset _ hx) o
  have hlast : ∀ o, ClosesOne d' o (earlier d' trade) ↔ ClosesOne d o d.trades := by
    intro o
    rw [earlier_new hnew htrades]
    exact closesOne_grown h h'.orders hsub (fun x hx => hx) o
  rw [earned_iff h, earned_iff h', htrades, horders]
  constructor
  · intro hall
    refine ⟨fun t ht o ho hid hpos hdue => ?_, fun o ho hid hpos hdue => ?_⟩
    · exact (hold t ht o).mp (hall t (List.mem_append_left _ ht) o ho hid hpos hdue)
    · exact (hlast o).mp (hall trade (List.mem_append_right _ (by simp)) o ho hid hpos hdue)
  · rintro ⟨hall, hcovered⟩ t ht o ho hid hpos hdue
    rw [List.mem_append, List.mem_singleton] at ht
    rcases ht with ht | rfl
    · exact (hold t ht o).mpr (hall t ht o ho hid hpos hdue)
    · exact (hlast o).mpr (hcovered o ho hid hpos hdue)

/-- What a commit does to the exemptions. -/
theorem earned_traded (h : Books lot d) {ws : List Write} (hvalid : platform.validAll d ws = true)
    (hws : Traded H lot d ws) : ExemptionsEarned (platform.applyAll d ws) ↔
      ExemptionsEarned d ∧ ∀ trade ∈ List.filterMap Write.trade? ws, Covered lot d trade := by
  have h' := books_traded h hvalid hws
  have hquiet : ∀ {ws : List Write}, Books lot (platform.applyAll d ws) →
      List.filterMap Write.trade? ws = [] → (ExemptionsEarned (platform.applyAll d ws) ↔
        ExemptionsEarned d ∧ ∀ trade ∈ List.filterMap Write.trade? ws, Covered lot d trade) := by
    intro ws hbooks hnone
    have htrades : (platform.applyAll d ws).trades = d.trades := by
      have hrows := tradeRows.applyAll d ws
      rwa [show List.filterMap tradeRows.row? ws = [] from hnone, List.append_nil] at hrows
    rw [earned_quiet h hbooks htrades fun o ho => orderTerms.mono ws ho, hnone]
    simp
  cases hws with
  | order hrow hstatus => exact hquiet h' rfl
  | job => exact hquiet h' rfl
  | audit => exact hquiet h' rfl
  | move => exact hquiet h' rfl
  | mark => exact hquiet h' rfl
  | @fill o trade rest hfill =>
    obtain ⟨quantity, -, hcommission⟩ := hfill.commission
    have hone : List.filterMap Write.trade? (.insertTrade trade :: rest) = [trade] :=
      congrArg (trade :: ·) (commission_trade? hcommission)
    rw [earned_fill h hvalid hfill, hone]
    simp

end Rules

/-- What a step does to the exemptions. -/
theorem earned_step {H : Sha256} {lot : String} {w w' : OrderWorld}
    {e : Event OrderCall Input Failure} (hsound : Sound (orderContract H lot) w)
    (hbooks : Books lot w.db) (hstep : w.step platform (orders H lot) e = some w') :
    ExemptionsEarned w'.db ↔ ExemptionsEarned w.db ∧ FillsCovered lot w e := by
  have hdb := step_db platform hstep
  unfold FillsCovered
  cases hc : w.commit? platform e with
  | none =>
    rw [hc] at hdb
    simp [hdb]
  | some commit =>
    obtain ⟨t, ws⟩ := commit
    rw [hc] at hdb
    obtain ⟨v, hv⟩ := committed_of_step hsound hstep hc
    have hguar : Traded H lot w.db ws := hv.committed ▸ hv.guar
    simp only [Option.some.injEq, Prod.mk.injEq]
    rw [hdb, earned_traded hbooks hv.valid hguar]
    refine and_congr_right fun _ => ⟨fun hall t' ws' hsame => hsame.2 ▸ hall, fun hall => ?_⟩
    exact hall t ws ⟨rfl, rfl⟩

/-- In every run, every exemption on record is earned in every state exactly
when every fill is covered. -/
theorem exemptions_earned_iff {H : Sha256} {lot : String} {d : Store} {n : ℕ} (hd : Uncharged d)
    (es : List (Event OrderCall Input Failure)) :
    Along (World.step platform (orders H lot)) (FillsCovered lot) (World.initial d n) es ↔
      ∀ w, Visits (World.step platform (orders H lot)) (World.initial d n) es w →
        ExemptionsEarned w.db := by
  have hbooks : ∀ w, Visits (World.step platform (orders H lot)) (World.initial d n) es w →
      Books lot w.db := fun w h =>
    traded_visits (fun _ _ hvalid hws hd => books_traded hd hvalid hws) (books_uncharged hd) h
  constructor
  · intro hcovered w hvisits
    have hstart : ExemptionsEarned d := fun t ht => by simp [hd.trades] at ht
    have hall : Sound (orderContract H lot) w ∧ Books lot w.db ∧ ExemptionsEarned w.db :=
      visits_invariant
        (I := fun w => Sound (orderContract H lot) w ∧ Books lot w.db ∧ ExemptionsEarned w.db)
        (fun w e w' hi hc hstep =>
          ⟨sound_step (fun _ call _ _ _ => keeps_orders (fun _ _ h => h) call) hi.1 hstep,
          rows_step (fun v ws _ hvalid hguar hb => books_traded hb hvalid hguar) hi.1 hstep hi.2.1,
          (earned_step hi.1 hi.2.1 hstep).mpr ⟨hi.2.2, hc⟩⟩)
        ⟨sound_initial trivial, books_uncharged hd, hstart⟩ hcovered hvisits
    exact hall.2.2
  · intro hearned
    rw [along_iff_takes]
    intro w e w' htakes
    have hbefore := takes_before htakes
    have hafter := hearned w' (takes_after htakes)
    obtain ⟨_, _, _, _, hstep⟩ := htakes
    exact ((earned_step (sound_orders hbefore) (hbooks w hbefore) hstep).mp hafter).2

/-- An order that looks like a close leg is placed first of all and filled. -/
def closeFirst : List (Event OrderCall Input Failure) :=
  placing 1 (limitOrder "X-C" "1" "1.2345") "01HX0000000000000000000001" ++
    [.start 2 .runJob, .step 2 quiet, .step 2 quiet, .step 2 (drawing "01HX0000000000000000000002"),
      .step 2 quiet, .step 2 quiet, .step 2 quiet, .step 2 quiet]

/-- The only trade is of positive quantity and carries no commission. -/
def exemptAlone (w : OrderWorld) : Bool :=
  w.db.trades.any fun t => w.db.trades = [t] ∧ 0 < t.quantity.units ∧
    brokerageOf w.db t.tradeId = [] ∧ debitsOf w.db t.tradeId = [] ∧
    w.db.orders.any fun o => o.orderId = t.orderId

theorem exemptAlone_unearned {w : OrderWorld} (h : exemptAlone w = true) :
    ∃ t o, t ∈ w.db.trades ∧ 0 < t.quantity.units ∧ Exempt w.db t ∧ o ∈ orderTerms.rows w.db ∧
      o.orderId = t.orderId ∧ ¬ ClosesOne w.db o (earlier w.db t) := by
  obtain ⟨t, ht, h⟩ := List.any_eq_true.mp h
  obtain ⟨hone, hpos, hbrokerage, hdebits, hany⟩ := of_decide_eq_true h
  obtain ⟨o, ho, hid⟩ := List.any_eq_true.mp hany
  refine ⟨t, o.toOrderTerms, ht, hpos, ⟨hbrokerage, hdebits⟩, List.mem_map_of_mem ho,
    of_decide_eq_true hid, ?_⟩
  rintro ⟨x, -, t', ht', -⟩
  simp [earlier, hone] at ht'

/-- The first trade of a broker is exempt, though there is nothing to close. -/
theorem exemption_unearned : ∃ es w t o,
    run (World.step platform (orders fillDigests "4")) (World.initial Store.empty 0) es = some w ∧
    t ∈ w.db.trades ∧ 0 < t.quantity.units ∧ Exempt w.db t ∧ o ∈ orderTerms.rows w.db ∧
    o.orderId = t.orderId ∧ ¬ ClosesOne w.db o (earlier w.db t) := by
  obtain ⟨w, hrun, hcheck⟩ := run_reaches (World.step platform (orders fillDigests "4"))
    (World.initial Store.empty 0) closeFirst exemptAlone (by decide +kernel)
  obtain ⟨t, o, hexempt⟩ := exemptAlone_unearned hcheck
  exact ⟨closeFirst, w, t, o, hrun, hexempt⟩

theorem exemptions_earned_closeFirst :
    ¬ Along (World.step platform (orders fillDigests "4")) (FillsCovered "4")
      (World.initial Store.empty 0) closeFirst := by
  intro hcovered
  obtain ⟨w, hrun, hcheck⟩ := run_reaches (World.step platform (orders fillDigests "4"))
    (World.initial Store.empty 0) closeFirst exemptAlone (by decide +kernel)
  obtain ⟨t, o, ht, hpos, hexempt, ho, hid, hcloses⟩ := exemptAlone_unearned hcheck
  exact hcloses ((exemptions_earned_iff uncharged_empty closeFirst).mp hcovered w (visits_last hrun)
    t ht hpos hexempt o ho hid)

end LpPlatform.CloseLegs
