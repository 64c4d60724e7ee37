import LpPlatform.Attribution
import LpPlatform.RepeatedFills

/-!
# When a client order is stored twice

A broker names its orders by a client order id, and nothing compares the id of
an order with the ids of the orders stored before: a signed request that is sent
again within its window is stored again and filled again. As long as no order is
inserted under a pair of broker and client order id that a stored order has, and
no process dies between a fill and its mark, each pair has one order and one
trade.
-/

namespace LpPlatform.RepeatedOrders

open Attribution CommissionLedger HashChain HmacGuard JsValues Ledger OrderFills OrderProgress OrderProtocol
open OrderWorker RepeatedFills RowStore SessionProtocols SessionTrails Sessions StatementProgram StepRuns Tables

/-- What a broker names an order by. -/
def pairOf (o : OrderTerms) : String × String := (o.brokerId, o.clientOrderId)

/-- The orders under a pair. -/
def pairOrders (d : Store) (pair : String × String) : List Order := d.orders.filter (pairOf ·.toOrderTerms = pair)

/-- Their trades. -/
def pairTrades (d : Store) (pair : String × String) : List Trade :=
  d.trades.filter fun t => d.orders.any fun o => o.orderId = t.orderId ∧ pairOf o.toOrderTerms = pair

/-- The pair was ordered and filled at most once. -/
structure OrderedOnce (d : Store) (pair : String × String) : Prop where
  orders : (pairOrders d pair).length ≤ 1
  trades : (pairTrades d pair).length ≤ 1

/-- A pair names one order. -/
def Distinct (d : Store) : Prop := ((orderTerms.rows d).map pairOf).Nodup

/-- An order that is inserted has a pair that no stored order has. -/
def newPair (d : Store) : Write → Bool
  | .insertOrder row => d.orders.all fun o => pairOf o.toOrderTerms ≠ pairOf row.toOrderTerms
  | _ => true

/-- The event commits no order under a pair that is taken, and no process dies
that has filled an order without marking it. -/
def FreshAndClean {γ : Type} (w : OrderWorld) (e : Event γ Input Failure) : Prop :=
  ((committed platform w e).all fun c => newPair w.db c.2) = true ∧ CleanCrash w e

instance {γ : Type} (w : OrderWorld) (e : Event γ Input Failure) : Decidable (FreshAndClean w e) :=
  inferInstanceAs (Decidable (_ ∧ _))

section Steps

variable {d : Store} {v : View Store} {q q' : Stage} {ws : List Write}

/-- Only placing an order adds one. -/
theorem distinct_move (h : Distinct d) (hnew : ∀ x ∈ ws, newPair d x = true) (hmove : Moves v q ws q') :
    Distinct (platform.applyAll d ws) := by
  have hsame : orderTerms.rows (platform.applyAll d ws) = orderTerms.rows d → Distinct (platform.applyAll d ws) := by
    intro hrows
    rwa [Distinct, hrows]
  cases hmove with
  | @place row hstatus =>
    have hrows : orderTerms.rows (d.apply (.insertOrder row)) = orderTerms.rows d ++ [row.toOrderTerms] :=
      orderTerms.apply d (.insertOrder row)
    have hother := hnew (.insertOrder row) (by simp)
    have hdistinct : ((orderTerms.rows d ++ [row.toOrderTerms]).map pairOf).Nodup := by
      rw [List.map_append, List.nodup_append]
      refine ⟨h, by simp, fun a ha b hb hpair => ?_⟩
      obtain ⟨o, ho, rfl⟩ := List.mem_map.mp ha
      obtain ⟨x, hx, rfl⟩ := List.mem_map.mp ho
      have hne := of_decide_eq_true (List.all_eq_true.mp hother x hx)
      exact hne (hpair.trans (by simpa using hb))
    rwa [← hrows] at hdistinct
  | aside haside => exact hsame (congrArg (List.map _) (beside_same (fun x hx => Or.inl (haside x hx)) d).orders)
  | @fill _ trade rest _ hrest => exact hsame (congrArg (List.map _) (@fill_same trade rest hrest d).1)
  | mark => exact hsame (mark_rows d _ _)
  | _ => exact hsame rfl

/-- A fresh step leaves pairs distinct. -/
theorem distinct_step {γ : Type} {p p' : Phase Store Stage} {w : OrderWorld} {e : Event γ Input Failure}
    (hdb : p.db = w.db) (hfresh : FreshAndClean w e) (h : Distinct p.db)
    (hstep : orderProtocol.Step platform p e (committed platform w e) p') : Distinct p'.db := by
  generalize hout : committed platform w e = out at hstep
  cases hstep with
  | @move t _ v ws q _ _ _ _ _ hmove =>
    refine distinct_move h (fun x hx => ?_) hmove
    have hmem : (t, x) ∈ ws.map (t, ·) := List.mem_map_of_mem hx
    rw [← hout] at hmem
    rw [hdb]
    exact List.all_eq_true.mp hfresh.1 (t, x) hmem
  | _ => exact h

/-- Pairs that name one order, and orders that have one trade. -/
theorem orderedOnce_distinct (hdistinct : Distinct d) (honce : (d.trades.map (·.orderId)).Nodup)
    (pair : String × String) : OrderedOnce d pair := by
  have hpairs : (d.orders.map fun o => pairOf o.toOrderTerms).Nodup := by
    simpa [Distinct, orderTerms, Function.comp_def] using hdistinct
  refine ⟨length_filter_key hpairs pair, ?_⟩
  by_cases hordered : ∃ o ∈ d.orders, pairOf o.toOrderTerms = pair
  · obtain ⟨o, ho, hpair⟩ := hordered
    have hsub : (pairTrades d pair).length ≤ (orderTrades d o.orderId).length := by
      refine (List.monotone_filter_right d.trades fun t ht => ?_).length_le
      obtain ⟨x, hx, hsame⟩ := List.any_eq_true.mp ht
      obtain ⟨hid, hpair'⟩ := of_decide_eq_true hsame
      obtain rfl := List.inj_on_of_nodup_map hpairs hx ho (hpair'.trans hpair.symm)
      exact decide_eq_true hid.symm
    exact hsub.trans (length_filter_key honce o.orderId)
  · have hnone : pairTrades d pair = [] := List.filter_eq_nil_iff.mpr fun t _ ht => by
      obtain ⟨x, hx, hsame⟩ := List.any_eq_true.mp ht
      exact hordered ⟨x, hx, (of_decide_eq_true hsame).2⟩
    simp [hnone]

end Steps

/-- In every state of every run whose orders are fresh and whose processes die
cleanly, each pair has at most one order and one trade. -/
theorem pairs_ordered_once {G : HmacConfig} {H : Sha256} {lot : String} {d : Store} {n : ℕ} (hd : Ready d)
    (hdistinct : Distinct d) {es : List (Event BrokerCall Input Failure)} {w : BrokerWorld}
    (hfresh : Along (World.step platform (brokerCalls G H lot)) FreshAndClean (World.initial d n) es)
    (h : Visits (World.step platform (brokerCalls G H lot)) (World.initial d n) es w) (pair : String × String) :
    OrderedOnce w.db pair := by
  have hclean : Along (World.step platform (brokerCalls G H lot)) CleanCrash (World.initial d n) es :=
    (along_iff_takes _ _).mpr fun u e u' htakes => ((along_iff_takes _ _).mp hfresh u e u' htakes).2
  obtain ⟨g, -, hpairs⟩ := protocol_visits (I := fun p => Distinct p.db) (fun _ call => obeys_broker call)
    (fun w g e p hfresh hp hstep => distinct_step rfl hfresh hp hstep) hdistinct hfresh h
  exact orderedOnce_distinct hpairs (traded_once (fun _ call => obeys_broker call) hd hclean h) pair

/-- The signed order is sent twice, byte by byte. -/
def sentTwice : List (Event BrokerCall Input Failure) :=
  calling 1 (.place signedOrder) [quiet, quiet, quiet, drawing "01HX0000000000000000000001", quiet,
    drawing "L1"] ++
  calling 2 (.place signedOrder) [quiet, quiet, quiet, drawing "01HX0000000000000000000002", quiet,
    drawing "L2"]

/-- It is stored twice then. -/
theorem stored_twice : ∃ w, run (World.step platform (brokerCalls plainHmac fillDigests "4"))
      (World.initial Store.empty 0) sentTwice = some w ∧ ¬ OrderedOnce w.db ("B1", "C1") := by
  obtain ⟨w, hrun, hcheck⟩ := run_reaches (World.step platform (brokerCalls plainHmac fillDigests "4"))
    (World.initial Store.empty 0) sentTwice (fun w => (pairOrders w.db ("B1", "C1")).length = 2) (by decide +kernel)
  have htwo := of_decide_eq_true hcheck
  refine ⟨w, hrun, fun hkept => ?_⟩
  have hone := hkept.orders
  rw [htwo] at hone
  simp at hone

theorem pairs_ordered_once_filled : ∃ w, run (World.step platform (brokerCalls plainHmac fillDigests "4"))
      (World.initial Store.empty 0) placedAndFilled = some w ∧ (pairTrades w.db ("B1", "C1")).length = 1 ∧
    OrderedOnce w.db ("B1", "C1") := by
  obtain ⟨w, hrun, hcheck⟩ := run_reaches (World.step platform (brokerCalls plainHmac fillDigests "4"))
    (World.initial Store.empty 0) placedAndFilled (fun w => (pairTrades w.db ("B1", "C1")).length = 1)
    (by decide +kernel)
  have hfresh : Along (World.step platform (brokerCalls plainHmac fillDigests "4")) FreshAndClean
      (World.initial Store.empty 0) placedAndFilled := by decide +kernel
  exact ⟨w, hrun, of_decide_eq_true hcheck,
    pairs_ordered_once ready_empty List.nodup_nil hfresh (visits_last hrun) _⟩

end LpPlatform.RepeatedOrders
