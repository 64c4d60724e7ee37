import LpPlatform.HmacGuard
import LpPlatform.LedgerTotals

/-!
# The dashboard of the operators

The dashboard runs five statements on a connection of its own, without a
transaction, while the other calls go on. Its profit is the constant 0, since
no entry is of a trade. Its balance and its commission are read one after the
other, so together they are the deposits without the withdrawals at the first
reading, and the charges that were made between the two. The balances of all
brokers add up to the balance of the ledger.
-/

namespace LpPlatform.OperationsDashboard

open Amounts BrokersAdmin DecimalText HashChain HmacGuard InterferenceLogic JsValues Ledger LedgerTotals
open OrderFills OrderWorker PositiveEntries RowStore SessionReplays Sessions StatementProgram StepRuns Tables WithdrawalFloor

/-- A row of `auth.brokers`, as it is listed. -/
structure BrokerListing where
  brokerId : String
  displayName : String
  contactEmail : String
  status : BrokerStatus
  createdAt : Instant

/-- The text of a status. -/
def statusText : BrokerStatus → String
  | .active => "active"
  | .suspended => "suspended"
  | .closed => "closed"

/-- A sum as the database prints it; without rows it is the constant 0. -/
def unitsText (units : List ℤ) : String :=
  if units = [] then "0"
  else String.ofList (Literal.fixed ⟨decide (units.sum < 0), units.sum.natAbs, 4⟩)

/-- A broker on the dashboard. -/
structure DashboardBroker where
  brokerId : String
  displayName : String
  contactEmail : String
  status : String
  balance : String

/-- What the dashboard shows. -/
structure Dashboard where
  brokersCount : ℕ
  totalBalance : String
  totalPnl : String
  totalCommission : String
  recentBrokers : List DashboardBroker

/-- The entries of a broker, joined with its wallets. -/
def brokerEntries (brokerId : String) (d : Store) : List ℤ :=
  d.entries.flatMap fun e =>
    (d.wallets.filter fun w => w.walletId = e.walletId ∧ w.brokerId = brokerId).map fun _ => signedUnits e

/-- The brokers created last, with their balances. -/
def recentBrokers (brokers : List BrokerListing) (pick : ℕ) (d : Store) : List DashboardBroker :=
  (((anyOrder brokers pick).insertionSort fun a b => b.createdAt ≤ a.createdAt).take 10).map fun b =>
    ⟨b.brokerId, b.displayName, b.contactEmail, statusText b.status, unitsText (brokerEntries b.brokerId d)⟩

/-- `OperationsController.dashboard`. The brokers that a statement finds at an
instant are given. -/
def dashboard (brokers : Instant → List BrokerListing) : Program Dashboard := do
  let brokersCount ← query fun _ i => (brokers i.now).length
  let totalBalance ← query fun v _ => unitsText (v.committed.entries.map signedUnits)
  let totalPnl ← query fun v _ =>
    unitsText ((v.committed.entries.filter fun e => e.referenceType = .trade).map signedUnits)
  let totalCommission ← query fun v _ => unitsText (v.committed.charges.map (·.amount.units))
  let recent ← query fun v i => recentBrokers (brokers i.now) i.pick v.committed
  return ⟨brokersCount, totalBalance, totalPnl, totalCommission, recent⟩

/-- The ledger's calls and the dashboard. -/
inductive OfficeCall where
  | ledger (call : LedgerCall)
  | dashboard

/-- A call, with the dashboard that it returns. -/
def officeCalls (D : Driver) (K : OnboardingConfig) (paise : ℕ) (H : Sha256) (lot : String)
    (floor : JsNumber) (brokers : Instant → List BrokerListing) : OfficeCall → Program (Option Dashboard)
  | .ledger call => do
    let _ ← ledgerCalls D K paise H lot floor call
    return none
  | .dashboard => do
    let shown ← OperationsDashboard.dashboard brokers
    return some shown

/-- The statements of the dashboard, one after the other. -/
theorem officeCalls_dashboard (D : Driver) (K : OnboardingConfig) (paise : ℕ) (H : Sha256) (lot : String)
    (floor : JsNumber) (brokers : Instant → List BrokerListing) :
    officeCalls D K paise H lot floor brokers .dashboard =
      (query fun _ i => (brokers i.now).length).bind fun brokersCount =>
      (query fun v _ => unitsText (v.committed.entries.map signedUnits)).bind fun totalBalance =>
      (query fun v _ => unitsText
        ((v.committed.entries.filter fun e => e.referenceType = .trade).map signedUnits)).bind
          fun totalPnl =>
      (query fun v _ => unitsText (v.committed.charges.map (·.amount.units))).bind fun totalCommission =>
      (query fun v i => recentBrokers (brokers i.now) i.pick v.committed).bind fun recent =>
        .done (some ⟨brokersCount, totalBalance, totalPnl, totalCommission, recent⟩) := rfl

/-- The worlds of these calls. -/
abbrev OfficeWorld := World Store Write Key Input Failure (Option Dashboard)

/-- The number that a text stands for. -/
def amountOf (text : String) : Option ℚ := (literal? text.toList).map litValue

theorem amountOf_unitsText (units : List ℤ) : amountOf (unitsText units) = some ((units.sum : ℚ) / 10000) := by
  by_cases h : units = []
  · have hzero : literal? "0".toList = some ⟨false, 0, 0⟩ := by decide
    rw [unitsText, if_pos h, amountOf, hzero, h]
    simp [litValue]
  · rw [unitsText, if_neg h, amountOf, String.toList_ofList, literal?_fixed, Option.map_some,
      litValue_units]

/-- The whole ledger is on some wallet. -/
theorem signedOn_everywhere (entries : List LedgerEntry) :
    signedOn everywhere entries = (entries.map signedUnits).sum := by
  simp [signedOn, everywhere]

section Brokers

variable {d : Store}

/-- A broker's joined entries sum to the balance of its wallets. -/
theorem sum_brokerEntries (h : Accounted d) (brokerId : String) : (brokerEntries brokerId d).sum =
    signedOn (fun walletId => d.wallets.any fun w => w.walletId = walletId ∧ w.brokerId = brokerId)
      d.entries := by
  have hall : ∀ entries : List LedgerEntry,
      (∀ e ∈ entries, ∃ w ∈ d.wallets, w.walletId = e.walletId) →
      (entries.flatMap fun e => (d.wallets.filter fun w => w.walletId = e.walletId ∧
        w.brokerId = brokerId).map fun _ => signedUnits e).sum =
      signedOn (fun walletId => d.wallets.any fun w => w.walletId = walletId ∧ w.brokerId = brokerId)
        entries := by
    intro entries hentries
    induction entries with
    | nil => rfl
    | cons e entries ih =>
      obtain ⟨w, hw, hid⟩ := hentries e List.mem_cons_self
      rw [List.flatMap_cons, List.sum_append, ih fun x hx => hentries x (List.mem_cons_of_mem e hx),
        signedOn_cons, ← hid, filter_owner h.wallets hw, any_owner h.wallets hw]
      by_cases hb : w.brokerId = brokerId <;> simp [hb]
  exact hall d.entries h.housed

/-- The balances of brokers that own all wallets add up to the balance of the
ledger. -/
theorem sum_brokers (h : Accounted d) {brokerIds : List String} (hids : brokerIds.Nodup)
    (howned : ∀ w ∈ d.wallets, w.brokerId ∈ brokerIds) :
    (brokerIds.map fun brokerId => (brokerEntries brokerId d).sum).sum =
      (d.entries.map signedUnits).sum := by
  have hall : ∀ entries : List LedgerEntry,
      (∀ e ∈ entries, ∃ w ∈ d.wallets, w.walletId = e.walletId) →
      (brokerIds.map fun brokerId => signedOn (fun walletId =>
        d.wallets.any fun w => w.walletId = walletId ∧ w.brokerId = brokerId) entries).sum =
      (entries.map signedUnits).sum := by
    intro entries hentries
    induction entries with
    | nil => simp [signedOn]
    | cons e entries ih =>
      obtain ⟨w, hw, hid⟩ := hentries e List.mem_cons_self
      have hone : (brokerIds.map fun brokerId => if brokerId = w.brokerId then signedUnits e else 0).sum =
          signedUnits e := by
        rw [List.sum_map_ite_eq, List.count_eq_one_of_mem hids (howned w hw)]
        simp
      rw [List.map_cons, List.sum_cons, ← ih fun x hx => hentries x (List.mem_cons_of_mem e hx), ← hone,
        ← List.sum_map_add]
      refine congrArg List.sum (List.map_congr_left fun brokerId _ => ?_)
      rw [signedOn_cons, ← hid, any_owner h.wallets hw]
      simp [eq_comm]
  rw [← hall d.entries h.housed]
  exact congrArg List.sum (List.map_congr_left fun brokerId _ => sum_brokerEntries h brokerId)

end Brokers

section Runs

variable {D : Driver} {K : OnboardingConfig} {paise : ℕ} {H : Sha256} {lot : String} {d : Store} {n : ℕ}
variable {floor : JsNumber} {brokers : Instant → List BrokerListing} {t : ℕ}
variable {es : List (Event OfficeCall Input Failure)} {u w : OfficeWorld}

/-- Every call keeps the ledger sane and balanced. -/
theorem keeps_office (call : OfficeCall) : (totalsContract D paise H lot).Keeps t
    (officeCalls D K paise H lot floor brokers call) none d n := by
  cases call with
  | ledger call =>
    rw [officeCalls, bind_eq, Contract.Keeps, wp_bind]
    exact wp_mono _ (fun _ _ _ _ _ => trivial) (fun _ _ _ _ h => h) (keeps_totals call)
  | dashboard =>
    have hread : ∀ {α β : Type} {f : View Store → Input → α} {g : α → Program β},
        (∀ a d n, (totalsContract D paise H lot).Keeps t (g a) none d n) →
        ∀ d n, (totalsContract D paise H lot).Keeps t ((query f).bind g) none d n := by
      intro α β f g hg d n
      rw [Contract.Keeps, wp_bind]
      exact wp_query_auto (fun _ _ _ => trivial) fun v i d' n' _ _ _ => hg _ d' n'
    rw [officeCalls_dashboard]
    refine hread (fun _ d n => ?_) d n
    refine hread (fun _ d n => ?_) d n
    refine hread (fun _ d n => ?_) d n
    refine hread (fun _ d n => ?_) d n
    refine hread (fun _ d n => ?_) d n
    trivial

/-- The ledger balances in every state of every run. -/
theorem accounted_office (hsane : Sane d) (haccounted : Accounted d)
    (h : Visits (World.step platform (officeCalls D K paise H lot floor brokers)) (World.initial d n)
      es w) : Accounted w.db := by
  have hsound : Sound (totalsContract D paise H lot) w :=
    sound_visits (fun _ call _ _ _ => keeps_office call) (sound_initial ⟨hsane, haccounted⟩) h
  exact hsound.inv.2

/-- Charges are only ever added. -/
theorem charges_grow (h : Visits (World.step platform (officeCalls D K paise H lot floor brokers)) u
    es w) : ∃ between, w.db.charges = u.db.charges ++ between := by
  refine visits_of_step (I := fun x : OfficeWorld => ∃ between, x.db.charges = u.db.charges ++ between)
    (fun x e x' hx hstep => ?_) ⟨[], (List.append_nil _).symm⟩ h
  obtain ⟨between, hbetween⟩ := hx
  rw [step_db platform hstep]
  cases x.commit? platform e with
  | none => exact ⟨between, hbetween⟩
  | some commit =>
    refine ⟨between ++ commit.2.filterMap Write.charge?, ?_⟩
    have hgrown : (platform.applyAll x.db commit.2).charges =
        x.db.charges ++ commit.2.filterMap Write.charge? := chargeRows.applyAll x.db commit.2
    rw [hgrown, hbetween, List.append_assoc]

/-- The states that a dashboard was read in, one after the other. -/
theorem dashboard_reads
    (hrun : run (World.step platform (officeCalls D K paise H lot floor brokers)) (World.initial d n)
      es = some w) {ses : Session Store Write Input Failure (Option Dashboard)}
    (hses : w.sessions t = some ses) {shown : Dashboard} (hshown : ses.prog = .done (some shown)) :
    ∃ (balance pnl commission recent : OfficeWorld) (between : List Charge) (i : Input),
      (∀ x ∈ [balance, pnl, commission, recent],
        Visits (World.step platform (officeCalls D K paise H lot floor brokers)) (World.initial d n)
          es x) ∧
      commission.db.charges = balance.db.charges ++ between ∧
      shown.totalBalance = unitsText (balance.db.entries.map signedUnits) ∧
      shown.totalPnl = unitsText
        ((pnl.db.entries.filter fun e => e.referenceType = .trade).map signedUnits) ∧
      shown.totalCommission = unitsText (commission.db.charges.map (·.amount.units)) ∧
      shown.recentBrokers = recentBrokers (brokers i.now) i.pick recent.db := by
  obtain ⟨call, hcall⟩ := replayed_run hrun hses
  have hleft := hcall.left
  rw [hshown] at hleft
  cases call with
  | ledger call =>
    obtain ⟨_, _, _, _, _, hnone⟩ := replay_bind_done hleft
    exact absurd (replay_done hnone).2 (by simp)
  | dashboard =>
    rw [officeCalls_dashboard] at hleft
    obtain ⟨u₁, w₁, i₁, ses₁, es₁, -, -, -, hlater₁, h₁⟩ := query_reads hleft
    obtain ⟨u₂, w₂, i₂, ses₂, es₂, hu₂, -, hstep₂, hlater₂, h₂⟩ := query_reads h₁
    obtain ⟨u₃, w₃, i₃, ses₃, es₃, hu₃, -, -, hlater₃, h₃⟩ := query_reads h₂
    obtain ⟨u₄, w₄, i₄, ses₄, es₄, hu₄, -, -, hlater₄, h₄⟩ := query_reads h₃
    obtain ⟨u₅, w₅, i₅, ses₅, es₅, hu₅, -, -, -, h₅⟩ := query_reads h₄
    have hdone := Option.some.inj (Prog.done.inj (replay_done h₅).2)
    obtain ⟨first, rest, hes, hfirst⟩ := hlater₃ _ hu₄
    have hbetween : run (World.step platform (officeCalls D K paise H lot floor brokers)) u₂
        (.step t i₂ :: first) = some u₄ := by
      rw [run_cons, hstep₂, Option.bind_some, hfirst]
    obtain ⟨between, hbetween⟩ := charges_grow (visits_last hbetween)
    refine ⟨u₂, u₃, u₄, u₅, between, i₅, ?_, hbetween, ?_⟩
    · intro x hx
      simp only [List.mem_cons, List.not_mem_nil, or_false] at hx
      rcases hx with rfl | rfl | rfl | rfl
      · exact hlater₁ _ hu₂
      · exact hlater₁ _ (hlater₂ _ hu₃)
      · exact hlater₁ _ (hlater₂ _ (hlater₃ _ hu₄))
      · exact hlater₁ _ (hlater₂ _ (hlater₃ _ (hlater₄ _ hu₅)))
    · rw [hdone]
      exact ⟨rfl, rfl, rfl, rfl⟩

/-- A dashboard that is served during a run shows no profit. Its balance is the
deposits without the withdrawals and the charges in a state of the run, and its
commission has the charges made since then besides. -/
theorem dashboard_figures (hsane : Sane d) (haccounted : Accounted d)
    (hrun : run (World.step platform (officeCalls D K paise H lot floor brokers)) (World.initial d n)
      es = some w) {ses : Session Store Write Input Failure (Option Dashboard)}
    (hses : w.sessions t = some ses) {shown : Dashboard} (hshown : ses.prog = .done (some shown)) :
    shown.totalPnl = "0" ∧ ∃ (u v : OfficeWorld) (between : List Charge),
      Visits (World.step platform (officeCalls D K paise H lot floor brokers)) (World.initial d n) es u ∧
      Visits (World.step platform (officeCalls D K paise H lot floor brokers)) (World.initial d n) es v ∧
      v.db.charges = u.db.charges ++ between ∧
      amountOf shown.totalBalance = some (((typeOn .deposit everywhere u.db.entries -
        typeOn .withdrawal everywhere u.db.entries - chargeUnits u.db.charges : ℤ) : ℚ) / 10000) ∧
      amountOf shown.totalCommission =
        some (((chargeUnits u.db.charges + chargeUnits between : ℤ) : ℚ) / 10000) := by
  obtain ⟨u, x, v, z, between, i, hvisits, hcharges, hbalance, hpnl, hcommission, -⟩ :=
    dashboard_reads hrun hses hshown
  have hu := accounted_office hsane haccounted (hvisits u (by simp))
  have hx := accounted_office hsane haccounted (hvisits x (by simp))
  refine ⟨?_, u, v, between, hvisits u (by simp), hvisits v (by simp), hcharges, ?_, ?_⟩
  · have hnone : x.db.entries.filter (fun e => e.referenceType = .trade) = [] :=
      List.filter_eq_nil_iff.mpr fun e he htrade => by
        have horiented := hx.oriented e he
        simp [Oriented, of_decide_eq_true htrade] at horiented
    rw [hpnl, hnone]
    rfl
  · rw [hbalance, amountOf_unitsText, ← signedOn_everywhere, signedOn_oriented hu.oriented, hu.adjusted,
      hu.charged, add_zero]
  · have hunits : (v.db.charges.map (·.amount.units)).sum = chargeUnits u.db.charges + chargeUnits between := by
      rw [← chargeUnits_append, ← hcharges, chargeUnits]
    rw [hcommission, amountOf_unitsText, hunits]

/-- Where all brokers fit on the dashboard and own all wallets, their balances
add up to the balance of the ledger in the state they were read in. -/
theorem recent_balances (hsane : Sane d) (haccounted : Accounted d)
    (hrun : run (World.step platform (officeCalls D K paise H lot floor brokers)) (World.initial d n)
      es = some w) {ses : Session Store Write Input Failure (Option Dashboard)}
    (hses : w.sessions t = some ses) {shown : Dashboard} (hshown : ses.prog = .done (some shown)) :
    ∃ (u : OfficeWorld) (now : Instant),
      Visits (World.step platform (officeCalls D K paise H lot floor brokers)) (World.initial d n) es u ∧
      (((brokers now).map (·.brokerId)).Nodup → (brokers now).length ≤ 10 →
        (∀ x ∈ u.db.wallets, ∃ b ∈ brokers now, b.brokerId = x.brokerId) →
        (shown.recentBrokers.map fun b => (amountOf b.balance).getD 0).sum =
          (((u.db.entries.map signedUnits).sum : ℤ) : ℚ) / 10000) := by
  obtain ⟨_, _, _, u, _, i, hvisits, -, -, -, -, hrecent⟩ := dashboard_reads hrun hses hshown
  have hu := accounted_office hsane haccounted (hvisits u (by simp))
  refine ⟨u, i.now, hvisits u (by simp), fun hids hlength howned => ?_⟩
  have hperm : (((anyOrder (brokers i.now) i.pick).insertionSort fun a b =>
      b.createdAt ≤ a.createdAt).take 10).Perm (brokers i.now) := by
    have hsorted := (List.perm_insertionSort (fun a b : BrokerListing => b.createdAt ≤ a.createdAt)
      (anyOrder (brokers i.now) i.pick)).trans (anyOrder_perm _ _)
    rwa [List.take_of_length_le (hsorted.length_eq ▸ hlength)]
  have hbalances : (shown.recentBrokers.map fun b => (amountOf b.balance).getD 0).sum =
      ((brokers i.now).map fun b => (((brokerEntries b.brokerId u.db).sum : ℤ) : ℚ) / 10000).sum := by
    rw [hrecent, recentBrokers, List.map_map]
    refine (hperm.map _).sum_eq.trans (congrArg List.sum (List.map_congr_left fun b _ => ?_))
    simp [amountOf_unitsText]
  have hsum := sum_brokers hu hids fun x hx => by
    obtain ⟨b, hb, hid⟩ := howned x hx
    exact hid ▸ List.mem_map_of_mem hb
  rw [hbalances, ← hsum, List.map_map]
  generalize brokers i.now = listed
  clear * -
  induction listed with
  | nil => simp
  | cons b listed ih =>
    simp only [List.map_cons, List.sum_cons, ih, Function.comp_apply, Int.cast_add, add_div]

end Runs

/-- An event of orders among all events. -/
def officeEvent : Event OrderCall Input Failure → Event OfficeCall Input Failure
  | .start t call => .start t (.ledger (.order call))
  | .step t i => .step t i
  | .fail t e => .fail t e
  | .crash t => .crash t

/-- A session has returned a dashboard that passes a check. -/
def shows (w : OfficeWorld) (t : ℕ) (check : Dashboard → Bool) : Bool :=
  (w.sessions t).any fun ses =>
    match ses.prog with
    | .done (some shown) => check shown
    | _ => false

theorem shows_exists {t : ℕ} {w : OfficeWorld} {check : Dashboard → Bool} (h : shows w t check = true) :
    ∃ ses shown, w.sessions t = some ses ∧ ses.prog = .done (some shown) ∧ check shown = true := by
  obtain ⟨ses, hses, hshown⟩ := (Option.any_eq_true ..).mp h
  split at hshown
  · rename_i shown hprog
    exact ⟨ses, shown, hses, hprog, hshown⟩
  · simp at hshown

/-- The brokers of the example. -/
def oneListing (_ : Instant) : List BrokerListing := [⟨"B1", "Broker", "b@example.com", .active, 0⟩]

/-- An order is filled between the second and the third statement of a
dashboard. -/
def duringFill : List (Event OfficeCall Input Failure) :=
  (placing 1 (limitOrder "C1" "1" "1.2345") "01HX0000000000000000000001").map officeEvent ++
    [.start 3 .dashboard, .step 3 quiet, .step 3 quiet] ++
    (filling 2 "01HX0000000000000000000002").map officeEvent ++
    [.step 3 quiet, .step 3 quiet, .step 3 quiet]

/-- The worlds of the example. -/
abbrev officeStep := World.step platform
  (officeCalls plainDriver plainOnboarding 1000000 fillDigests "4" fiveThousand oneListing)

theorem figures_during_fill : ∃ w ses shown,
    run officeStep (World.initial Store.empty 0) duringFill = some w ∧ w.sessions 3 = some ses ∧
    ses.prog = .done (some shown) ∧ shown.totalPnl = "0" ∧ shown.totalBalance = "0" ∧
    shown.totalCommission = "4.0000" := by
  obtain ⟨w, hrun, hcheck⟩ := run_reaches officeStep (World.initial Store.empty 0) duringFill
    (fun w => shows w 3 fun shown => shown.totalBalance = "0" ∧ shown.totalCommission = "4.0000")
    (by decide +kernel)
  obtain ⟨ses, shown, hses, hshown, htexts⟩ := shows_exists hcheck
  obtain ⟨hpnl, -⟩ := dashboard_figures sane_empty accounted_empty hrun hses hshown
  exact ⟨w, ses, shown, hrun, hses, hshown, hpnl, of_decide_eq_true htexts⟩

theorem balances_during_fill : ∃ w ses shown,
    run officeStep (World.initial Store.empty 0) duringFill = some w ∧ w.sessions 3 = some ses ∧
    ses.prog = .done (some shown) ∧ ∃ u, Visits officeStep (World.initial Store.empty 0) duringFill u ∧
      (shown.recentBrokers.map fun b => (amountOf b.balance).getD 0).sum =
        (((u.db.entries.map signedUnits).sum : ℤ) : ℚ) / 10000 := by
  obtain ⟨w, hrun, hcheck⟩ := run_reaches officeStep (World.initial Store.empty 0) duringFill
    (fun w => shows w 3 fun shown => shown.recentBrokers.length = 1) (by decide +kernel)
  have hsteps : Along officeStep
      (fun w e => ((officeStep w e).all fun w' => w'.db.wallets.all fun x => x.brokerId = "B1") = true)
      (World.initial Store.empty 0) duringFill := by
    decide +kernel
  obtain ⟨ses, shown, hses, hshown, -⟩ := shows_exists hcheck
  obtain ⟨u, now, hvisits, hsum⟩ := recent_balances sane_empty accounted_empty hrun hses hshown
  have howned : ∀ x ∈ u.db.wallets, x.brokerId = "B1" := by
    refine visits_invariant (I := fun u : OfficeWorld => ∀ x ∈ u.db.wallets, x.brokerId = "B1")
      (fun w e w' _ he hstep => ?_) (by simp [World.initial, Store.empty]) hsteps hvisits
    rw [hstep, Option.all_some] at he
    exact fun x hx => of_decide_eq_true (List.all_eq_true.mp he x hx)
  exact ⟨w, ses, shown, hrun, hses, hshown, u, hvisits, hsum (by simp [oneListing])
    (by simp [oneListing]) fun x hx => by simp [oneListing, howned x hx]⟩

end LpPlatform.OperationsDashboard
