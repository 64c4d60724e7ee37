import LpPlatform.BrokersAdmin
import LpPlatform.CommissionLedger
import LpPlatform.FourEyes
import LpPlatform.WithdrawalFloor

/-!
# Entries that are worth something

Five writers post entries. Opening balances and adjustments check that their
amount is positive and write at most four decimals, so nothing is lost in the
column. An approval posts the amount of its request, which may be filed as
zero, and a commission is a product that the column may round to zero. Every
entry is positive exactly when no such request is approved and no such
commission is charged.
-/

namespace LpPlatform.PositiveEntries

open Amounts ApprovalWatcher AuditInterceptor BrokerPortal BrokersAdmin CommissionLedger DepositsAdmin
open FourEyes HashChain InterferenceLogic JsValues Ledger OrderFills OrderIntake OrderWorker
open PendingActions RowStore Sessions StatementProgram StepRuns Tables TradeChain WalletAdjust
open WithdrawalFloor

/-- The calls that post to the ledger, and those that lead up to them. -/
inductive LedgerCall where
  | createBroker (ctx : AdminRequestContext) (body : Json)
  | createDepositRequest (user : Option CurrentUser) (body : Json)
  | createWithdrawalRequest (user : Option CurrentUser) (body : Json)
  | decide (call : DecisionCall)
  | action (call : ActionCall)
  | order (call : OrderCall)

/-- A call, without its result. -/
def ledgerCalls (D : Driver) (K : OnboardingConfig) (paise : ℕ) (H : Sha256) (lot : String)
    (floor : JsNumber) : LedgerCall → Program Unit
  | .createBroker ctx body => do
    let _ ← createBroker K ctx body
    return ()
  | .createDepositRequest user body => do
    let _ ← createDepositRequest user body
    return ()
  | .createWithdrawalRequest user body => do
    let _ ← createWithdrawalRequest floor user body
    return ()
  | .decide call => do
    let _ ← decision D call
    return ()
  | .action call => actions D paise call
  | .order call => orders H lot call

/-- The worlds of these calls. -/
abbrev LedgerWorld := World Store Write Key Input Failure Unit

/-- Every entry is positive. -/
def Positive (d : Store) : Prop := ∀ x ∈ d.entries, 0 < x.amount.value

/-- The commission of an order is not due, or the column keeps something of
it. -/
def Collectable (lot : String) (o : OrderTerms) : Prop :=
  Due lot o → ∀ perLot quantity lots, Money.new lot = .ok perLot →
    Money.new o.quantity.text = .ok quantity → Money.new quantity.toString = .ok lots →
    1 / 20000 ≤ (perLot.mul lots).value

/-- The order a write fills. -/
def filled? : Write → Option String
  | .insertTrade trade => some trade.orderId
  | _ => none

/-- The requests some writes approve have positive amounts, and the orders they
fill have commissions that can be collected. -/
structure Sizeable (lot : String) (d : Store) (ws : List Write) : Prop where
  requests : ∀ r ∈ requestTerms.rows d, r.requestId ∈ ws.filterMap approved? → 0 < r.amount.value
  orders : ∀ o ∈ orderTerms.rows d, o.orderId ∈ ws.filterMap filled? → Collectable lot o

/-- What the event commits is sizeable. -/
def CommitsSizeable (lot : String) (w : LedgerWorld) (e : Event LedgerCall Input Failure) : Prop :=
  ∀ t ws, w.commit? platform e = some (t, ws) → Sizeable lot w.db ws

/-- What a commit of the calls does. -/
inductive Entered (D : Driver) (paise : ℕ) (H : Sha256) (lot : String) (d : Store) (ws : List Write) :
    Prop where
  | onboarded (h : Onboarded ws)
  | filed {row : DepositRequest} (h : ws = [.insertRequest row])
  | decided (h : Decided d ws)
  | acted (h : Acted D paise d ws)
  | traded (h : Traded H lot d ws)

/-- Ids name one row each, and actions store the bodies of adjustments. -/
structure Sane (d : Store) : Prop where
  actions : UniqueActions d
  requests : (d.requests.map (·.requestId)).Nodup
  orders : UniqueOrders d
  stored : ∀ a ∈ actionTerms.rows d, ∃ body : WalletAdjustBody, a.payload = body.payload

section Commits

variable {D : Driver} {K : OnboardingConfig} {paise : ℕ} {H : Sha256} {lot : String} {d : Store}
variable {ws : List Write}

theorem value_pos (x : Numeric) : 0 < x.value ↔ 0 < x.units := by
  have hpos : (0 : ℚ) < 10000 := by norm_num
  rw [Numeric.value, div_pos_iff_of_pos_right hpos]
  exact Int.cast_pos

/-- A dispatched action stores no action, approves no request and fills no
order. -/
theorem dispatched_quiet {type : PendingActionType} {payload : Json} {result : DispatchResult}
    (h : Dispatched D d type payload ws result) : ws.filterMap Write.action? = [] ∧
      ws.filterMap approved? = [] ∧ ws.filterMap filled? = [] := by
  cases h with
  | walletAdjust hfields hwallet => rcases hwallet with ⟨rfl, -⟩ | rfl <;> exact ⟨rfl, rfl, rfl⟩
  | notImplemented htype => exact ⟨rfl, rfl, rfl⟩

/-- The actions a commit stores hold bodies of adjustments. -/
theorem entered_actions (h : Entered D paise H lot d ws) :
    ∀ a ∈ ws.filterMap Write.action?, ∃ body : WalletAdjustBody, a.payload = body.payload := by
  have hnone : ws.filterMap Write.action? = [] →
      ∀ a ∈ ws.filterMap Write.action?, ∃ body : WalletAdjustBody, a.payload = body.payload :=
    fun hws => by simp [hws]
  cases h with
  | onboarded h => cases h; exact hnone rfl
  | filed h => subst h; exact hnone rfl
  | decided h =>
    cases h with
    | approve hreq hwallet => rcases hwallet with ⟨rfl, -⟩ | rfl <;> exact hnone rfl
    | reject hreq => exact hnone rfl
  | traded h =>
    cases h with
    | fill hfill =>
      obtain ⟨quantity, -, hcommission⟩ := hfill.commission
      cases hcommission with
      | exempt hdue => exact hnone rfl
      | charged hdue hamount hwallet => rcases hwallet with ⟨rfl, -⟩ | rfl <;> exact hnone rfl
    | _ => exact hnone rfl
  | acted h =>
    cases h with
    | requested h =>
      cases h with
      | @queued body input id actionId now audit htype hpayload haudit =>
        intro a ha
        obtain rfl := List.mem_singleton.mp ha
        exact ⟨body, hpayload⟩
      | adjusted hwallet => rcases hwallet with ⟨rfl, -⟩ | rfl <;> exact hnone rfl
      | _ => exact hnone rfl
    | watched h =>
      cases h with
      | expired hrows =>
        refine hnone (List.filterMap_eq_nil_iff.mpr fun x hx => ?_)
        obtain ⟨a, -, rfl⟩ := List.mem_map.mp hx
        rfl
      | executed ha happroved hdispatched =>
        exact hnone (by simp [List.filterMap_cons, Write.action?, (dispatched_quiet hdispatched).1])
      | failed => exact hnone rfl

/-- The ledger stays sane. -/
theorem sane_entered (h : Sane d) (hvalid : platform.validAll d ws = true)
    (hentered : Entered D paise H lot d ws) : Sane (platform.applyAll d ws) where
  actions := uniqueActions_applyAll h.actions hvalid
  requests := requestIds_nodup h.requests hvalid
  orders := uniqueOrders_applyAll h.orders hvalid
  stored a ha := by
    rw [actionTerms.applyAll, List.mem_append] at ha
    exact ha.elim (h.stored a) (entered_actions hentered a)

/-- Both legs of an adjustment of at most four decimals are positive. -/
theorem pair_pos {payload : WalletAdjustPayload} {m : Money} {wallet : Wallet} {referenceId : String}
    {x y : LedgerEntry} (hpair : AdjustPair D payload m wallet referenceId x y) (hscale : m.scale ≤ 4) :
    0 < x.amount.value ∧ 0 < y.amount.value := by
  have hx := (value_pos x.amount).mpr (insert_passed hpair.positive hscale hpair.amountA)
  exact ⟨hx, by rw [hpair.amountB]; exact hx⟩

/-- A commission is stored as a positive amount exactly when it is at least half
a ten-thousandth. -/
theorem commission_pos {m : Money} {x : Numeric} (h : Numeric.insert m.toString = .ok x) :
    0 < x.value ↔ 1 / 20000 ≤ m.value := by
  rw [value_pos, insert_positive (literal?_toString m) h, litValue_isNegative]

/-- Writes that approve no request and fill no order are sizeable. -/
theorem sizeable_quiet (hrequests : ws.filterMap approved? = []) (horders : ws.filterMap filled? = []) :
    Sizeable lot d ws :=
  ⟨fun r _ hr => by simp [hrequests] at hr, fun o _ ho => by simp [horders] at ho⟩

/-- Both sides hold. -/
theorem sizeable_iff_quiet (hsizeable : Sizeable lot d ws)
    (hpositive : ∀ x ∈ ws.filterMap Write.entry?, 0 < x.amount.value) :
    Sizeable lot d ws ↔ ∀ x ∈ ws.filterMap Write.entry?, 0 < x.amount.value :=
  ⟨fun _ => hpositive, fun _ => hsizeable⟩

theorem request_unique (hsane : Sane d) {r r' : RequestTerms} (hr : r ∈ requestTerms.rows d)
    (hr' : r' ∈ requestTerms.rows d) (hid : r.requestId = r'.requestId) : r = r' := by
  have hnodup : ((requestTerms.rows d).map (·.requestId)).Nodup := by
    simpa [requestTerms, Function.comp_def] using hsane.requests
  exact List.inj_on_of_nodup_map hnodup hr hr' hid

/-- A decision is sizeable exactly when the entry it posts is positive. -/
theorem sizeable_decided (hsane : Sane d) (h : Decided d ws) :
    Sizeable lot d ws ↔ ∀ x ∈ ws.filterMap Write.entry?, 0 < x.amount.value := by
  cases h with
  | @approve req wallet pre entryRow decidedBy decidedAt audit hreq hwallet hbroker hcurrency hentry =>
    have happroved : (pre ++ [Write.insertEntry entryRow, Write.decideRequest req.requestId
        .approved decidedBy decidedAt, Write.insertAudit audit]).filterMap approved? = [req.requestId] := by
      rcases hwallet with ⟨rfl, -⟩ | rfl <;> rfl
    have hfilled : (pre ++ [Write.insertEntry entryRow, Write.decideRequest req.requestId
        .approved decidedBy decidedAt, Write.insertAudit audit]).filterMap filled? = [] := by
      rcases hwallet with ⟨rfl, -⟩ | rfl <;> rfl
    have hentries : (pre ++ [Write.insertEntry entryRow, Write.decideRequest req.requestId
        .approved decidedBy decidedAt, Write.insertAudit audit]).filterMap Write.entry? = [entryRow] := by
      rcases hwallet with ⟨rfl, -⟩ | rfl <;> rfl
    have hamount : entryRow.amount = req.amount := congrArg LedgerEntry.amount hentry
    rw [hentries]
    constructor
    · intro hsizeable x hx
      obtain rfl := List.mem_singleton.mp hx
      rw [hamount]
      exact hsizeable.requests req hreq (by simp [happroved])
    · intro hpositive
      refine ⟨fun r hr hid => ?_, fun o _ ho => by simp [hfilled] at ho⟩
      rw [happroved, List.mem_singleton] at hid
      rw [request_unique hsane hr hreq hid, ← hamount]
      exact hpositive entryRow (by simp)
  | reject hreq => exact sizeable_iff_quiet (sizeable_quiet rfl rfl) (by simp [Write.entry?])

/-- The commission of an order is the product that its fill computes. -/
theorem commissionDue_some {order : OrderRow} {quantity : String} {commission : Money}
    (h : commissionDue lot order quantity = .ok (some commission)) : ∃ perLot lots,
      Money.new lot = .ok perLot ∧ Money.new quantity = .ok lots ∧ commission = perLot.mul lots := by
  obtain ⟨perLot, hlot, h⟩ := Charges.bind_ok h
  obtain ⟨lots, hlots, h⟩ := Charges.bind_ok h
  refine ⟨perLot, lots, hlot, hlots, ?_⟩
  have hdue := Except.ok.inj h
  split at hdue
  · exact (Option.some.inj hdue).symm
  · simp at hdue

/-- A fill is sizeable exactly when the debit it posts, if any, is positive. -/
theorem sizeable_fill (hsane : Sane d) {o : Order} {trade : Trade} {rest : List Write}
    (h : FillCommit H lot d o trade rest) : Sizeable lot d (.insertTrade trade :: rest) ↔
      ∀ x ∈ (.insertTrade trade :: rest).filterMap Write.entry?, 0 < x.amount.value := by
  obtain ⟨quantity, hquantity, hcommission⟩ := h.commission
  have hone : ∀ {us : List Write}, us.filterMap approved? = [] → us.filterMap filled? = [] →
      (Sizeable lot d (.insertTrade trade :: us) ↔ Collectable lot o.toOrderTerms) := by
    intro us happroved hfilled
    have hids : (Write.insertTrade trade :: us).filterMap filled? = [trade.orderId] :=
      congrArg (trade.orderId :: ·) hfilled
    constructor
    · exact fun hsizeable => hsizeable.orders _ h.order (by simp [hids, h.fills.orderId])
    · intro hcollectable
      refine ⟨fun r _ hr => ?_, fun o' ho' hid => ?_⟩
      · rw [List.filterMap_cons_none rfl, happroved] at hr
        simp at hr
      · rw [hids, List.mem_singleton, h.fills.orderId] at hid
        rw [List.inj_on_of_nodup_map hsane.orders ho' h.order hid]
        exact hcollectable
  cases hcommission with
  | exempt hdue =>
    have hnot : ¬ Due lot o.toOrderTerms := fun hd => by
      simpa using (commissionDue_iff hquantity hdue).mpr hd
    refine sizeable_iff_quiet ((hone rfl rfl).mpr fun hd => absurd hd hnot) ?_
    simp [List.filterMap_cons, Write.entry?]
  | @charged commission charge wallet pre entryRow hdue hamount hwallet hentry =>
    have hd : Due lot o.toOrderTerms := (commissionDue_iff hquantity hdue).mp rfl
    obtain ⟨perLot, lots, hlot, hlots, rfl⟩ := commissionDue_some hdue
    have hentries : (Write.insertTrade trade :: ([.insertCharge charge] ++ pre ++
        [.insertEntry entryRow])).filterMap Write.entry? = [entryRow] := by
      rcases hwallet with ⟨rfl, -⟩ | rfl <;> rfl
    have hcollectable : Collectable lot o.toOrderTerms ↔ 1 / 20000 ≤ (perLot.mul lots).value := by
      refine ⟨fun hc => hc hd perLot quantity lots hlot hquantity hlots, fun hle _ p q l hp hq hl => ?_⟩
      obtain rfl := Except.ok.inj (hlot.symm.trans hp)
      obtain rfl := Except.ok.inj (hquantity.symm.trans hq)
      obtain rfl := Except.ok.inj (hlots.symm.trans hl)
      exact hle
    rw [hone (by rcases hwallet with ⟨rfl, -⟩ | rfl <;> rfl)
      (by rcases hwallet with ⟨rfl, -⟩ | rfl <;> rfl), hcollectable, ← commission_pos hamount,
      ← hentry.amount, hentries]
    simp

/-- The entries of a dispatched adjustment are positive. -/
theorem dispatched_pos {type : PendingActionType} {body : WalletAdjustBody} {result : DispatchResult}
    (h : Dispatched D d type body.payload ws result) :
    ∀ x ∈ ws.filterMap Write.entry?, 0 < x.amount.value := by
  generalize hpayload : body.payload = payload at h
  cases h with
  | notImplemented htype => simp
  | @walletAdjust payload fields amount wallet referenceId pre x y hfields hwallet hpair =>
    rw [← hpayload, ofJson_payload] at hfields
    obtain rfl := Except.ok.inj hfields
    have hparsed : Money.new body.amount = .ok amount := hpair.parsed
    obtain ⟨hx, hy⟩ := pair_pos hpair (scale_isAmount body.decimal hparsed)
    rcases hwallet with ⟨rfl, -⟩ | rfl <;> simp [List.filterMap_cons, Write.entry?, hx, hy]

/-- What the watcher and the endpoints around actions post is positive. -/
theorem positive_acted (hsane : Sane d) (h : Acted D paise d ws) :
    Sizeable lot d ws ∧ ∀ x ∈ ws.filterMap Write.entry?, 0 < x.amount.value := by
  cases h with
  | requested h =>
    cases h with
    | adjusted hwallet hpair hscale =>
      obtain ⟨hx, hy⟩ := pair_pos hpair hscale
      rcases hwallet with ⟨rfl, -⟩ | rfl
      · exact ⟨sizeable_quiet rfl rfl, by simp [List.filterMap_cons, Write.entry?, hx, hy]⟩
      · exact ⟨sizeable_quiet rfl rfl, by simp [List.filterMap_cons, Write.entry?, hx, hy]⟩
    | _ => exact ⟨sizeable_quiet rfl rfl, by simp [List.filterMap_cons, Write.entry?]⟩
  | watched h =>
    cases h with
    | @expired rows hrows =>
      have hnone : ∀ {ρ : Type} (f : Write → Option ρ), (∀ actionId, f (.changeAction actionId .expire) =
          none) → (rows.map fun a => Write.changeAction a.actionId .expire).filterMap f = [] := by
        intro ρ f hf
        refine List.filterMap_eq_nil_iff.mpr fun x hx => ?_
        obtain ⟨a, -, rfl⟩ := List.mem_map.mp hx
        exact hf _
      rw [hnone Write.entry? fun _ => rfl]
      exact ⟨sizeable_quiet (hnone _ fun _ => rfl) (hnone _ fun _ => rfl), by simp⟩
    | @executed a now us result approvedBy id auditId ha happroved hdispatched =>
      obtain ⟨body, hbody⟩ := hsane.stored _ (List.mem_map_of_mem ha)
      have hpayload : a.payload = body.payload := hbody
      obtain ⟨-, happroved, hfilled⟩ := dispatched_quiet hdispatched
      rw [hpayload] at hdispatched
      refine ⟨sizeable_quiet ?_ ?_, ?_⟩
      · simp [List.filterMap_cons, approved?, happroved]
      · simp [List.filterMap_cons, filled?, hfilled]
      · simpa [List.filterMap_cons, Write.entry?] using dispatched_pos hdispatched
    | failed => exact ⟨sizeable_quiet rfl rfl, by simp [List.filterMap_cons, Write.entry?]⟩

/-- A commit is sizeable exactly when the entries it posts are positive. -/
theorem sizeable_iff (hsane : Sane d) (h : Entered D paise H lot d ws) :
    Sizeable lot d ws ↔ ∀ x ∈ ws.filterMap Write.entry?, 0 < x.amount.value := by
  cases h with
  | onboarded h =>
    cases h with
    | intro hwallet hamount =>
      refine sizeable_iff_quiet (sizeable_quiet rfl rfl) ?_
      simp [List.filterMap_cons, Write.entry?, value_pos, hamount]
  | filed h =>
    subst h
    exact sizeable_iff_quiet (sizeable_quiet rfl rfl) (by simp [List.filterMap_cons, Write.entry?])
  | decided h => exact sizeable_decided hsane h
  | acted h =>
    obtain ⟨hsizeable, hpositive⟩ := positive_acted hsane h
    exact sizeable_iff_quiet hsizeable hpositive
  | traded h =>
    cases h with
    | fill hfill => exact sizeable_fill hsane hfill
    | _ => exact sizeable_iff_quiet (sizeable_quiet rfl rfl) (by simp [List.filterMap_cons, Write.entry?])

end Commits

/-- What the calls commit. -/
def ledgerContract (D : Driver) (paise : ℕ) (H : Sha256) (lot : String) : Contract platform where
  inv d _ := Sane d
  guar v ws := Entered D paise H lot v.committed ws
  inv_mono h _ := h
  inv_commit h hvalid hguar := sane_entered h hvalid hguar

section Runs

variable {D : Driver} {K : OnboardingConfig} {paise : ℕ} {H : Sha256} {lot : String} {d : Store} {n : ℕ}
variable {floor : JsNumber} {es : List (Event LedgerCall Input Failure)}

/-- Every call keeps a contract that allows what the calls commit. -/
theorem keeps_ledgerCalls {C : Contract platform} {t : ℕ} (call : LedgerCall)
    (hids : ∀ d n, C.inv d n → UniqueActions d) (hopened : ∀ v ws, Opened ws → C.guar v ws)
    (hfiled : ∀ v (row : DepositRequest), row.status = .pending → C.guar v [.insertRequest row])
    (hdecided : ∀ v ws, Decided v.committed ws → C.guar v ws)
    (hacted : ∀ v ws, Acted D paise v.committed ws → C.guar v ws)
    (htraded : ∀ v ws, Traded H lot v.committed ws → C.guar v ws) :
    C.Keeps t (ledgerCalls D K paise H lot floor call) none d n := by
  cases call with
  | createBroker ctx body =>
    rw [ledgerCalls, bind_eq, Contract.Keeps, wp_bind]
    exact wp_mono _ (fun _ _ _ _ _ => trivial) (fun _ _ _ _ h => h) (keeps_createBroker_opened hopened)
  | createDepositRequest user body =>
    rw [ledgerCalls, bind_eq, Contract.Keeps, wp_bind]
    exact wp_mono _ (fun _ _ _ _ _ => trivial) (fun _ _ _ _ h => h) (keeps_createDepositRequest hfiled)
  | createWithdrawalRequest user body =>
    rw [ledgerCalls, bind_eq, Contract.Keeps, wp_bind]
    exact wp_mono _ (fun _ _ _ _ _ => trivial) (fun _ _ _ _ h => h)
      (keeps_createWithdrawalRequest hfiled)
  | decide call =>
    rw [ledgerCalls, bind_eq, Contract.Keeps, wp_bind]
    exact wp_mono _ (fun _ _ _ _ _ => trivial) (fun _ _ _ _ h => h) (keeps_decision hdecided)
  | action call => exact keeps_actions hids hacted
  | order call => exact keeps_orders htraded call

/-- Every call keeps the contract. -/
theorem keeps_ledger {t : ℕ} (call : LedgerCall) :
    (ledgerContract D paise H lot).Keeps t (ledgerCalls D K paise H lot floor call) none d n :=
  keeps_ledgerCalls call (fun _ _ h => h.actions) (fun _ _ h => .onboarded (onboarded_opened h))
    (fun _ _ _ => .filed rfl) (fun _ _ h => .decided h) (fun _ _ h => .acted h) fun _ _ h => .traded h

/-- The ledger is sane in every state of a run, and every commit of it does what
one of the calls does. -/
theorem entered_takes (hsane : Sane d) {w w' : LedgerWorld} {e : Event LedgerCall Input Failure}
    (htakes : Takes (World.step platform (ledgerCalls D K paise H lot floor)) (World.initial d n) es
      w e w') :
    Sane w.db ∧ ∀ t ws, w.commit? platform e = some (t, ws) →
      Entered D paise H lot w.db ws ∧ w'.db.entries = w.db.entries ++ ws.filterMap Write.entry? := by
  have hsound : Sound (ledgerContract D paise H lot) w :=
    sound_visits (fun _ call _ _ _ => keeps_ledger call) (sound_initial hsane) (takes_before htakes)
  refine ⟨hsound.inv, fun t ws hc => ?_⟩
  have hstep := takes_step htakes
  have hdb := step_db platform hstep
  rw [hc] at hdb
  obtain ⟨v, hv⟩ := committed_of_step hsound hstep hc
  have hguar : Entered D paise H lot v.committed ws := hv.guar
  rw [hv.committed] at hguar
  refine ⟨hguar, ?_⟩
  rw [hdb]
  exact entryRows.applyAll w.db ws

/-- In every run the entries are positive in every state exactly when every
commit is sizeable. -/
theorem positive_iff (hsane : Sane d) (hpositive : Positive d) :
    Along (World.step platform (ledgerCalls D K paise H lot floor)) (CommitsSizeable lot)
        (World.initial d n) es ↔
      ∀ w, Visits (World.step platform (ledgerCalls D K paise H lot floor)) (World.initial d n) es w →
        Positive w.db := by
  constructor
  · intro hsizeable w hvisits
    refine visits_invariant (I := fun w : LedgerWorld => Positive w.db)
      (C := fun w e => ∀ w', World.step platform (ledgerCalls D K paise H lot floor) w e = some w' →
        Positive w.db → Positive w'.db) (fun w e w' hw he hstep => he w' hstep hw) hpositive
      ((along_iff_takes _ _).mpr fun w e w' htakes => ?_) hvisits
    rintro _ hstep hw
    obtain rfl : w' = _ := Option.some.inj ((takes_step htakes).symm.trans hstep)
    obtain ⟨hids, hcommits⟩ := entered_takes hsane htakes
    cases hc : w.commit? platform e with
    | none =>
      have hdb := step_db platform hstep
      rw [hc] at hdb
      rw [hdb]
      exact hw
    | some commit =>
      obtain ⟨t, ws⟩ := commit
      obtain ⟨hentered, hentries⟩ := hcommits t ws hc
      have hnew := (sizeable_iff hids hentered).mp
        ((along_iff_takes _ _).mp hsizeable w e w' htakes t ws hc)
      intro x hx
      rw [hentries, List.mem_append] at hx
      exact hx.elim (hw x) (hnew x)
  · intro hall
    refine (along_iff_takes _ _).mpr fun w e w' htakes t ws hc => ?_
    obtain ⟨hids, hcommits⟩ := entered_takes hsane htakes
    obtain ⟨hentered, hentries⟩ := hcommits t ws hc
    refine (sizeable_iff hids hentered).mpr fun x hx => hall w' (takes_after htakes) x ?_
    rw [hentries]
    exact List.mem_append_right _ hx

end Runs

/-- The settings of the example. -/
def plainOnboarding : OnboardingConfig := ⟨id, fun _ => true⟩

/-- A deposit is filed and approved. -/
def deposit (amount : String) : List (Event LedgerCall Input Failure) :=
  .start 1 (.createDepositRequest (some brokerUser) (.obj [("amount", .str amount)])) ::
    [quiet, drawing "R1", quiet, quiet].map (Event.step 1) ++
  .start 2 (.decide (.approve ⟨"A1", "a1", none, none⟩ "R1")) ::
    [quiet, quiet, quiet, drawing "W1", drawing "E1", quiet, drawing "L1", quiet].map (Event.step 2)

/-- The worlds of the example. -/
abbrev ledgerStep := World.step platform
  (ledgerCalls plainDriver plainOnboarding 1000000 someDigest "4" fiveThousand)

/-- Nothing is stored yet. -/
theorem sane_empty : Sane Store.empty :=
  ⟨List.nodup_nil, List.nodup_nil, List.nodup_nil, by simp [actionTerms, Store.empty]⟩

/-- A deposit of nothing is filed, approved and booked. -/
theorem worthless_entry : Sane Store.empty ∧ Positive Store.empty ∧ ∃ es w,
    run ledgerStep (World.initial Store.empty 0) es = some w ∧ ∃ x ∈ w.db.entries, x.amount.value = 0 := by
  obtain ⟨w, hrun, hcheck⟩ := run_reaches ledgerStep (World.initial Store.empty 0) (deposit "0")
    (fun w => w.db.entries.any fun x => x.amount.value = 0) (by decide +kernel)
  obtain ⟨x, hx, hzero⟩ := List.any_eq_true.mp hcheck
  exact ⟨sane_empty, by simp [Positive, Store.empty], deposit "0", w, hrun, x, hx, of_decide_eq_true hzero⟩

theorem positive_deposit : ∃ w, run ledgerStep (World.initial Store.empty 0) (deposit "12000") = some w ∧
    w.db.entries.length = 1 ∧
    Along ledgerStep (CommitsSizeable "4") (World.initial Store.empty 0) (deposit "12000") := by
  obtain ⟨w, hrun, hcheck⟩ := run_reaches ledgerStep (World.initial Store.empty 0) (deposit "12000")
    (fun w => w.db.entries.length = 1) (by decide +kernel)
  have hempty : Positive Store.empty := by simp [Positive, Store.empty]
  have hsteps : Along ledgerStep
      (fun w e => ((ledgerStep w e).all fun w' => w'.db.entries.all fun x => 0 < x.amount.value) = true)
      (World.initial Store.empty 0) (deposit "12000") := by
    decide +kernel
  refine ⟨w, hrun, of_decide_eq_true hcheck, (positive_iff sane_empty hempty).mpr fun u hvisits => ?_⟩
  refine visits_invariant (I := fun w : LedgerWorld => Positive w.db) (fun w e w' _ he hstep => ?_)
    hempty hsteps hvisits
  rw [hstep, Option.all_some] at he
  exact fun x hx => of_decide_eq_true (List.all_eq_true.mp he x hx)

end LpPlatform.PositiveEntries
