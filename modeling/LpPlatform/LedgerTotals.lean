import LpPlatform.PositiveEntries

/-!
# What balances are made of

An entry is a deposit that credits its wallet, a withdrawal or a charge that
debits it, or one leg of an adjustment, whose other leg is on the same wallet.
Nothing posts an entry of a trade. So on any wallets and in every state of a
run the balance is the deposits without the withdrawals and the charges, and
the charges of the ledger are those of the trading tables.
-/

namespace LpPlatform.LedgerTotals

open Amounts ApprovalWatcher AuditInterceptor BrokersAdmin DepositsAdmin FourEyes HashChain
open InterferenceLogic JsValues Ledger OrderFills OrderWorker PendingActions PositiveEntries RowStore
open Sessions StatementProgram StepRuns Tables TradeChain WalletAdjust WithdrawalFloor

/-- The balance of some wallets together, in ten-thousandths. -/
def signedOn (on : String → Bool) (entries : List LedgerEntry) : ℤ :=
  ((entries.filter fun e => on e.walletId).map signedUnits).sum

/-- The amounts of one type of entry on some wallets. -/
def typeOn (type : LedgerReferenceType) (on : String → Bool) (entries : List LedgerEntry) : ℤ :=
  ((entries.filter fun e => e.referenceType = type ∧ on e.walletId).map (·.amount.units)).sum

/-- What adjustments leave on some wallets. -/
def adjustedOn (on : String → Bool) (entries : List LedgerEntry) : ℤ :=
  signedOn on (entries.filter fun e => e.referenceType = .adjustment)

/-- The amounts of all charges. -/
def chargeUnits (charges : List Charge) : ℤ := (charges.map (·.amount.units)).sum

/-- Every wallet. -/
def everywhere (_ : String) : Bool := true

/-- An entry has the direction of its type, and no trade posts one. -/
def Oriented (e : LedgerEntry) : Prop :=
  match e.referenceType with
  | .deposit => e.direction = .credit
  | .withdrawal | .charge => e.direction = .debit
  | .adjustment => True
  | .trade => False

/-- The ledger balances. -/
structure Accounted (d : Store) : Prop where
  /-- A wallet id names one wallet. -/
  wallets : (d.wallets.map (·.walletId)).Nodup
  /-- Every entry is on a wallet. -/
  housed : ∀ e ∈ d.entries, ∃ w ∈ d.wallets, w.walletId = e.walletId
  /-- Every entry has the direction of its type. -/
  oriented : ∀ e ∈ d.entries, Oriented e
  /-- Adjustments leave nothing on any wallets. -/
  adjusted : ∀ on, adjustedOn on d.entries = 0
  /-- The charges of trades are the charges of the ledger. -/
  charged : chargeUnits d.charges = typeOn .charge everywhere d.entries

/-- Writes that keep the ledger balanced over the rows they find. -/
structure Balanced (d : Store) (ws : List Write) : Prop where
  housed : ∀ e ∈ ws.filterMap Write.entry?,
    ∃ w ∈ d.wallets ++ ws.filterMap Write.wallet?, w.walletId = e.walletId
  oriented : ∀ e ∈ ws.filterMap Write.entry?, Oriented e
  adjusted : ∀ on, adjustedOn on (ws.filterMap Write.entry?) = 0
  charged : chargeUnits (ws.filterMap Write.charge?) = typeOn .charge everywhere (ws.filterMap Write.entry?)

/-- What a commit of the ledger's calls does. -/
inductive Posted (D : Driver) (paise : ℕ) (H : Sha256) (lot : String) (d : Store) (ws : List Write) :
    Prop where
  | opened (h : Opened ws)
  | filed {row : DepositRequest} (h : ws = [.insertRequest row])
  | decided (h : Decided d ws)
  | acted (h : Acted D paise d ws)
  | traded (h : Traded H lot d ws)

section Sums

variable {type : LedgerReferenceType} {on : String → Bool} {entries : List LedgerEntry}

theorem signedOn_append (es fs : List LedgerEntry) :
    signedOn on (es ++ fs) = signedOn on es + signedOn on fs := by simp [signedOn]

theorem typeOn_append (es fs : List LedgerEntry) :
    typeOn type on (es ++ fs) = typeOn type on es + typeOn type on fs := by simp [typeOn]

theorem adjustedOn_append (es fs : List LedgerEntry) :
    adjustedOn on (es ++ fs) = adjustedOn on es + adjustedOn on fs := by
  rw [adjustedOn, List.filter_append, signedOn_append, adjustedOn, adjustedOn]

theorem chargeUnits_append (cs ds : List Charge) :
    chargeUnits (cs ++ ds) = chargeUnits cs + chargeUnits ds := by simp [chargeUnits]

theorem signedOn_cons (e : LedgerEntry) : signedOn on (e :: entries) =
    (if on e.walletId then signedUnits e else 0) + signedOn on entries := by
  cases h : on e.walletId <;> simp [signedOn, h]

theorem typeOn_cons (e : LedgerEntry) : typeOn type on (e :: entries) =
    (if e.referenceType = type ∧ on e.walletId then e.amount.units else 0) + typeOn type on entries := by
  by_cases h : e.referenceType = type ∧ on e.walletId = true <;> simp [typeOn, h]

theorem adjustedOn_cons (e : LedgerEntry) : adjustedOn on (e :: entries) =
    (if e.referenceType = .adjustment then (if on e.walletId then signedUnits e else 0) else 0) +
      adjustedOn on entries := by
  by_cases h : e.referenceType = .adjustment
  · simp only [adjustedOn, List.filter_cons, h, decide_true, if_true, signedOn_cons]
  · simp [adjustedOn, h]

/-- Without adjustments they leave nothing. -/
theorem adjustedOn_none (h : ∀ e ∈ entries, e.referenceType ≠ .adjustment) : adjustedOn on entries = 0 := by
  have hnone : entries.filter (fun e => e.referenceType = .adjustment) = [] :=
    List.filter_eq_nil_iff.mpr fun e he => by simp [h e he]
  rw [adjustedOn, hnone]
  rfl

theorem typeOn_none (h : ∀ e ∈ entries, e.referenceType ≠ type) : typeOn type on entries = 0 := by
  have hnone : entries.filter (fun e => e.referenceType = type ∧ on e.walletId) = [] :=
    List.filter_eq_nil_iff.mpr fun e he => by simp [h e he]
  rw [typeOn, hnone]
  rfl

/-- The balance of one wallet. -/
theorem signedOn_wallet (walletId : String) :
    signedOn (fun w => decide (w = walletId)) entries = balanceUnits entries walletId := rfl

/-- Where entries have the direction of their type, the balance is made of the
types. -/
theorem signedOn_oriented (h : ∀ e ∈ entries, Oriented e) : signedOn on entries =
    typeOn .deposit on entries - typeOn .withdrawal on entries - typeOn .charge on entries +
      adjustedOn on entries := by
  induction entries with
  | nil => rfl
  | cons e entries ih =>
    have hhead := h e List.mem_cons_self
    have htail := ih fun x hx => h x (List.mem_cons_of_mem e hx)
    rw [signedOn_cons, typeOn_cons, typeOn_cons, typeOn_cons, adjustedOn_cons, htail]
    cases htype : e.referenceType <;> simp only [Oriented, htype] at hhead <;>
      cases hon : on e.walletId <;> simp [signedUnits, hhead] <;> omega

end Sums

section Writing

variable {D : Driver} {paise : ℕ} {H : Sha256} {lot : String} {d : Store} {ws : List Write}

/-- Writes of no entry and no charge. -/
theorem balanced_quiet (hentries : ws.filterMap Write.entry? = [])
    (hcharges : ws.filterMap Write.charge? = []) : Balanced d ws where
  housed e he := by simp [hentries] at he
  oriented e he := by simp [hentries] at he
  adjusted on := by rw [hentries]; rfl
  charged := by rw [hentries, hcharges]; rfl

/-- One entry on a wallet that is there or comes with it, and the charges that
it says. -/
theorem balanced_one {e : LedgerEntry} {wallet : Wallet} (hentries : ws.filterMap Write.entry? = [e])
    (hwallet : wallet ∈ d.wallets ++ ws.filterMap Write.wallet?) (hid : e.walletId = wallet.walletId)
    (horiented : Oriented e) (htype : e.referenceType ≠ .adjustment)
    (hcharges : chargeUnits (ws.filterMap Write.charge?) = typeOn .charge everywhere [e]) :
    Balanced d ws where
  housed x hx := by
    rw [hentries, List.mem_singleton] at hx
    exact ⟨wallet, hwallet, by rw [hx, hid]⟩
  oriented x hx := by
    rw [hentries, List.mem_singleton] at hx
    exact hx ▸ horiented
  adjusted on := by
    rw [hentries]
    exact adjustedOn_none fun x hx => List.mem_singleton.mp hx ▸ htype
  charged := by rw [hentries, hcharges]

/-- Both legs of an adjustment. -/
theorem balanced_pair {payload : WalletAdjustPayload} {amount : Money} {wallet : Wallet}
    {referenceId : String} {a b : LedgerEntry} (hentries : ws.filterMap Write.entry? = [a, b])
    (hwallet : wallet ∈ d.wallets ++ ws.filterMap Write.wallet?)
    (hcharges : ws.filterMap Write.charge? = [])
    (hpair : AdjustPair D payload amount wallet referenceId a b) : Balanced d ws where
  housed x hx := by
    rw [hentries, List.mem_pair] at hx
    rcases hx with rfl | rfl
    · exact ⟨wallet, hwallet, hpair.walletA.symm⟩
    · exact ⟨wallet, hwallet, hpair.walletB.symm⟩
  oriented x hx := by
    rw [hentries, List.mem_pair] at hx
    rcases hx with rfl | rfl
    · simp [Oriented, hpair.typeA]
    · simp [Oriented, hpair.typeB]
  adjusted on := by
    have hcancel : signedUnits a + signedUnits b = 0 := by
      cases hdir : a.direction <;> simp [signedUnits, hpair.directionB, hpair.amountB, hdir, opposite]
    rw [hentries, adjustedOn_cons, adjustedOn_cons, if_pos hpair.typeA, if_pos hpair.typeB,
      hpair.walletA, hpair.walletB]
    cases on wallet.walletId
    · rfl
    · simpa [adjustedOn, signedOn] using hcancel
  charged := by
    rw [hentries, hcharges, typeOn_none fun x hx => ?_]
    · rfl
    · rcases List.mem_pair.mp hx with rfl | rfl
      · simp [hpair.typeA]
      · simp [hpair.typeB]

/-- An opening balance is a deposit. -/
theorem balanced_opened (h : Opened ws) : Balanced d ws := by
  cases h with
  | @intro wallet amount id entryId audit hamount =>
    exact balanced_one rfl (List.mem_append_right _ List.mem_cons_self) rfl rfl
      (by simp [openingEntry]) rfl

/-- A decision posts a deposit or a withdrawal, or nothing. -/
theorem balanced_decided (h : Decided d ws) : Balanced d ws := by
  cases h with
  | @approve req wallet pre entryRow decidedBy decidedAt audit hreq hwallet hbroker hcurrency hentry =>
    have hid : entryRow.walletId = wallet.walletId := congrArg LedgerEntry.walletId hentry
    have hkind : entryRow.referenceType = .withdrawal ∧ entryRow.direction = .debit ∨
        entryRow.referenceType = .deposit ∧ entryRow.direction = .credit := by
      rw [hentry]
      cases hk : req.kind <;> simp [approvalEntry, hk]
    have horiented : Oriented entryRow := by
      rcases hkind with ⟨htype, hdirection⟩ | ⟨htype, hdirection⟩ <;> simp [Oriented, htype, hdirection]
    have hnone : entryRow.referenceType ≠ .adjustment ∧ entryRow.referenceType ≠ .charge := by
      rcases hkind with ⟨htype, -⟩ | ⟨htype, -⟩ <;> simp [htype]
    have hzero : typeOn .charge everywhere [entryRow] = 0 :=
      typeOn_none fun x hx => List.mem_singleton.mp hx ▸ hnone.2
    rcases hwallet with ⟨rfl, hmem⟩ | rfl
    · exact balanced_one rfl (List.mem_append_left _ hmem) hid horiented hnone.1 hzero.symm
    · exact balanced_one rfl (List.mem_append_right _ List.mem_cons_self) hid horiented hnone.1 hzero.symm
  | reject hreq => exact balanced_quiet rfl rfl

/-- A fill posts the charge that it records, or nothing. -/
theorem balanced_traded (h : Traded H lot d ws) : Balanced d ws := by
  cases h with
  | fill hfill =>
    obtain ⟨quantity, -, hcommission⟩ := hfill.commission
    cases hcommission with
    | exempt hdue => exact balanced_quiet rfl rfl
    | @charged commission charge wallet pre entryRow hdue hamount hwallet hentry =>
      have horiented : Oriented entryRow := by simp [Oriented, hentry.referenceType, hentry.direction]
      have hnone : entryRow.referenceType ≠ .adjustment := by simp [hentry.referenceType]
      have hcharges : chargeUnits [charge] = typeOn .charge everywhere [entryRow] := by
        simp [chargeUnits, typeOn, everywhere, hentry.referenceType, hentry.amount]
      rcases hwallet with ⟨rfl, hmem⟩ | rfl
      · exact balanced_one rfl (List.mem_append_left _ hmem) hentry.walletId horiented hnone hcharges
      · exact balanced_one rfl (List.mem_append_right _ List.mem_cons_self) hentry.walletId horiented
          hnone hcharges
  | _ => exact balanced_quiet rfl rfl

/-- A dispatched adjustment posts both legs, and any other action nothing. -/
theorem balanced_dispatched {a : PendingAction} {now : Instant} {audit : AuditLog}
    {type : PendingActionType} {payload : Json} {result : DispatchResult}
    (h : Dispatched D d type payload ws result) :
    Balanced d (.changeAction a.actionId (.execute now) :: ws ++ [.insertAudit audit]) := by
  cases h with
  | notImplemented htype => exact balanced_quiet rfl rfl
  | walletAdjust hfields hwallet hpair =>
    rcases hwallet with ⟨rfl, hmem⟩ | rfl
    · exact balanced_pair rfl (List.mem_append_left _ hmem) rfl hpair
    · exact balanced_pair rfl (List.mem_append_right _ List.mem_cons_self) rfl hpair

/-- Endpoints and watchers of actions post adjustments only. -/
theorem balanced_acted (h : Acted D paise d ws) : Balanced d ws := by
  cases h with
  | requested h =>
    cases h with
    | adjusted hwallet hpair =>
      rcases hwallet with ⟨rfl, hmem⟩ | rfl
      · exact balanced_pair rfl (List.mem_append_left _ hmem) rfl hpair
      · exact balanced_pair rfl (List.mem_append_right _ List.mem_cons_self) rfl hpair
    | _ => exact balanced_quiet rfl rfl
  | watched h =>
    cases h with
    | expired hrows =>
      refine balanced_quiet (List.filterMap_eq_nil_iff.mpr fun x hx => ?_)
        (List.filterMap_eq_nil_iff.mpr fun x hx => ?_)
      · obtain ⟨a, -, rfl⟩ := List.mem_map.mp hx
        rfl
      · obtain ⟨a, -, rfl⟩ := List.mem_map.mp hx
        rfl
    | executed ha happroved hdispatched => exact balanced_dispatched hdispatched
    | failed => exact balanced_quiet rfl rfl

/-- Every commit of the calls is balanced. -/
theorem balanced_posted (h : Posted D paise H lot d ws) : Balanced d ws := by
  cases h with
  | opened h => exact balanced_opened h
  | filed h =>
    subst h
    exact balanced_quiet rfl rfl
  | decided h => exact balanced_decided h
  | acted h => exact balanced_acted h
  | traded h => exact balanced_traded h

/-- Balanced writes keep the ledger balanced. -/
theorem accounted_applyAll (h : Accounted d) (hvalid : platform.validAll d ws = true)
    (hws : Balanced d ws) : Accounted (platform.applyAll d ws) := by
  have hwallets := walletRows.applyAll d ws
  have hentries : (platform.applyAll d ws).entries = d.entries ++ ws.filterMap Write.entry? :=
    entryRows.applyAll d ws
  have hcharges : (platform.applyAll d ws).charges = d.charges ++ ws.filterMap Write.charge? :=
    chargeRows.applyAll d ws
  refine ⟨walletIds_nodup h.wallets hvalid, fun e he => ?_, fun e he => ?_, fun on => ?_, ?_⟩
  · have hnew : (platform.applyAll d ws).wallets = d.wallets ++ ws.filterMap Write.wallet? := hwallets
    rw [hentries, List.mem_append] at he
    rw [hnew]
    rcases he with he | he
    · obtain ⟨w, hw, hid⟩ := h.housed e he
      exact ⟨w, List.mem_append_left _ hw, hid⟩
    · exact hws.housed e he
  · rw [hentries, List.mem_append] at he
    exact he.elim (h.oriented e) (hws.oriented e)
  · rw [hentries, adjustedOn_append, h.adjusted, hws.adjusted, add_zero]
  · rw [hentries, hcharges, chargeUnits_append, typeOn_append, h.charged, hws.charged]

theorem entered_posted (h : Posted D paise H lot d ws) : Entered D paise H lot d ws := by
  cases h with
  | opened h => exact .onboarded (onboarded_opened h)
  | filed h => exact .filed h
  | decided h => exact .decided h
  | acted h => exact .acted h
  | traded h => exact .traded h

end Writing

/-- The ledger's calls keep the ledger sane and balanced. -/
def totalsContract (D : Driver) (paise : ℕ) (H : Sha256) (lot : String) : Contract platform where
  inv d _ := Sane d ∧ Accounted d
  guar v ws := Posted D paise H lot v.committed ws
  inv_mono h _ := h
  inv_commit h hvalid hguar :=
    ⟨sane_entered h.1 hvalid (entered_posted hguar), accounted_applyAll h.2 hvalid (balanced_posted hguar)⟩

section Runs

variable {D : Driver} {K : OnboardingConfig} {paise : ℕ} {H : Sha256} {lot : String} {d : Store} {n : ℕ}
variable {floor : JsNumber} {es : List (Event LedgerCall Input Failure)} {w : LedgerWorld}

/-- Every call keeps the contract. -/
theorem keeps_totals {t : ℕ} (call : LedgerCall) :
    (totalsContract D paise H lot).Keeps t (ledgerCalls D K paise H lot floor call) none d n :=
  keeps_ledgerCalls call (fun _ _ h => h.1.actions) (fun _ _ h => .opened h) (fun _ _ _ => .filed rfl)
    (fun _ _ h => .decided h) (fun _ _ h => .acted h) fun _ _ h => .traded h

/-- The ledger balances in every state of every run. -/
theorem accounted_visits (hsane : Sane d) (haccounted : Accounted d)
    (h : Visits (World.step platform (ledgerCalls D K paise H lot floor)) (World.initial d n) es w) :
    Accounted w.db := by
  have hsound : Sound (totalsContract D paise H lot) w :=
    sound_visits (fun _ call _ _ _ => keeps_totals call) (sound_initial ⟨hsane, haccounted⟩) h
  exact hsound.inv.2

/-- In every state of every run the balance of a wallet, and of any wallets
together, is the deposits without the withdrawals and the charges on them, and
the charges on all wallets are the charges of the trades. -/
theorem balances_conserved (hsane : Sane d) (haccounted : Accounted d)
    (h : Visits (World.step platform (ledgerCalls D K paise H lot floor)) (World.initial d n) es w) :
    (∀ walletId, balance w.db walletId = some
      (((typeOn .deposit (fun x => x = walletId) w.db.entries -
        typeOn .withdrawal (fun x => x = walletId) w.db.entries -
        typeOn .charge (fun x => x = walletId) w.db.entries : ℤ) : ℚ) / 10000)) ∧
    (∀ on, signedOn on w.db.entries = typeOn .deposit on w.db.entries -
      typeOn .withdrawal on w.db.entries - typeOn .charge on w.db.entries) ∧
    chargeUnits w.db.charges = typeOn .charge everywhere w.db.entries := by
  have hkept := accounted_visits hsane haccounted h
  have hon : ∀ on, signedOn on w.db.entries = typeOn .deposit on w.db.entries -
      typeOn .withdrawal on w.db.entries - typeOn .charge on w.db.entries := fun on => by
    rw [signedOn_oriented hkept.oriented, hkept.adjusted, add_zero]
  exact ⟨fun walletId => by rw [balance_eq, ← signedOn_wallet, hon], hon, hkept.charged⟩

end Runs

theorem accounted_empty : Accounted Store.empty where
  wallets := List.nodup_nil
  housed e he := by simp [Store.empty] at he
  oriented e he := by simp [Store.empty] at he
  adjusted on := rfl
  charged := rfl

/-- A deposit and a fill, whose commission is taken from the wallet of the
deposit. -/
def depositAndFill : List (Event LedgerCall Input Failure) :=
  deposit "12000" ++
  (.start 3 (.order (.place (limitOrder "C1" "1" "1.2345") (some ⟨"B1", "K1"⟩) none)) ::
    [drawing "01HX0000000000000000000001", quiet, drawing "L2"].map (Event.step 3)) ++
  .start 4 (.order .runJob) ::
    [quiet, quiet, drawing "01HX0000000000000000000002", quiet, quiet, quiet, quiet, quiet,
      drawing "E2", quiet].map (Event.step 4)

theorem balances_conserved_once : ∃ w : LedgerWorld,
    run (World.step platform (ledgerCalls plainDriver plainOnboarding 1000000 fillDigests "4" fiveThousand))
      (World.initial Store.empty 0) depositAndFill = some w ∧
    balance w.db "W1" = some (((120000000 - 0 - 40000 : ℤ) : ℚ) / 10000) ∧
    chargeUnits w.db.charges = typeOn .charge everywhere w.db.entries := by
  obtain ⟨w, hrun, hcheck⟩ := run_reaches
    (World.step platform (ledgerCalls plainDriver plainOnboarding 1000000 fillDigests "4" fiveThousand))
    (World.initial Store.empty 0) depositAndFill
    (fun w => typeOn .deposit (fun x => x = "W1") w.db.entries = 120000000 ∧
      typeOn .withdrawal (fun x => x = "W1") w.db.entries = 0 ∧
      typeOn .charge (fun x => x = "W1") w.db.entries = 40000) (by decide +kernel)
  obtain ⟨hdeposits, hwithdrawals, hcharges⟩ := of_decide_eq_true hcheck
  obtain ⟨hbalance, -, hequal⟩ := balances_conserved sane_empty accounted_empty (visits_last hrun)
  refine ⟨w, hrun, ?_, hequal⟩
  rw [hbalance, hdeposits, hwithdrawals, hcharges]

end LpPlatform.LedgerTotals
