import LpPlatform.FourEyes
import LpPlatform.OrderFills
import LpPlatform.StatementWrites
import LpPlatform.WithdrawalFloor

/-!
# One wallet per broker and currency

Adjustments, approvals and fills look a wallet up before they insert one, and
nothing else keeps the pair of broker and currency unique. A call never inserts
a wallet for a pair that had one when the call was started. So a second wallet
for a pair appears exactly when the first one was committed by another call in
the meantime.
-/

namespace LpPlatform.WalletsUnique

open Amounts ApprovalWatcher AuditInterceptor BrokerPortal DepositsAdmin HashChain InterferenceLogic
open JsValues Ledger OrderFills OrderIntake OrderWorker PendingActions RowStore Sessions
open StatementProgram StatementWrites StepRuns Tables TradeChain WalletAdjust WithdrawalFloor

/-- The calls that use wallets. -/
inductive PlatformCall where
  | action (call : ActionCall)
  | funding (call : FundingCall)
  | order (call : OrderCall)

/-- A call, without its result. -/
def platformCalls (D : Driver) (paise : ℕ) (H : Sha256) (lot : String) (floor : JsNumber) :
    PlatformCall → Program Unit
  | .action call => actions D paise call
  | .funding call => funding D H lot floor call
  | .order call => orders H lot call

/-- The worlds of these calls. -/
abbrev PlatformWorld := World Store Write Key Input Failure Unit

/-- Two wallets of one broker in one currency. -/
def SamePair (x y : Wallet) : Prop := x.brokerId = y.brokerId ∧ x.currency = y.currency

/-- At most one wallet for each broker and currency. -/
def OneWallet (d : Store) : Prop := (d.wallets.map fun x => (x.brokerId, x.currency)).Nodup

instance decidableOneWallet (d : Store) : Decidable (OneWallet d) :=
  inferInstanceAs (Decidable (List.Nodup _))

/-- Every wallet has an id that is not empty. -/
def Named (d : Store) : Prop := ∀ x ∈ d.wallets, x.walletId ≠ ""

/-- A wallet is inserted under an id that is not empty. -/
def named : Write → Prop
  | .insertWallet x => x.walletId ≠ ""
  | _ => True

instance decidableNamed : DecidablePred named := fun w =>
  match w with
  | .insertWallet x => inferInstanceAs (Decidable (x.walletId ≠ ""))
  | .insertOrder _ | .markOrder _ _ _ | .insertTrade _ | .insertCharge _ | .insertEntry _
  | .insertRequest _ | .decideRequest _ _ _ _ | .insertAction _ | .changeAction _ _
  | .insertAudit _ | .insertJob _ | .moveJob _ _ _ => isTrue trivial

/-- The wallet is there, and every wallet has an id. -/
def Known (y : Wallet) (d : Store) : Prop := y ∈ d.wallets ∧ Named d

/-- No wallet is inserted for the pair of a wallet. -/
def NotAgain (y : Wallet) : Write → Prop
  | .insertWallet x => ¬ SamePair x y
  | _ => True

section Writing

variable {y : Wallet} {D : Driver} {paise : ℕ} {H : Sha256} {lot : String}

theorem named_apply (d : Store) (w : Write) (h : Named d) (hw : named w) :
    Named (platform.apply d w) := by
  cases w with
  | insertWallet x =>
    intro z hz
    rcases List.mem_append.mp hz with hz | hz
    · exact h z hz
    · rw [List.mem_singleton.mp hz]
      exact hw
  | _ => exact h

theorem known_apply (d : Store) (w : Write) (h : Known y d) (hw : named w) :
    Known y (platform.apply d w) :=
  ⟨walletRows.mono [w] h.1, named_apply d w h.2 hw⟩

/-- A wallet that is there is found, not inserted again. -/
theorem writes_findOrCreateWallet (brokerId currency : Option Json) :
    Writes (Known y) (NotAgain y) (findOrCreateWallet D brokerId currency) := by
  rw [findOrCreateWallet, bind_eq]
  refine writes_query_bind fun v i hv => ?_
  cases hrow : anyRow (v.own.wallets.filter fun w =>
      brokerId.bind D.text = some w.brokerId ∧ currency.bind D.text = some w.currency) i.pick with
  | some wallet => trivial
  | none =>
    simp only [bind_eq]
    cases hbroker : D.column brokerId with
    | error e => trivial
    | ok broker =>
      cases hunit : D.column currency with
      | error e => trivial
      | ok unit =>
        refine writes_exec fun v' i' _ x hx => ?_
        obtain rfl := List.mem_singleton.mp hx
        rintro ⟨hb, hu⟩
        have hmem : y ∈ v.own.wallets.filter fun w =>
            brokerId.bind D.text = some w.brokerId ∧ currency.bind D.text = some w.currency := by
          refine List.mem_filter.mpr ⟨hv.1, decide_eq_true ⟨?_, ?_⟩⟩
          · rw [column_ok hbroker, ← hb]
          · rw [column_ok hunit, ← hu]
        exact absurd hmem (anyRow_none hrow ▸ List.not_mem_nil)

/-- A commission is taken from a wallet that is there. -/
theorem writes_commissionWallet (brokerId : String) :
    Writes (Known y) (NotAgain y) (commissionWallet brokerId) := by
  rw [commissionWallet, bind_eq]
  refine writes_query_bind fun v i hv => ?_
  cases hfound : (v.own.wallets.filter fun w => w.brokerId = brokerId).argmin (·.id) with
  | some found =>
    have hmem := (List.mem_filter.mp (List.argmin_mem hfound)).1
    have hid := hv.2 found hmem
    simp [hid, Writes]
  | none =>
    refine writes_exec fun v' i' _ x hx => ?_
    obtain rfl := List.mem_singleton.mp hx
    rintro ⟨hb, -⟩
    have hnone := List.argmin_eq_none.mp hfound
    rw [List.filter_eq_nil_iff] at hnone
    exact hnone y hv.1 (decide_eq_true hb.symm)

/-- What inserts no wallet may be written. -/
theorem notAgain_plain {x : Write} (h : x.wallet? = none) : NotAgain y x := by
  cases x <;> trivial

/-- A statement without wallets. -/
theorem writes_plain {α : Type} {ws : View Store → Input → List Write} {f : View Store → Input → α}
    (hws : ∀ v i, ∀ x ∈ ws v i, Write.wallet? x = none) :
    Writes (Known y) (NotAgain y) (exec ws f : Program α) :=
  writes_exec fun v i _ x hx => notAgain_plain (hws v i x hx)

/-- A statement that writes one row, which is no wallet. -/
theorem writes_row {α : Type} {row : View Store → Input → Write} {f : View Store → Input → α}
    (hrow : ∀ v i, Write.wallet? (row v i) = none) :
    Writes (Known y) (NotAgain y) (exec (fun v i => [row v i]) f : Program α) :=
  writes_plain fun v i x hx => by rw [List.mem_singleton.mp hx, hrow]

theorem writes_ensure (condition : Bool) (err : Failure) :
    Writes (Known y) (NotAgain y) (ensure condition err) := by
  cases condition <;> trivial

/-- An audited endpoint writes what its handler writes. -/
theorem writes_runInTx {α : Type} {ctx : AdminRequestContext} {config : AdminAudit}
    {handler : AdminAudit → Program (α × AdminAudit)}
    (h : Writes (Known y) (NotAgain y) (handler config)) :
    Writes (Known y) (NotAgain y) (runInTx ctx config handler) := by
  have haudit : ∀ audit outcome, Writes (Known y) (NotAgain y) (writeAudit ctx audit outcome) :=
    fun audit outcome => writes_row fun _ _ => rfl
  refine writes_transaction (writes_bind (writes_tryCatch h fun err => ?_) fun r => ?_)
  · exact writes_bind (haudit _ _) fun _ => trivial
  · exact writes_bind (haudit _ _) fun _ => trivial

theorem writes_postLeg (leg : PostingLeg) : Writes (Known y) (NotAgain y) (postLeg D leg) :=
  writes_bind (writes_ofExcept _) fun _ => writes_row fun _ _ => rfl

/-- The operations of a ledger insert no wallet again. -/
structure OpsWrite (y : Wallet) (ops : LedgerOps) : Prop where
  wallet : ∀ brokerId currency,
    Writes (Known y) (NotAgain y) (ops.findOrCreateWallet brokerId currency)
  pair : ∀ legA legB, Writes (Known y) (NotAgain y) (ops.postPair legA legB)

theorem drizzleLedgerOps_write : OpsWrite y (drizzleLedgerOps D) where
  wallet brokerId currency :=
    writes_bind (writes_findOrCreateWallet brokerId currency) fun _ => trivial
  pair legA legB := by
    refine writes_bind (writes_bind (writes_ofExcept _) fun rowA => writes_bind (writes_ofExcept _)
      fun rowB => writes_plain fun v i x hx => ?_) fun _ => trivial
    simp only [List.mem_cons, List.not_mem_nil, or_false] at hx
    rcases hx with rfl | rfl <;> rfl

theorem pgLedgerOps_write : OpsWrite y (pgLedgerOps D) where
  wallet brokerId currency :=
    writes_bind (writes_findOrCreateWallet brokerId currency) fun _ => trivial
  pair legA legB :=
    writes_bind (writes_postLeg legA) fun _ => writes_bind (writes_postLeg legB) fun _ => trivial

theorem writes_executeWalletAdjust {ops : LedgerOps} (hops : OpsWrite y ops)
    (payload : WalletAdjustPayload) :
    Writes (Known y) (NotAgain y) (executeWalletAdjust payload ops) := by
  refine writes_bind (writes_ofExcept _) fun amount => ?_
  split
  · trivial
  · refine writes_bind (hops.wallet _ _) fun walletId => writes_bind (writes_query _) fun _ => ?_
    exact writes_bind (hops.pair _ _) fun _ => trivial

/-- The endpoints around pending actions. -/
theorem writes_admin (call : AdminCall) : Writes (Known y) (NotAgain y) (admin D paise call) := by
  have hdecision : ∀ actionId userId change,
      Writes (Known y) (NotAgain y) (changePending actionId userId change) := by
    intro actionId userId change
    refine writes_plain fun v i x hx => ?_
    split at hx
    · simp at hx
    · obtain rfl := List.mem_singleton.mp hx
      rfl
  cases call with
  | walletAdjust ctx body =>
    refine writes_bind (writes_runInTx (writes_bind (writes_ofExcept _) fun fields =>
      writes_bind (writes_ofExcept _) fun amount => writes_bind (writes_ensure _ _) fun _ =>
      writes_bind (writes_ofExcept _) fun threshold => ?_)) fun _ => trivial
    split
    · exact writes_bind (writes_query _) fun expiresAt =>
        writes_bind (writes_row fun _ _ => rfl) fun _ => trivial
    · generalize WalletAdjustPayload.ofStrings _ _ _ _ _ = payload
      exact writes_bind (writes_executeWalletAdjust drizzleLedgerOps_write payload) fun _ => trivial
  | approve ctx actionId body =>
    refine writes_bind (writes_runInTx (writes_bind (writes_query _) fun found => ?_)) fun _ => trivial
    split
    · trivial
    · refine writes_bind (writes_ensure _ _) fun _ => writes_bind (hdecision _ _ _) fun changed => ?_
      split <;> trivial
  | reject ctx actionId body =>
    refine writes_bind (writes_runInTx ?_) fun _ => trivial
    unfold PendingActions.reject
    split
    · trivial
    · refine writes_bind (writes_query _) fun found => ?_
      split
      · trivial
      · refine writes_bind (writes_ensure _ _) fun _ => writes_bind (hdecision _ _ _) fun changed => ?_
        split <;> trivial

/-- Executing an approved action. -/
theorem writes_executeOne (row : ActionRow) :
    Writes (Known y) (NotAgain y) (executeOne D row) := by
  have hrecord : ∀ outcome metadata, Writes (Known y) (NotAgain y)
      (ApprovalWatcher.record row.actionId outcome metadata) := fun outcome metadata =>
    writes_row fun _ _ => rfl
  have hclaim : Writes (Known y) (NotAgain y) (claim row.actionId) := by
    refine writes_plain fun v i x hx => ?_
    split at hx
    · simp at hx
    · obtain rfl := List.mem_singleton.mp hx
      rfl
  have hdispatch : Writes (Known y) (NotAgain y) (dispatch row.type row.payload (pgLedgerOps D)) := by
    unfold dispatch
    split
    · exact writes_bind (writes_ofExcept _) fun fields =>
        writes_bind (writes_executeWalletAdjust pgLedgerOps_write fields) fun _ => trivial
    all_goals trivial
  refine writes_bind (writes_query _) fun _ => writes_tryCatch ⟨?_, fun _ => trivial⟩ fun err => ?_
  · refine writes_bind hclaim fun rowCount => ?_
    split
    · exact writes_bind (writes_query _) fun _ => trivial
    · exact writes_bind hdispatch fun result => writes_bind (hrecord _ _) fun _ =>
        ⟨trivial, fun _ => trivial⟩
  · exact writes_bind (writes_tryCatch (hrecord _ _) fun _ => trivial) fun _ => trivial

theorem writes_executeAll (rows : List ActionRow) (counts : PollResult) :
    Writes (Known y) (NotAgain y) (executeAll D rows counts) := by
  induction rows generalizing counts with
  | nil => trivial
  | cons row rows ih => exact writes_bind (writes_executeOne row) fun ok => ih _

/-- The calls around pending actions. -/
theorem writes_actions (call : ActionCall) : Writes (Known y) (NotAgain y) (actions D paise call) := by
  cases call with
  | admin call => exact writes_admin call
  | pollOnce =>
    exact writes_bind (writes_bind (writes_query _) fun rows => writes_executeAll rows _) fun _ =>
      trivial
  | expireStale retentionHours =>
    refine writes_bind (writes_plain fun v i x hx => ?_) fun _ => trivial
    obtain ⟨a, -, rfl⟩ := List.mem_map.mp hx
    rfl

/-- Filing a request. -/
theorem writes_fileRequest (kind : RequestKind) (brokerId currency missing : String)
    (body : CreateDeposit) :
    Writes (Known y) (NotAgain y) (fileRequest kind brokerId currency body missing) := by
  refine writes_bind (writes_query _) fun requestId => writes_bind (writes_ofExcept _) fun amount =>
    writes_bind (writes_row fun _ _ => rfl) fun _ => writes_bind (writes_query _) fun found => ?_
  split <;> trivial

theorem writes_addBalances (wallets : List Wallet) (balance : ℚ) :
    Writes (Known y) (NotAgain y) (addBalances wallets balance) := by
  induction wallets generalizing balance with
  | nil => trivial
  | cons wallet wallets ih => exact writes_bind (writes_query _) fun text => ih _

/-- The decision endpoints. -/
theorem writes_decision (call : DecisionCall) :
    Writes (Known y) (NotAgain y) (decision D call) := by
  have hstatus : ∀ ctx requestId status,
      Writes (Known y) (NotAgain y) (setStatus ctx requestId status) := by
    intro ctx requestId status
    refine writes_plain fun v i x hx => ?_
    split at hx
    · simp at hx
    · obtain rfl := List.mem_singleton.mp hx
      rfl
  cases call with
  | approve ctx requestId =>
    refine writes_runInTx (writes_bind (writes_query _) fun found => ?_)
    split
    · trivial
    · refine writes_bind (writes_ensure _ _) fun _ =>
        writes_bind (writes_findOrCreateWallet _ _) fun wallet => writes_bind ?_ fun _ =>
        writes_bind (writes_ofExcept _) fun amount => writes_bind (writes_row fun _ _ => rfl) fun _ =>
        writes_bind (hstatus _ _ _) fun _ => trivial
      unfold checkOverdraft
      split
      · trivial
      · exact writes_bind (writes_query _) fun text => writes_ensure _ _
  | reject ctx requestId =>
    refine writes_runInTx (writes_bind (writes_query _) fun found => ?_)
    split
    · trivial
    · exact writes_bind (writes_ensure _ _) fun _ => writes_bind (hstatus _ _ _) fun _ => trivial

/-- The funding calls. -/
theorem writes_funding {floor : JsNumber} (call : FundingCall) :
    Writes (Known y) (NotAgain y) (funding D H lot floor call) := by
  cases call with
  | createDepositRequest user body =>
    exact writes_bind (writes_bind (writes_ofExcept _) fun fields => writes_bind (writes_ofExcept _)
      fun brokerId => writes_bind (writes_query _) fun wallets => writes_fileRequest _ _ _ _ _)
      fun _ => trivial
  | createWithdrawalRequest user body =>
    exact writes_bind (writes_bind (writes_ofExcept _) fun fields => writes_bind (writes_ofExcept _)
      fun brokerId => writes_bind (writes_query _) fun wallets =>
      writes_bind (writes_addBalances _ _) fun balance => writes_bind (writes_ensure _ _) fun _ =>
      writes_fileRequest _ _ _ _ _) fun _ => trivial
  | decide call => exact writes_bind (writes_decision call) fun _ => trivial
  | recordFill order fillPrice =>
    exact writes_recordFill (fun x h _ => notAgain_plain h) writes_commissionWallet order fillPrice

/-- The calls that orders pass through. -/
theorem writes_orders (call : OrderCall) : Writes (Known y) (NotAgain y) (orders H lot call) := by
  cases call with
  | place body broker ip =>
    refine writes_bind ?_ fun _ => trivial
    unfold placeEndpoint
    split
    · unfold place
      split
      · trivial
      · exact writes_bind (writes_ensure _ _) fun _ => writes_bind (writes_bind (writes_ofExcept _)
          fun row => writes_row fun _ _ => rfl) fun order =>
          writes_bind (writes_row fun _ _ => rfl) fun _ =>
          writes_bind (writes_tryCatch (writes_row fun _ _ => rfl) fun _ => trivial) fun _ => trivial
    · trivial
  | runJob => exact writes_runJob (fun x h _ => notAgain_plain h) writes_commissionWallet
  | recoverStalled => exact writes_recoverStalled fun x h _ => notAgain_plain h

/-- Every call. -/
theorem writes_platform {floor : JsNumber} (call : PlatformCall) :
    Writes (Known y) (NotAgain y) (platformCalls D paise H lot floor call) := by
  cases call with
  | action call => exact writes_actions call
  | funding call => exact writes_funding call
  | order call => exact writes_orders call

end Writing

/-- Commits insert at most one wallet. -/
def walletContract : Contract platform where
  inv d _ := UniqueActions d
  guar _ ws := (ws.filterMap Write.wallet?).length ≤ 1
  inv_mono h _ := h
  inv_commit h hvalid _ := uniqueActions_applyAll h hvalid

section Commits

variable {D : Driver} {paise : ℕ} {H : Sha256} {lot : String} {d : Store} {ws : List Write}

theorem dispatched_wallets {type : PendingActionType} {payload : Json} {result : DispatchResult}
    (h : Dispatched D d type payload ws result) : (ws.filterMap Write.wallet?).length ≤ 1 := by
  cases h with
  | walletAdjust hfields hwallet =>
    rcases hwallet with ⟨rfl, _⟩ | rfl <;> simp [List.filterMap_cons, Write.wallet?]
  | notImplemented htype => simp

theorem acted_wallets (h : Acted D paise d ws) : (ws.filterMap Write.wallet?).length ≤ 1 := by
  cases h with
  | requested hreq =>
    cases hreq with
    | adjusted hwallet => rcases hwallet with ⟨rfl, _⟩ | rfl <;> simp [List.filterMap_cons, Write.wallet?]
    | _ => simp [List.filterMap_cons, Write.wallet?]
  | watched hwatched =>
    cases hwatched with
    | @expired rows hrows =>
      have hnone : (rows.map fun a => Write.changeAction a.actionId .expire).filterMap
          Write.wallet? = [] := by
        simp [List.filterMap_map, Function.comp_def, Write.wallet?]
      simp [hnone]
    | executed ha happroved hdispatched =>
      have hone := dispatched_wallets hdispatched
      simpa [List.filterMap_cons, Write.wallet?] using hone
    | failed => simp [List.filterMap_cons, Write.wallet?]

theorem decided_wallets (h : Decided d ws) : (ws.filterMap Write.wallet?).length ≤ 1 := by
  cases h with
  | approve hreq hwallet => rcases hwallet with ⟨rfl, _⟩ | rfl <;> simp [List.filterMap_cons, Write.wallet?]
  | reject hreq => simp [List.filterMap_cons, Write.wallet?]

theorem commission_wallets {quantity : String} {order : OrderRow} {trade : Trade}
    {wallets : List Wallet} (h : Commission lot order quantity trade wallets ws) :
    ((.insertTrade trade :: ws).filterMap Write.wallet?).length ≤ 1 := by
  cases h with
  | exempt hdue => simp [List.filterMap_cons, Write.wallet?]
  | charged hdue hamount hwallet => rcases hwallet with ⟨rfl, _⟩ | rfl <;> simp [List.filterMap_cons, Write.wallet?]

theorem traded_wallets (h : Traded H lot d ws) : (ws.filterMap Write.wallet?).length ≤ 1 := by
  cases h with
  | fill hfill =>
    obtain ⟨quantity, -, hcommission⟩ := hfill.commission
    exact commission_wallets hcommission
  | _ => simp [List.filterMap_cons, Write.wallet?]

/-- Every call keeps to one wallet a commit. -/
theorem keeps_platform {floor : JsNumber} {t n : ℕ} (call : PlatformCall) :
    walletContract.Keeps t (platformCalls D paise H lot floor call) none d n := by
  have hfiled : ∀ (v : View Store) (row : DepositRequest), row.status = .pending →
      walletContract.guar v [.insertRequest row] := fun v row _ => by
    simp [walletContract, List.filterMap_cons, Write.wallet?]
  cases call with
  | action call => exact keeps_actions (fun _ _ h => h) fun _ _ h => acted_wallets h
  | order call => exact keeps_orders (fun _ _ h => traded_wallets h) call
  | funding call =>
    cases call with
    | createDepositRequest user body =>
      rw [platformCalls, funding, bind_eq, Contract.Keeps, wp_bind]
      exact wp_mono _ (fun _ _ _ _ _ => trivial) (fun _ _ _ _ h => h)
        (keeps_createDepositRequest hfiled)
    | createWithdrawalRequest user body =>
      rw [platformCalls, funding, bind_eq, Contract.Keeps, wp_bind]
      exact wp_mono _ (fun _ _ _ _ _ => trivial) (fun _ _ _ _ h => h)
        (keeps_createWithdrawalRequest hfiled)
    | decide call =>
      rw [platformCalls, funding, bind_eq, Contract.Keeps, wp_bind]
      exact wp_mono _ (fun _ _ _ _ _ => trivial) (fun _ _ _ _ h => h)
        (keeps_decision fun _ _ h => decided_wallets h)
    | recordFill order fillPrice =>
      exact wp_recordFill (fun _ _ _ => trivial) fun _ _ _ _ _ _ _ _ _ _ _ _ hrest =>
        ⟨fun _ _ => commission_wallets hrest, trivial⟩

end Commits

/-- Whoever inserts a wallet sees every wallet of the pair when it commits that
it could have seen when it was started. -/
def NotOvertaken (step : PlatformWorld → Event PlatformCall Input Failure → Option PlatformWorld)
    (w₀ : PlatformWorld) (es : List (Event PlatformCall Input Failure)) : Prop :=
  ∀ t u call u' w e w' ws, Takes step w₀ es u (.start t call) u' → Takes step w₀ es w e w' →
    w.commit? platform e = some (t, ws) → ∀ x ∈ ws.filterMap Write.wallet?,
      ∀ y ∈ w.db.wallets, SamePair y x → y ∈ u.db.wallets

/-- One more wallet, for a pair that has none. -/
theorem oneWallet_add {wallets : List Wallet} {x : Wallet}
    (h : (wallets.map fun y => (y.brokerId, y.currency)).Nodup) :
    ((wallets ++ [x]).map fun y => (y.brokerId, y.currency)).Nodup ↔
      ∀ y ∈ wallets, ¬ SamePair y x := by
  rw [List.map_append, List.nodup_append]
  constructor
  · rintro ⟨-, -, hnew⟩ y hy ⟨hb, hu⟩
    exact hnew (y.brokerId, y.currency) (List.mem_map_of_mem hy) (x.brokerId, x.currency)
      (by simp) (by rw [hb, hu])
  · intro hnew
    refine ⟨h, by simp, ?_⟩
    rintro a ha b hb rfl
    obtain ⟨y, hy, rfl⟩ := List.mem_map.mp ha
    obtain ⟨hbroker, hunit⟩ : y.brokerId = x.brokerId ∧ y.currency = x.currency := by
      simpa using hb
    exact hnew y hy ⟨hbroker, hunit⟩

section Runs

variable {D : Driver} {paise : ℕ} {H : Sha256} {lot : String} {floor : JsNumber} {d : Store} {n : ℕ}
variable {es : List (Event PlatformCall Input Failure)}

/-- A commit inserts at most one wallet. -/
theorem inserts_one (hids : UniqueActions d) {w w' : PlatformWorld} {t : ℕ}
    {e : Event PlatformCall Input Failure} {ws : List Write}
    (htakes : Takes (World.step platform (platformCalls D paise H lot floor)) (World.initial d n) es
      w e w') (hc : w.commit? platform e = some (t, ws)) :
    w'.db.wallets = w.db.wallets ∧ ws.filterMap Write.wallet? = [] ∨
      ∃ x, w'.db.wallets = w.db.wallets ++ [x] ∧ ws.filterMap Write.wallet? = [x] := by
  have hsound : Sound walletContract w :=
    sound_visits (fun _ call _ _ _ => keeps_platform call) (sound_initial hids)
      (takes_before htakes)
  obtain ⟨_, _, _, _, hstep⟩ := htakes
  obtain ⟨v, hv⟩ := committed_of_step hsound hstep hc
  have hdb := step_db platform hstep
  rw [hc] at hdb
  have hwallets : w'.db.wallets = w.db.wallets ++ ws.filterMap Write.wallet? := by
    rw [hdb]
    exact walletRows.applyAll w.db ws
  have hone : (ws.filterMap Write.wallet?).length ≤ 1 := hv.guar
  cases hws : ws.filterMap Write.wallet? with
  | nil => exact Or.inl ⟨by rw [hwallets, hws, List.append_nil], rfl⟩
  | cons x rest =>
    rw [hws, List.length_cons] at hone
    obtain rfl : rest = [] := List.eq_nil_of_length_eq_zero (by omega)
    exact Or.inr ⟨x, by rw [hwallets, hws], rfl⟩

/-- A call does not insert a wallet for a pair that had one when it started. -/
theorem not_again {w w' u u' : PlatformWorld} {t : ℕ} {call : PlatformCall}
    {e : Event PlatformCall Input Failure} {ws : List Write} {x y : Wallet}
    (hnamed : Named d)
    (hissued : Along (World.step platform (platformCalls D paise H lot floor))
      (fun w e => ∀ x ∈ issued platform w e, named x) (World.initial d n) es)
    (hstart : Takes (World.step platform (platformCalls D paise H lot floor)) (World.initial d n) es
      u (.start t call) u')
    (htakes : Takes (World.step platform (platformCalls D paise H lot floor)) (World.initial d n) es
      w e w') (hc : w.commit? platform e = some (t, ws)) (hx : x ∈ ws.filterMap Write.wallet?)
    (hy : y ∈ u.db.wallets) : ¬ SamePair x y := by
  have hrows : Named u.db := rows_issued (fun d x hd hx => named_apply d x hd hx) hissued hnamed
    (takes_before hstart)
  have hall := commits_since_start (fun d x hd hx => known_apply d x hd hx) hissued
    (writes_platform call) hstart ⟨hy, hrows⟩ htakes hc
  obtain ⟨write, hwrite, hinsert⟩ := List.mem_filterMap.mp hx
  have hnot := hall write hwrite
  cases write with
  | insertWallet row =>
    obtain rfl := Option.some.inj hinsert
    exact hnot
  | _ => simp [Write.wallet?] at hinsert

/-- In every run of adjustments, approvals and fills a pair of broker and
currency has one wallet at most exactly when nobody who inserts one was
overtaken by another insertion for the pair. -/
theorem wallets_unique_iff (hids : UniqueActions d) (hone : OneWallet d) (hnamed : Named d)
    (hissued : Along (World.step platform (platformCalls D paise H lot floor))
      (fun w e => ∀ x ∈ issued platform w e, named x) (World.initial d n) es) :
    NotOvertaken (World.step platform (platformCalls D paise H lot floor)) (World.initial d n) es ↔
      ∀ w, Visits (World.step platform (platformCalls D paise H lot floor)) (World.initial d n) es w →
        OneWallet w.db := by
  constructor
  · intro hover w hvisits
    refine visits_invariant (I := fun w : PlatformWorld => OneWallet w.db)
      (C := fun w e => ∀ w', World.step platform (platformCalls D paise H lot floor) w e = some w' →
        OneWallet w.db → OneWallet w'.db) (fun w e w' hw he hstep => he w' hstep hw) hone
      ((along_iff_takes _ _).mpr fun w e w' htakes => ?_) hvisits
    rintro _ hstep hw
    obtain rfl : w' = _ := Option.some.inj ((takes_step htakes).symm.trans hstep)
    cases hc : w.commit? platform e with
    | none =>
      have hdb := step_db platform hstep
      rw [hc] at hdb
      rw [hdb]
      exact hw
    | some commit =>
      obtain ⟨t, ws⟩ := commit
      rcases inserts_one hids htakes hc with ⟨hwallets, -⟩ | ⟨x, hwallets, hws⟩
      · rw [OneWallet, hwallets]
        exact hw
      · rw [OneWallet, hwallets, oneWallet_add hw]
        intro y hy hsame
        obtain ⟨u, call, u', hstart⟩ := visits_started (started_of_commit hc) (takes_before htakes)
        have hold := hover t u call u' w e _ ws hstart htakes hc x (by simp [hws]) y hy hsame
        exact not_again hnamed hissued hstart htakes hc (by simp [hws]) hold
          ⟨hsame.1.symm, hsame.2.symm⟩
  · intro hall t u call u' w e w' ws hstart htakes hc x hx y hy hsame
    rcases inserts_one hids htakes hc with ⟨-, hws⟩ | ⟨z, hwallets, hws⟩
    · simp [hws] at hx
    · obtain rfl : x = z := by simpa [hws] using hx
      have hnew := hall w' (takes_after htakes)
      rw [OneWallet, hwallets, oneWallet_add (hall w (takes_before htakes))] at hnew
      exact absurd hsame (hnew y hy)

end Runs

/-- An adjustment within the threshold. -/
def smallAdjustment (userId : String) : PlatformCall :=
  .action (.admin (.walletAdjust ⟨userId, userId, none, none⟩ (.obj [("brokerId", .str "B1"),
    ("direction", .str "CREDIT"), ("amount", .str "5"), ("reason", .str "late deposit")])))

/-- The statements of an adjustment after it has looked for a wallet. -/
def adjusting (t : ℕ) (walletId entryA entryB auditId : String) :
    List (Event PlatformCall Input Failure) :=
  [.step t (drawing walletId), .step t (drawing "R1"), .step t ⟨0, [entryA, entryB], 0⟩,
    .step t (drawing auditId), .step t quiet]

/-- Two adjustments that both look for a wallet before either inserts one. -/
def racing : List (Event PlatformCall Input Failure) :=
  [.start 1 (smallAdjustment "U1"), .start 2 (smallAdjustment "U2"), .step 1 quiet, .step 2 quiet,
    .step 1 quiet, .step 2 quiet] ++
    adjusting 1 "W1" "E1" "E2" "L1" ++ adjusting 2 "W2" "E3" "E4" "L2"

/-- The worlds of the example. -/
abbrev raceStep := World.step platform
  (platformCalls plainDriver 1000000 someDigest "4" fiveThousand)

theorem racing_wallets : ∃ w, run raceStep (World.initial Store.empty 0) racing = some w ∧
    ¬ OneWallet w.db := by
  obtain ⟨w, hrun, hcheck⟩ := run_reaches raceStep (World.initial Store.empty 0) racing
    (fun w => ¬ OneWallet w.db) (by decide +kernel)
  exact ⟨w, hrun, of_decide_eq_true hcheck⟩

theorem two_wallets : OneWallet Store.empty ∧ ∃ es w,
    run raceStep (World.initial Store.empty 0) es = some w ∧ ¬ OneWallet w.db := by
  obtain ⟨w, hrun, htwo⟩ := racing_wallets
  exact ⟨List.nodup_nil, racing, w, hrun, htwo⟩

theorem wallets_unique_racing :
    ¬ NotOvertaken raceStep (World.initial Store.empty 0) racing := by
  have hids : UniqueActions Store.empty := List.nodup_nil
  have hempty : OneWallet Store.empty := List.nodup_nil
  have hnamed : Named Store.empty := by simp [Named, Store.empty]
  have hissued : Along raceStep (fun w e => ∀ x ∈ issued platform w e, named x)
      (World.initial Store.empty 0) racing := by
    decide +kernel
  obtain ⟨w, hrun, htwo⟩ := racing_wallets
  intro hover
  have hone := (wallets_unique_iff hids hempty hnamed hissued).mp hover
  exact htwo (hone w (visits_last hrun))

end LpPlatform.WalletsUnique
