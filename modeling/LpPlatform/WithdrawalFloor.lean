import LpPlatform.BrokerPortal
import LpPlatform.TradeChain

/-!
# The locked floor of a broker's balance

The cap on withdrawals is checked when a request is filed. An approval only
checks that the amount does not overdraw the wallet, so several requests that
were within the cap when they were filed may be approved one after the other.
An approved withdrawal takes exactly its amount off the balance of its broker
in its currency, whatever the others do, so the floor is kept by an approval
exactly when the cap still holds in the rows it commits over.
-/

namespace LpPlatform.WithdrawalFloor

open Amounts AuditInterceptor BrokerPortal DepositsAdmin HashChain InterferenceLogic JsValues Ledger
open RowStore Sessions StatementProgram StepRuns Tables TradeChain

/-- Funding requests, decisions on them, and fills with their commission. -/
inductive FundingCall where
  | createDepositRequest (user : Option CurrentUser) (body : Json)
  | createWithdrawalRequest (user : Option CurrentUser) (body : Json)
  | decide (call : DecisionCall)
  | recordFill (order : OrderRow) (fillPrice : String)

/-- A funding call, without its result. -/
def funding (D : Driver) (H : Sha256) (commissionPerLot : String) (floor : JsNumber) :
    FundingCall → Program Unit
  | .createDepositRequest user body => do
    let _ ← createDepositRequest user body
    return ()
  | .createWithdrawalRequest user body => do
    let _ ← createWithdrawalRequest floor user body
    return ()
  | .decide call => do
    let _ ← decision D call
    return ()
  | .recordFill order fillPrice => recordFill H commissionPerLot order fillPrice

/-- The wallets of a broker in a currency. -/
def walletsIn (brokerId currency : String) (wallets : List Wallet) : List Wallet :=
  wallets.filter fun w => w.brokerId = brokerId ∧ w.currency = currency

/-- Credits minus debits over some wallets, in ten-thousandths. -/
def totalUnits (entries : List LedgerEntry) (wallets : List Wallet) : ℤ :=
  (wallets.map fun w => balanceUnits entries w.walletId).sum

/-- The balance of a broker in a currency. -/
def brokerBalance (d : Store) (brokerId currency : String) : ℚ :=
  (totalUnits d.entries (walletsIn brokerId currency d.wallets) : ℚ) / 10000

/-- The request a write approves. -/
def approved? : Write → Option String
  | .decideRequest requestId .approved _ _ => some requestId
  | _ => none

/-- The withdrawals that a commit approves. -/
def approvedWithdrawals (d : Store) (ws : List Write) : List DepositRequest :=
  d.requests.filter fun r => r.kind = .withdrawal ∧ r.requestId ∈ ws.filterMap approved?

/-- The worlds of funding calls. -/
abbrev FundingWorld := World Store Write Key Input Failure Unit

/-- The cap that filing checks still holds of every withdrawal the event
approves, over the committed rows. -/
def CapHolds (floor : JsNumber) (w : FundingWorld) (e : Event FundingCall Input Failure) : Prop :=
  match w.commit? platform e with
  | none => True
  | some (_, ws) => ∀ r ∈ approvedWithdrawals w.db ws,
    r.amount.value ≤ brokerBalance w.db r.brokerId r.currency - floor.value

/-- After the event the balance behind every withdrawal it approves is at
least the floor. -/
def FloorKept (floor : JsNumber) (w : FundingWorld) (e : Event FundingCall Input Failure)
    (w' : FundingWorld) : Prop :=
  match w.commit? platform e with
  | none => True
  | some (_, ws) => ∀ r ∈ approvedWithdrawals w.db ws,
    floor.value ≤ brokerBalance w'.db r.brokerId r.currency

instance (floor : JsNumber) (w : FundingWorld) (e : Event FundingCall Input Failure) :
    Decidable (CapHolds floor w e) :=
  match h : w.commit? platform e with
  | none => isTrue (by simp [CapHolds, h])
  | some (_, ws) => decidable_of_iff (∀ r ∈ approvedWithdrawals w.db ws,
      r.amount.value ≤ brokerBalance w.db r.brokerId r.currency - floor.value)
      (by simp [CapHolds, h])

instance (floor : JsNumber) (w : FundingWorld) (e : Event FundingCall Input Failure)
    (w' : FundingWorld) : Decidable (FloorKept floor w e w') :=
  match h : w.commit? platform e with
  | none => isTrue (by simp [FloorKept, h])
  | some (_, ws) => decidable_of_iff (∀ r ∈ approvedWithdrawals w.db ws,
      floor.value ≤ brokerBalance w'.db r.brokerId r.currency) (by simp [FloorKept, h])

/-- Wallets and requests under distinct ids, and entries of wallets that are
there. -/
structure Booked (d : Store) : Prop where
  wallets : (d.wallets.map (·.walletId)).Nodup
  requests : (d.requests.map (·.requestId)).Nodup
  entries : ∀ e ∈ d.entries, ∃ w ∈ d.wallets, w.walletId = e.walletId

/-- Every entry of a commit is of a wallet that is there or comes with it. -/
def Posted (d : Store) (ws : List Write) : Prop :=
  ∀ e ∈ ws.filterMap Write.entry?, ∃ w, w.walletId = e.walletId ∧
    (w ∈ d.wallets ∨ w ∈ ws.filterMap Write.wallet?)

theorem walletIds_nodup {d : Store} {ws : List Write} (h : (d.wallets.map (·.walletId)).Nodup)
    (hvalid : platform.validAll d ws = true) :
    ((platform.applyAll d ws).wallets.map (·.walletId)).Nodup := by
  refine applyAll_invariant platform (P := fun d => (d.wallets.map (·.walletId)).Nodup)
    (fun d w hd hw => ?_) h hvalid
  cases w with
  | insertWallet row => exact nodup_insert hd hw
  | _ => exact hd

theorem requestIds_nodup {d : Store} {ws : List Write} (h : (d.requests.map (·.requestId)).Nodup)
    (hvalid : platform.validAll d ws = true) :
    ((platform.applyAll d ws).requests.map (·.requestId)).Nodup := by
  refine applyAll_invariant platform (P := fun d => (d.requests.map (·.requestId)).Nodup)
    (fun d w hd hw => ?_) h hvalid
  cases w with
  | insertRequest row => exact nodup_insert hd hw
  | decideRequest requestId status decidedBy decidedAt =>
    have hkeeps : (updateAt (·.requestId) requestId (·.decide status decidedBy decidedAt)
        d.requests).map (·.requestId) = d.requests.map (·.requestId) :=
      updateAt_keeps _ (by intro _; rfl) d.requests
    exact hkeeps ▸ hd
  | _ => exact hd

/-- Posting on known wallets keeps the books. -/
theorem booked_posted {d : Store} {ws : List Write} (h : Booked d)
    (hvalid : platform.validAll d ws = true) (hposted : Posted d ws) :
    Booked (platform.applyAll d ws) := by
  refine ⟨walletIds_nodup h.wallets hvalid, requestIds_nodup h.requests hvalid, fun e he => ?_⟩
  have hentries : (platform.applyAll d ws).entries = d.entries ++ ws.filterMap Write.entry? :=
    entryRows.applyAll d ws
  have hwallets : (platform.applyAll d ws).wallets = d.wallets ++ ws.filterMap Write.wallet? :=
    walletRows.applyAll d ws
  rw [hentries, List.mem_append] at he
  simp only [hwallets, List.mem_append]
  rcases he with he | he
  · obtain ⟨w, hw, hid⟩ := h.entries e he
    exact ⟨w, Or.inl hw, hid⟩
  · obtain ⟨w, hid, hw⟩ := hposted e he
    exact ⟨w, hw, hid⟩

theorem totalUnits_append (es fs : List LedgerEntry) (wallets : List Wallet) :
    totalUnits (es ++ fs) wallets = totalUnits es wallets + totalUnits fs wallets := by
  simp [totalUnits, balanceUnits_append, List.sum_map_add]

theorem totalUnits_cons (es : List LedgerEntry) (w : Wallet) (wallets : List Wallet) :
    totalUnits es (w :: wallets) = balanceUnits es w.walletId + totalUnits es wallets := rfl

/-- One entry counts once, on its wallet. -/
theorem totalUnits_single {e : LedgerEntry} {wallet : Wallet} {wallets : List Wallet}
    (hids : (wallets.map (·.walletId)).Nodup) (hmem : wallet ∈ wallets)
    (he : e.walletId = wallet.walletId) : totalUnits [e] wallets = signedUnits e := by
  induction wallets with
  | nil => simp at hmem
  | cons w wallets ih =>
    rw [List.map_cons, List.nodup_cons] at hids
    have hother : w.walletId ≠ e.walletId → balanceUnits [e] w.walletId = 0 := fun hne => by
      simp [balanceUnits, Ne.symm hne]
    have hsame : w.walletId = e.walletId → balanceUnits [e] w.walletId = signedUnits e :=
      fun heq => by simp [balanceUnits, heq]
    rw [totalUnits_cons]
    rcases List.mem_cons.mp hmem with rfl | hmem
    · have hnone : totalUnits [e] wallets = 0 := by
        refine List.sum_eq_zero fun x hx => ?_
        obtain ⟨u, hu, rfl⟩ := List.mem_map.mp hx
        have hne : ¬ e.walletId = u.walletId := fun heq =>
          hids.1 (List.mem_map.mpr ⟨u, hu, heq.symm.trans he⟩)
        simp [balanceUnits, hne]
      rw [hsame he.symm, hnone, add_zero]
    · have hne : w.walletId ≠ e.walletId := fun heq =>
        hids.1 (List.mem_map.mpr ⟨wallet, hmem, he.symm.trans heq.symm⟩)
      rw [hother hne, ih hids.2 hmem, zero_add]

/-- A wallet without entries adds nothing. -/
theorem totalUnits_new {d : Store} {wallet : Wallet} (h : Booked d)
    (hnew : ∀ w ∈ d.wallets, w.walletId ≠ wallet.walletId) :
    balanceUnits d.entries wallet.walletId = 0 := by
  have hnone : d.entries.filter (fun e => e.walletId = wallet.walletId) = [] := by
    refine List.filter_eq_nil_iff.mpr fun e he hid => ?_
    obtain ⟨w, hw, hwid⟩ := h.entries e he
    exact hnew w hw (hwid.trans (of_decide_eq_true hid))
  simp [balanceUnits, hnone]

/-- The wallets after a commit that found or inserted one of them. -/
theorem totalUnits_found {d : Store} {wallet : Wallet} {new : List Wallet}
    {brokerId currency : String} (h : Booked d)
    (hids : ((d.wallets ++ new).map (·.walletId)).Nodup) (hnew : new = [] ∨ new = [wallet]) :
    totalUnits d.entries (walletsIn brokerId currency (d.wallets ++ new)) =
      totalUnits d.entries (walletsIn brokerId currency d.wallets) := by
  rcases hnew with rfl | rfl
  · rw [List.append_nil]
  · have hfresh : ∀ w ∈ d.wallets, w.walletId ≠ wallet.walletId := by
      rw [List.map_append, List.nodup_append] at hids
      exact fun w hw => hids.2.2 _ (List.mem_map_of_mem hw) _ (by simp)
    have hzero := totalUnits_new h hfresh
    rw [walletsIn, List.filter_append, totalUnits, List.map_append, List.sum_append]
    by_cases hw : wallet.brokerId = brokerId ∧ wallet.currency = currency <;>
      simp [walletsIn, totalUnits, hw, hzero]

/-- An approved withdrawal takes its amount off the balance. -/
theorem approved_balance {d : Store} {ws : List Write} {r : DepositRequest} (h : Booked d)
    (hvalid : platform.validAll d ws = true) (hdecided : Decided d ws)
    (hr : r ∈ approvedWithdrawals d ws) :
    brokerBalance (platform.applyAll d ws) r.brokerId r.currency =
      brokerBalance d r.brokerId r.currency - r.amount.value := by
  simp only [approvedWithdrawals, List.mem_filter, decide_eq_true_eq] at hr
  obtain ⟨hrow, hkind, happroved⟩ := hr
  cases hdecided with
  | @reject req decidedBy decidedAt audit hreq => simp [approved?] at happroved
  | @approve req wallet pre e decidedBy decidedAt audit hreq hwallet hbroker hcurrency hentry =>
    obtain ⟨new, rfl, hmem, hnew⟩ : ∃ new, pre = new.map Write.insertWallet ∧
        wallet ∈ d.wallets ++ new ∧ (new = [] ∨ new = [wallet]) := by
      rcases hwallet with ⟨rfl, hmem⟩ | rfl
      · exact ⟨[], rfl, by simpa using hmem, Or.inl rfl⟩
      · exact ⟨[wallet], rfl, by simp, Or.inr rfl⟩
    have hid : req.requestId = r.requestId := by
      rcases hnew with rfl | rfl <;> simpa [approved?] using happroved
    obtain ⟨row, hrow', rfl⟩ := List.mem_map.mp hreq
    obtain rfl : row = r := List.inj_on_of_nodup_map h.requests hrow' hrow hid
    have hwallets : (platform.applyAll d (new.map Write.insertWallet ++ [.insertEntry e,
        .decideRequest row.requestId .approved decidedBy decidedAt, .insertAudit audit])).wallets =
        d.wallets ++ new := by
      refine (walletRows.applyAll d _).trans ?_
      rcases hnew with rfl | rfl <;> rfl
    have hentries : (platform.applyAll d (new.map Write.insertWallet ++ [.insertEntry e,
        .decideRequest row.requestId .approved decidedBy decidedAt, .insertAudit audit])).entries =
        d.entries ++ [e] := by
      refine (entryRows.applyAll d _).trans ?_
      rcases hnew with rfl | rfl <;> rfl
    have hids := walletIds_nodup h.wallets hvalid
    rw [hwallets] at hids
    have hin : wallet ∈ walletsIn row.brokerId row.currency (d.wallets ++ new) :=
      List.mem_filter.mpr ⟨hmem, by simp [hbroker, hcurrency]⟩
    have hinIds : ((walletsIn row.brokerId row.currency (d.wallets ++ new)).map
        (·.walletId)).Nodup := (List.filter_sublist.map _).nodup hids
    have hsigned : signedUnits e = -row.amount.units := by
      rw [hentry]
      simp [signedUnits, approvalEntry, hkind]
    have hwalletId : e.walletId = wallet.walletId := by rw [hentry]; rfl
    rw [brokerBalance, brokerBalance, hwallets, hentries, totalUnits_append,
      totalUnits_found h hids hnew, totalUnits_single hinIds hin hwalletId, hsigned, Numeric.value]
    push_cast
    ring

/-- Commits post on known wallets, and a decision is the only way a request
is approved. -/
def fundingContract : Contract platform where
  inv d _ := Booked d
  guar v ws := Posted v.committed ws ∧
    (Decided v.committed ws ∨ ws.filterMap approved? = [])
  inv_mono h _ := h
  inv_commit h hvalid hguar := booked_posted h hvalid hguar.1

/-- The entry of a decision is of the wallet that was found or inserted. -/
theorem posted_decided {d : Store} {ws : List Write} (h : Decided d ws) : Posted d ws := by
  cases h with
  | @reject req decidedBy decidedAt audit hreq =>
    intro e he
    simp [Write.entry?] at he
  | @approve req wallet pre entryRow decidedBy decidedAt audit hreq hwallet hbroker hcurrency hentry =>
    have hid : entryRow.walletId = wallet.walletId := by rw [hentry]; rfl
    rcases hwallet with ⟨rfl, hmem⟩ | rfl
    · intro e he
      obtain rfl : e = entryRow := by simpa [Write.entry?] using he
      exact ⟨wallet, hid.symm, Or.inl hmem⟩
    · intro e he
      obtain rfl : e = entryRow := by simpa [Write.entry?, eq_comm] using he
      exact ⟨wallet, hid.symm, Or.inr (by simp [Write.wallet?])⟩

/-- So is the debit of a commission. -/
theorem posted_commission {lot quantity : String} {order : OrderRow} {trade : Trade}
    {wallets : List Wallet} {ws : List Write} {d : Store}
    (h : Commission lot order quantity trade wallets ws) (hkept : ∀ w ∈ wallets, w ∈ d.wallets) :
    Posted d (.insertTrade trade :: ws) := by
  cases h with
  | exempt hdue =>
    intro e he
    simp [Write.entry?] at he
  | @charged commission charge wallet pre entryRow hdue hamount hwallet hentry =>
    intro e he
    obtain rfl : entryRow = e := by
      rcases hwallet with ⟨rfl, _⟩ | rfl <;> simpa [Write.entry?] using he
    rcases hwallet with ⟨rfl, hmem⟩ | rfl
    · exact ⟨wallet, hentry.walletId.symm, Or.inl (hkept wallet hmem)⟩
    · exact ⟨wallet, hentry.walletId.symm, Or.inr (by simp [Write.wallet?])⟩

theorem commission_approved? {lot quantity : String} {order : OrderRow} {trade : Trade}
    {wallets : List Wallet} {ws : List Write} (h : Commission lot order quantity trade wallets ws) :
    (Write.insertTrade trade :: ws).filterMap approved? = [] := by
  cases h with
  | exempt hdue => rfl
  | charged hdue hamount hwallet hentry => rcases hwallet with ⟨rfl, _⟩ | rfl <;> rfl

/-- Every funding call keeps the contract. -/
theorem keeps_funding {D : Driver} {H : Sha256} {lot : String} {floor : JsNumber} {t : ℕ} {d : Store}
    {n : ℕ} (call : FundingCall) :
    fundingContract.Keeps t (funding D H lot floor call) none d n := by
  have hfiled : ∀ (v : View Store) (row : DepositRequest), row.status = .pending →
      fundingContract.guar v [.insertRequest row] := fun v row _ =>
    ⟨fun e he => by simp [Write.entry?] at he, Or.inr rfl⟩
  cases call with
  | createDepositRequest user body =>
    rw [funding, bind_eq, Contract.Keeps, wp_bind]
    exact wp_mono _ (fun _ _ _ _ _ => trivial) (fun _ _ _ _ h => h) (keeps_createDepositRequest hfiled)
  | createWithdrawalRequest user body =>
    rw [funding, bind_eq, Contract.Keeps, wp_bind]
    exact wp_mono _ (fun _ _ _ _ _ => trivial) (fun _ _ _ _ h => h) (keeps_createWithdrawalRequest hfiled)
  | decide call =>
    rw [funding, bind_eq, Contract.Keeps, wp_bind]
    exact wp_mono _ (fun _ _ _ _ _ => trivial) (fun _ _ _ _ h => h)
      (keeps_decision fun _ _ hdecided => ⟨posted_decided hdecided, Or.inl hdecided⟩)
  | recordFill order fillPrice =>
    refine wp_recordFill (fun _ _ _ => trivial)
      fun d₀ n₀ d' n' _ _ trade quantity rest hat _ _ hrest => ⟨fun v hv => ?_, trivial⟩
    refine ⟨posted_commission hrest fun w hw => ?_, Or.inr (commission_approved? hrest)⟩
    rw [hv.committed]
    exact env_growing walletRows hat.since hw

/-- A digest nothing is known of. -/
def someDigest : Sha256 := .known [] rfl

/-- The locked floor. -/
def fiveThousand : JsNumber := ⟨5000, "5000"⟩

/-- A call run to its end, one input for each statement. -/
def runCall (t : ℕ) (call : FundingCall) (inputs : List Input) :
    List (Event FundingCall Input Failure) :=
  .start t call :: inputs.map (Event.step t)

/-- The user of the broker. -/
def brokerUser : CurrentUser := ⟨"U1", "u1", .brokerUser, some "B1"⟩

/-- A deposit of 12000 is filed and approved. -/
def fundBroker : List (Event FundingCall Input Failure) :=
  runCall 1 (.createDepositRequest (some brokerUser) (.obj [("amount", .str "12000")]))
    [quiet, drawing "R1", quiet, quiet] ++
  runCall 2 (.decide (.approve ⟨"A1", "a1", none, none⟩ "R1"))
    [quiet, quiet, quiet, drawing "W1", drawing "E1", quiet, drawing "L1", quiet]

/-- A withdrawal of 6000 is filed. -/
def fileWithdrawal (t : ℕ) (requestId : String) : List (Event FundingCall Input Failure) :=
  runCall t (.createWithdrawalRequest (some brokerUser) (.obj [("amount", .str "6000")]))
    [quiet, quiet, drawing requestId, quiet, quiet]

/-- A withdrawal is approved, up to its commit. -/
def approveWithdrawal (t : ℕ) (requestId entryId auditId : String) :
    List (Event FundingCall Input Failure) :=
  runCall t (.decide (.approve ⟨"A1", "a1", none, none⟩ requestId))
    [quiet, quiet, quiet, quiet, drawing entryId, quiet, drawing auditId]

/-- One withdrawal is approved. -/
def oneWithdrawal : List (Event FundingCall Input Failure) :=
  fundBroker ++ fileWithdrawal 3 "R2" ++ approveWithdrawal 5 "R2" "E2" "L2" ++ [.step 5 quiet]

/-- Two withdrawals that are each within the cap are both approved. -/
def twoWithdrawals : List (Event FundingCall Input Failure) :=
  fundBroker ++ fileWithdrawal 3 "R2" ++ fileWithdrawal 4 "R3" ++
    approveWithdrawal 5 "R2" "E2" "L2" ++ [.step 5 quiet] ++ approveWithdrawal 6 "R3" "E3" "L3"

/-- The commit of the second approval takes the balance to zero. -/
theorem second_withdrawal : ∃ es w e w',
    Takes (World.step platform (funding plainDriver someDigest "4" fiveThousand))
      (World.initial Store.empty 0) es w e w' ∧
    brokerBalance w'.db "B1" "USD" = 0 ∧ ¬ FloorKept fiveThousand w e w' := by
  obtain ⟨w, hrun, hcheck⟩ := run_reaches
    (World.step platform (funding plainDriver someDigest "4" fiveThousand))
    (World.initial Store.empty 0) twoWithdrawals
    (fun w => (w.step platform (funding plainDriver someDigest "4" fiveThousand)
      (.step 6 quiet)).any fun w' =>
        brokerBalance w'.db "B1" "USD" = 0 ∧ ¬ FloorKept fiveThousand w (.step 6 quiet) w')
    (by decide +kernel)
  obtain ⟨w', hstep, hfloor⟩ := (Option.any_eq_true ..).mp hcheck
  have hboth := of_decide_eq_true hfloor
  exact ⟨twoWithdrawals ++ [.step 6 quiet], w, .step 6 quiet, w',
    ⟨twoWithdrawals, [], rfl, hrun, hstep⟩, hboth⟩

/-- In every run, every approval keeps the floor exactly when the cap still
holds of every withdrawal that is approved. -/
theorem floor_kept_iff {D : Driver} {H : Sha256} {lot : String} {floor : JsNumber} {d : Store}
    {n : ℕ} (hd : Booked d) (es : List (Event FundingCall Input Failure)) :
    Along (World.step platform (funding D H lot floor)) (CapHolds floor) (World.initial d n) es ↔
      ∀ w e w', Takes (World.step platform (funding D H lot floor)) (World.initial d n) es w e w' →
        FloorKept floor w e w' := by
  rw [along_iff_takes]
  refine forall_congr' fun w => forall_congr' fun e => forall_congr' fun w' =>
    forall_congr' fun htakes => ?_
  have hsound : Sound fundingContract w :=
    sound_visits (fun _ call _ _ _ => keeps_funding call) (sound_initial hd) (takes_before htakes)
  obtain ⟨_, _, _, _, hstep⟩ := htakes
  have hdb := step_db platform hstep
  unfold CapHolds FloorKept
  cases hcommit : w.commit? platform e with
  | none => exact Iff.rfl
  | some commit =>
    obtain ⟨t, ws⟩ := commit
    rw [hcommit] at hdb
    obtain ⟨v, hv⟩ := committed_of_step hsound hstep hcommit
    refine forall_congr' fun r => forall_congr' fun hr => ?_
    rcases hv.guar.2 with hdecided | hnone
    · rw [hv.committed] at hdecided
      rw [hdb, approved_balance hsound.inv hv.valid hdecided hr]
      constructor <;> intro h <;> linarith
    · simp [approvedWithdrawals, hnone] at hr

/-- The books of an empty store. -/
theorem booked_empty : Booked Store.empty :=
  ⟨List.nodup_nil, List.nodup_nil, by simp [Store.empty]⟩

theorem floor_kept_once : ∃ w,
    run (World.step platform (funding plainDriver someDigest "4" fiveThousand))
      (World.initial Store.empty 0) oneWithdrawal = some w ∧
    brokerBalance w.db "B1" "USD" = 6000 ∧
    ∀ u e u', Takes (World.step platform (funding plainDriver someDigest "4" fiveThousand))
      (World.initial Store.empty 0) oneWithdrawal u e u' →
      FloorKept fiveThousand u e u' := by
  have hc : Along (World.step platform (funding plainDriver someDigest "4" fiveThousand))
      (CapHolds fiveThousand) (World.initial Store.empty 0) oneWithdrawal := by
    decide +kernel
  obtain ⟨w, hrun, hbalance⟩ := run_reaches
    (World.step platform (funding plainDriver someDigest "4" fiveThousand))
    (World.initial Store.empty 0) oneWithdrawal
    (fun w => brokerBalance w.db "B1" "USD" = 6000) (by decide +kernel)
  exact ⟨w, hrun, of_decide_eq_true hbalance, (floor_kept_iff booked_empty _).mp hc⟩

end LpPlatform.WithdrawalFloor
