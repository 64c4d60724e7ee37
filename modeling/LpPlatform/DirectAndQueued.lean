import LpPlatform.AuditedTransactions
import LpPlatform.SoloRuns
import LpPlatform.WalletsUnique

/-!
# One adjustment, two ways to execute it

A wallet adjustment below the threshold is executed by the endpoint that asks
for it, and one above it by the watcher, from the JSON that was stored. The
endpoint prints the amount canonically before the handler reads it and its
adapter inserts both legs in one statement, where the watcher's inserts them
one after the other. On one ledger both append the same legs, or both fail.
-/

namespace LpPlatform.DirectAndQueued

open Amounts ApprovalWatcher AuditInterceptor AuditedTransactions FourEyes JsValues Ledger PendingActions RowStore
open SessionTrails SoloRuns StatementProgram Tables WalletAdjust WalletsUnique

/-- `InterventionsController.walletAdjust`, in the transaction of its audit
row. -/
def direct (D : Driver) (paise : ℕ) (ctx : AdminRequestContext) (body : Json) :
    Program WalletAdjustReply :=
  runInTx ctx (.ofConfig "wallet.adjust" "wallet" none) (walletAdjust D paise ctx body)

/-- The endpoint of the other modules is this one without its reply. -/
theorem admin_walletAdjust (D : Driver) (paise : ℕ) (ctx : AdminRequestContext) (body : Json) :
    admin D paise (.walletAdjust ctx body) = (direct D paise ctx body).bind fun _ => .done () := rfl

/-- An action that stores an adjustment. -/
structure Stores (body : WalletAdjustBody) (a : PendingAction) : Prop where
  type : a.actionType = .walletAdjust
  payload : a.payload = body.payload

/-- What an execution appends to a ledger: a wallet when there was none, and
two legs on it with one reference. -/
structure Appends (d d' : Store) (made : Bool) (wallet : Wallet) (x y : LedgerEntry) : Prop where
  wallets : d'.wallets = d.wallets ++ if made then [wallet] else []
  entries : d'.entries = d.entries ++ [x, y]
  /-- The wallet was there unless it was made. -/
  found : made = false → wallet ∈ d.wallets
  /-- It is made only when the broker has none in the currency. -/
  missing : made = true → ∀ w ∈ d.wallets, ¬ (w.brokerId = wallet.brokerId ∧ w.currency = wallet.currency)
  walletX : x.walletId = wallet.walletId
  walletY : y.walletId = wallet.walletId
  reference : y.referenceId = x.referenceId

/-- Two legs that are the same but for their ids. -/
structure SameLeg (x x' : LedgerEntry) : Prop where
  direction : x.direction = x'.direction
  amount : x.amount = x'.amount
  currency : x.currency = x'.currency
  referenceType : x.referenceType = x'.referenceType
  description : x.description = x'.description

/-- Two executions that start from one ledger have appended the same to it, up
to fresh ids, or the column holds no such amount and both have failed. -/
inductive Agree (m : Money) (d d₁ d₂ : Store) :
    Except Failure WalletAdjustReply → Except Failure Bool → Prop where
  | posted {made w w' x y x' y'} (first : Appends d d₁ made w x y) (second : Appends d d₂ made w' x' y')
      (hfound : made = false → w = w') (hbroker : w.brokerId = w'.brokerId)
      (hcurrency : w.currency = w'.currency) (hx : SameLeg x x') (hy : SameLeg y y') :
      Agree m d d₁ d₂ (.ok (.executed [x.entryId, y.entryId])) (.ok true)
  | neither {err overflow} (hamount : Numeric.insert m.toString = .error overflow)
      (hwallets₁ : d₁.wallets = d.wallets) (hentries₁ : d₁.entries = d.entries)
      (hwallets₂ : d₂.wallets = d.wallets) (hentries₂ : d₂.entries = d.entries) :
      Agree m d d₁ d₂ (.error err) (.ok false)

/-- The row of a leg of an adjustment. -/
def legRow (walletId currency referenceId description : String) (direction : LedgerDirection)
    (amount : Numeric) (id : ℕ) (entryId : String) : LedgerEntry :=
  ⟨id, entryId, walletId, direction, amount, currency, .adjustment, referenceId, description⟩

section Handler

variable {D : Driver} {ops : LedgerOps} {d : Store} {s s' : Held Write Input}
variable {brokerId amount currency reason : String} {direction : LedgerDirection} {m : Money}

theorem entry_strings (walletId referenceId description : String) :
    D.entry ⟨walletId, some (.str (directionText direction)), amount, some (.str currency),
      .adjustment, referenceId, description⟩ =
      (Numeric.insert amount).map (legRow walletId currency referenceId description direction) := by
  have hdirection : D.direction (some (.str (directionText direction))) = .ok direction := by
    cases direction <;> simp [Driver.direction, D.text_str, directionText]
  have hcolumn : D.column (some (.str currency)) = .ok currency := by
    simp [Driver.column, D.text_str]
  simp only [Driver.entry, hdirection, hcolumn, bind, Except.bind]
  cases Numeric.insert amount <;> rfl

theorem contra_directionText :
    contra (some (.str (directionText direction))) = some (.str (directionText (opposite direction))) := by
  cases direction <;> rfl

/-- Canonical text is canonical when it is read again. -/
theorem new_toString_toString {m m' : Money} (h : Money.new m.toString = .ok m') :
    m'.toString = m.toString := by
  obtain rfl := Except.ok.inj ((new_of_literal (literal?_toString m)).symm.trans h)
  have hstrip : stripZeros m.coefficient m.scale = (m.coefficient, m.scale) := by
    cases hs : m.scale with
    | zero => rfl
    | succ k =>
      have hc : ¬ m.coefficient % 10 = 0 := m.normal.resolve_left (by omega)
      simp [stripZeros, hc]
  simp [Money.toString, ofLiteral, hstrip, Money.isNegative, Money.isZero]

/-- A wallet of the broker in the currency: one that is there, or a new one when
there is none. -/
structure Found (wallets : List Wallet) (brokerId currency : String) (made : Bool) (w : Wallet) :
    Prop where
  broker : w.brokerId = brokerId
  unit : w.currency = currency
  found : made = false → w ∈ wallets
  missing : made = true → ∀ w' ∈ wallets, ¬ (w'.brokerId = brokerId ∧ w'.currency = currency)

/-- Both adapters look the wallet up and insert one when there is none. -/
theorem within_findOrCreateWallet {r : Except Failure Wallet}
    (h : within platform (findOrCreateWallet D (some (.str brokerId)) (some (.str currency))) d s =
      some (r, s')) :
    ∃ w made, r = .ok w ∧
      s'.writes = s.writes ++ (if made then [.insertWallet w] else []) ∧
      Found (platform.applyAll d s.writes).wallets brokerId currency made w := by
  have htext : ∀ x : String, (some (Json.str x)).bind D.text = some x := fun x => by
    rw [Option.bind_some, D.text_str]
  obtain ⟨i, is, -, hrest⟩ := within_query_bind h
  cases hexisting : anyRow ((s.view platform d).own.wallets.filter fun w =>
      (some (Json.str brokerId)).bind D.text = some w.brokerId ∧
        (some (Json.str currency)).bind D.text = some w.currency) i.pick with
  | some w =>
    rw [hexisting] at hrest
    have hmem := anyRow_mem hexisting
    simp only [htext, List.mem_filter, decide_eq_true_eq, Option.some.injEq] at hmem
    obtain ⟨rfl, rfl⟩ := Prod.mk.inj (Option.some.inj hrest)
    exact ⟨w, false, rfl, by simp, hmem.2.1.symm, hmem.2.2.symm, fun _ => hmem.1, by simp⟩
  | none =>
    rw [hexisting] at hrest
    have hempty := anyRow_none hexisting
    simp only [htext, List.filter_eq_nil_iff, decide_eq_true_eq, Option.some.injEq] at hempty
    have hcolumn : ∀ x : String, D.column (some (.str x)) = .ok x := fun x => by
      simp [Driver.column, D.text_str]
    simp only [hcolumn] at hrest
    obtain ⟨i', is', -, rfl, rfl⟩ := within_exec hrest
    refine ⟨_, true, rfl, rfl, rfl, rfl, by simp, fun _ w' hw' hsame => ?_⟩
    exact hempty w' hw' ⟨hsame.1.symm, hsame.2.symm⟩

/-- Both adapters store the legs as their rows, one statement or two, unless
the amount does not fit the column. -/
theorem within_postPair (hops : ops = drizzleLedgerOps D ∨ ops = pgLedgerOps D) {legA legB : PostingLeg}
    {rowA rowB : Numeric → ℕ → String → LedgerEntry} {r : Except Failure (List String)}
    (hA : D.entry legA = (Numeric.insert amount).map rowA)
    (hB : D.entry legB = (Numeric.insert amount).map rowB)
    (hidA : ∀ x id entryId, (rowA x id entryId).entryId = entryId)
    (hidB : ∀ x id entryId, (rowB x id entryId).entryId = entryId)
    (h : within platform (ops.postPair legA legB) d s = some (r, s')) :
    (∃ x idA entryA idB entryB, Numeric.insert amount = .ok x ∧ r = .ok [entryA, entryB] ∧
      s'.writes = s.writes ++
        [.insertEntry (rowA x idA entryA), .insertEntry (rowB x idB entryB)]) ∨
    ∃ e, Numeric.insert amount = .error e ∧ r = .error e := by
  cases hx : Numeric.insert amount with
  | error e =>
    rw [hx] at hA
    refine Or.inr ⟨e, rfl, ?_⟩
    rcases hops with rfl | rfl
    · simp only [drizzleLedgerOps, Ledger.postPair, hA, Except.map] at h
      exact (Prod.mk.inj (Option.some.inj h)).1.symm
    · simp only [pgLedgerOps, postLeg, hA, Except.map] at h
      exact (Prod.mk.inj (Option.some.inj h)).1.symm
  | ok x =>
    rw [hx] at hA hB
    refine Or.inl ?_
    rcases hops with rfl | rfl
    · simp only [drizzleLedgerOps, Ledger.postPair, hA, hB, Except.map] at h
      obtain ⟨rows, hexec, rfl⟩ := within_map h
      obtain ⟨i, is, -, rfl, rfl⟩ := within_exec hexec
      exact ⟨x, _, _, _, _, rfl, by simp [Except.map, hidA, hidB], rfl⟩
    · simp only [pgLedgerOps, postLeg, hA, hB, Except.map] at h
      obtain ⟨i, is, -, hrest⟩ := within_exec_bind h
      obtain ⟨i', is', -, hlast⟩ := within_exec_bind hrest
      obtain ⟨rfl, rfl⟩ := Prod.mk.inj (Option.some.inj hlast)
      exact ⟨x, _, _, _, _, rfl, rfl, List.append_assoc _ _ _⟩

/-- What the handler has made of a payload, with either adapter. -/
inductive Adjusted (d : Store) (s : Held Write Input) (brokerId currency reason : String)
    (direction : LedgerDirection) (m : Money) (s' : Held Write Input) :
    Except Failure WalletAdjustResult → Prop where
  | posted {w made x referenceId idA entryA idB entryB}
      (hfound : Found (platform.applyAll d s.writes).wallets brokerId currency made w)
      (hamount : Numeric.insert m.toString = .ok x)
      (hwrites : s'.writes = s.writes ++ (if made then [.insertWallet w] else []) ++
        [.insertEntry (legRow w.walletId currency referenceId s!"admin adjust: {reason}" direction x
          idA entryA),
        .insertEntry (legRow w.walletId currency referenceId s!"admin adjust (contra): {reason}"
          (opposite direction) x idB entryB)]) :
      Adjusted d s brokerId currency reason direction m s'
        (.ok ⟨[entryA, entryB], w.walletId, referenceId⟩)
  | overflow {e} (hamount : Numeric.insert m.toString = .error e) :
      Adjusted d s brokerId currency reason direction m s' (.error e)

/-- The handler of a positive amount in strings. -/
theorem executeWalletAdjust_eq (hm : Money.new amount = .ok m)
    (hpos : (m.isZero || m.isNegative) = false) :
    executeWalletAdjust (.ofStrings brokerId (directionText direction) amount currency reason) ops =
      (ops.findOrCreateWallet (some (.str brokerId)) (some (.str currency))).bind fun walletId =>
        (draw (Input.id · 0)).bind fun referenceId =>
          (ops.postPair
            ⟨walletId, some (.str (directionText direction)), m.toString, some (.str currency),
              .adjustment, referenceId, s!"admin adjust: {reason}"⟩
            ⟨walletId, some (.str (directionText (opposite direction))), m.toString,
              some (.str currency), .adjustment, referenceId,
              s!"admin adjust (contra): {reason}"⟩).bind fun entryIds =>
            .done ⟨entryIds, walletId, referenceId⟩ := by
  have hparsed : Money.ofJson (some (.str amount)) = .ok m := hm
  unfold executeWalletAdjust WalletAdjustPayload.ofStrings
  rw [hparsed, contra_directionText]
  exact if_neg (by simp [hpos])

/-- The handler depends on the amount only through its canonical text. -/
theorem within_executeWalletAdjust (hops : ops = drizzleLedgerOps D ∨ ops = pgLedgerOps D)
    {r : Except Failure WalletAdjustResult} (hm : Money.new amount = .ok m)
    (hpos : (m.isZero || m.isNegative) = false)
    (h : within platform (executeWalletAdjust (.ofStrings brokerId (directionText direction) amount
      currency reason) ops) d s = some (r, s')) :
    Adjusted d s brokerId currency reason direction m s' r := by
  have hwallet : ops.findOrCreateWallet (some (.str brokerId)) (some (.str currency)) =
      (findOrCreateWallet D (some (.str brokerId)) (some (.str currency))).bind fun w =>
        .done w.walletId := by
    rcases hops with rfl | rfl <;> rfl
  rw [executeWalletAdjust_eq hm hpos, hwallet] at h
  rcases within_bind h with ⟨walletId, mid, hfind, hrest⟩ | ⟨e, hfind, -⟩
  · obtain ⟨found, hw, hid⟩ := within_map hfind
    obtain ⟨w, made, rfl, hwrites, hfound⟩ := within_findOrCreateWallet hw
    obtain rfl := Except.ok.inj hid
    obtain ⟨i, is, -, hpost⟩ := within_query_bind hrest
    obtain ⟨entryIds, hpair, rfl⟩ := within_map hpost
    rcases within_postPair hops (entry_strings _ _ _) (entry_strings _ _ _) (fun _ _ _ => rfl)
      (fun _ _ _ => rfl) hpair with ⟨x, idA, entryA, idB, entryB, hx, rfl, hlast⟩ | ⟨e, hx, rfl⟩
    · exact .posted hfound hx (by rw [hlast, hwrites])
    · exact .overflow hx
  · obtain ⟨found, hw, hid⟩ := within_map hfind
    obtain ⟨w, made, rfl, -⟩ := within_findOrCreateWallet hw
    simp [Except.map] at hid

end Handler

section Paths

variable {D : Driver} {paise : ℕ} {ctx : AdminRequestContext} {config : AdminAudit} {json : Json}
variable {body : WalletAdjustBody} {m : Money} {d d' e e' : Store} {n n' : ℕ} {inputs : List Input}

/-- An audited endpoint run alone commits what its handler wrote and the row of
its success, or changes nothing. -/
theorem solo_runInTx {α : Type} {handler : AdminAudit → Program (α × AdminAudit)}
    {r : Except Failure α} (hauto : AutoCommits (handler config))
    (h : (runInTx ctx config handler).solo platform inputs d n none = some (r, d', n')) :
    ∃ mid, (∃ a audit row, within platform (handler config) d ⟨inputs, n, []⟩ = some (.ok (a, audit), mid) ∧
        r = .ok a ∧ d' = platform.applyAll d (mid.writes ++ [.insertAudit row])) ∨
      ∃ err, within platform (handler config) d ⟨inputs, n, []⟩ = some (.error err, mid) ∧
        r = .error err ∧ d' = d := by
  unfold runInTx at h
  have hsolo := fun hbody => solo_transaction (S := platform) hbody h
  obtain ⟨last, hin, hend⟩ := hsolo (auto_bind (auto_tryCatch hauto fun err =>
    auto_bind (auto_exec _ _) fun _ => trivial) fun r => auto_bind (auto_exec _ _) fun _ => trivial)
  rcases within_bind hin with ⟨⟨a, audit⟩, mid, hhandler, hrest⟩ | ⟨err, hhandler, rfl⟩
  · obtain ⟨i, is, -, hdone⟩ := within_exec_bind hrest
    obtain ⟨rfl, rfl⟩ := Prod.mk.inj (Option.some.inj hdone)
    rcases within_tryCatch hhandler with ⟨x, hx, heq⟩ | ⟨err, mid', -, hfailed⟩
    · obtain rfl := Except.ok.inj heq
      rcases hend with ⟨b, -, hd'⟩ | ⟨err, herr, -⟩
      · exact ⟨mid, Or.inl ⟨a, audit, _, hx, rfl, hd'⟩⟩
      · simp at herr
    · obtain ⟨i, is, -, hthrow⟩ := within_exec_bind hfailed
      simp [within] at hthrow
  · rcases within_tryCatch hhandler with ⟨x, -, heq⟩ | ⟨err', mid', hx, hfailed⟩
    · simp at heq
    · obtain ⟨i, is, -, hthrow⟩ := within_exec_bind hfailed
      obtain ⟨heq, -⟩ := Prod.mk.inj (Option.some.inj hthrow)
      obtain rfl := Except.error.inj heq
      rcases hend with ⟨b, hok, -⟩ | ⟨err, herr, hd'⟩
      · simp at hok
      · exact ⟨mid', Or.inr ⟨err', hx, rfl, hd'⟩⟩

/-- A positive amount passes the handler's own check. -/
theorem passes_of_pos (h : 0 < m.value) : (m.isZero || m.isNegative) = false := by
  have hpositive := (isPositive_iff m).mpr h
  simp only [Money.isPositive, Bool.and_eq_true, Bool.not_eq_true'] at hpositive
  simp [Money.isNegative, hpositive.1, hpositive.2]

/-- The endpoint queues an adjustment, or runs the handler on the canonical text
of its amount. -/
theorem within_walletAdjust {audit : AdminAudit} {s s' : Held Write Input}
    {r : Except Failure (WalletAdjustReply × AdminAudit)} (hschema : walletAdjustSchema json = .ok body)
    (hm : Money.new body.amount = .ok m) (hpos : (m.isZero || m.isNegative) = false)
    (h : within platform (walletAdjust D paise ctx json audit) d s = some (r, s')) :
    (∃ a audit', r = .ok (.queuedForApproval a.actionId, audit') ∧ Stores body a ∧
        a.status = .pending ∧ s'.writes = s.writes ++ [.insertAction a]) ∨
      ∃ r₀, within platform (executeWalletAdjust (.ofStrings body.brokerId
          (directionText body.direction) m.toString body.currency body.reason)
          (drizzleLedgerOps D)) d s = some (r₀, s') ∧
        ((∃ result audit', r₀ = .ok result ∧ r = .ok (.executed result.entryIds, audit')) ∨
          ∃ err, r₀ = .error err ∧ r = .error err) := by
  obtain ⟨t, ht⟩ : ∃ t, Money.fromPaise paise = .ok t := ⟨_, rfl⟩
  unfold walletAdjust at h
  rw [hschema] at h
  simp only [StatementProgram.ofExcept, bind_eq, Prog.bind, hm, ht, hpos, ensure, Bool.not_false,
    if_true] at h
  split at h
  · obtain ⟨i, is, -, hrest⟩ := within_query_bind h
    obtain ⟨i', is', -, hdone⟩ := within_exec_bind hrest
    obtain ⟨rfl, rfl⟩ := Prod.mk.inj (Option.some.inj hdone)
    exact Or.inl ⟨_, _, rfl, ⟨rfl, rfl⟩, rfl, rfl⟩
  · obtain ⟨r₀, hadjust, rfl⟩ := within_map h
    refine Or.inr ⟨r₀, hadjust, ?_⟩
    cases r₀ with
    | ok result => exact Or.inl ⟨result, _, rfl, rfl⟩
    | error err => exact Or.inr ⟨err, rfl, rfl⟩

/-- The endpoint that does not queue the adjustment has run the handler on the
canonical text of its amount. -/
theorem solo_direct {r : Except Failure WalletAdjustReply} (hschema : walletAdjustSchema json = .ok body)
    (hm : Money.new body.amount = .ok m) (hpos : (m.isZero || m.isNegative) = false)
    (hnow : ∀ actionId, r ≠ .ok (.queuedForApproval actionId))
    (h : (direct D paise ctx json).solo platform inputs d n none = some (r, d', n')) :
    ∃ s' r₀, within platform (executeWalletAdjust (.ofStrings body.brokerId
        (directionText body.direction) m.toString body.currency body.reason)
        (drizzleLedgerOps D)) d ⟨inputs, n, []⟩ = some (r₀, s') ∧
      ((∃ result row, r₀ = .ok result ∧ r = .ok (.executed result.entryIds) ∧
          d' = platform.applyAll d (s'.writes ++ [.insertAudit row])) ∨
        ∃ err, r₀ = .error err ∧ r = .error err ∧ d' = d) := by
  obtain ⟨mid, ⟨reply, audit, row, hin, rfl, hd'⟩ | ⟨err, hin, rfl, hd'⟩⟩ :=
    solo_runInTx (auto_walletAdjust json) h
  · rcases within_walletAdjust hschema hm hpos hin with ⟨a, audit', heq, -⟩ | ⟨r₀, hadjust, hr⟩
    · obtain ⟨rfl, -⟩ := Prod.mk.inj (Except.ok.inj heq)
      exact absurd rfl (hnow a.actionId)
    · rcases hr with ⟨result, audit', rfl, heq⟩ | ⟨err, -, heq⟩
      · obtain ⟨rfl, -⟩ := Prod.mk.inj (Except.ok.inj heq)
        exact ⟨mid, _, hadjust, Or.inl ⟨result, row, rfl, rfl, hd'⟩⟩
      · simp at heq
  · rcases within_walletAdjust hschema hm hpos hin with ⟨a, audit', heq, -⟩ | ⟨r₀, hadjust, hr⟩
    · simp at heq
    · rcases hr with ⟨result, audit', -, heq⟩ | ⟨err', rfl, heq⟩
      · simp at heq
      · obtain rfl := Except.error.inj heq
        exact ⟨mid, _, hadjust, Or.inr ⟨err, rfl, rfl, hd'⟩⟩

/-- The endpoint that queues the adjustment stores its body in a pending action. -/
theorem queued_stores {actionId : String} (hschema : walletAdjustSchema json = .ok body)
    (hm : Money.new body.amount = .ok m) (hpos : 0 < m.value)
    (h : (direct D paise ctx json).solo platform inputs d n none =
      some (.ok (.queuedForApproval actionId), d', n')) :
    ∃ a, a.actionId = actionId ∧ Stores body a ∧ a.status = .pending ∧
      d'.actions = d.actions ++ [a] := by
  obtain ⟨mid, ⟨reply, audit, row, hin, hreply, rfl⟩ | ⟨err, -, herr, -⟩⟩ :=
    solo_runInTx (auto_walletAdjust json) h
  · obtain rfl := Except.ok.inj hreply
    rcases within_walletAdjust hschema hm (passes_of_pos hpos) hin with
      ⟨a, audit', heq, hstores, hpending, hwrites⟩ | ⟨r₀, -, hr⟩
    · obtain ⟨hid, -⟩ := Prod.mk.inj (Except.ok.inj heq)
      obtain rfl := WalletAdjustReply.queuedForApproval.inj hid
      refine ⟨a, rfl, hstores, hpending, ?_⟩
      rw [hwrites]
      rfl
    · rcases hr with ⟨result, audit', -, heq⟩ | ⟨err, -, heq⟩
      · simp at heq
      · simp at heq
  · simp at herr

/-- A stored body is dispatched to the handler with the strings it had. -/
theorem dispatch_stored {a : PendingAction} {ops : LedgerOps} (h : Stores body a) :
    dispatch a.actionType a.payload ops = (executeWalletAdjust (.ofStrings body.brokerId
      (directionText body.direction) body.amount body.currency body.reason) ops).bind fun result =>
        .done (.walletAdjust result) := by
  rw [h.type, h.payload]
  unfold dispatch
  rw [ofJson_payload]
  rfl

/-- A failed execution is rolled back and recorded. -/
theorem solo_failed {actionId : String} {metadata : Json} {held : Option (List Write)}
    {r : Except Failure Bool}
    (h : (Prog.rollback (((record actionId .failure metadata).tryCatch fun _ => .done ()).bind
      fun _ => .done false) : Program Bool).solo platform inputs e n held = some (r, e', n')) :
    r = .ok false ∧ ∃ row, e' = platform.apply e (.insertAudit row) := by
  cases inputs with
  | nil => simp [Prog.solo, record, exec, Prog.tryCatch, Prog.bind] at h
  | cons i inputs =>
    simp only [Prog.solo, record, exec, Prog.tryCatch, Prog.bind, Option.ite_none_right_eq_some,
      Option.some.injEq, Prod.mk.injEq] at h
    exact ⟨h.2.1.symm, _, h.2.2.1.symm⟩

/-- The watcher that executes an approved action has run the handler on the
fields of its payload. -/
theorem solo_queued {a : PendingAction} {r : Except Failure Bool} (ha : a ∈ e.actions)
    (happroved : a.status = .approved) (hstores : Stores body a)
    (h : (executeOne D ⟨a.actionId, a.actionType, a.payload, a.approvedBy⟩).solo platform inputs e n
      none = some (r, e', n')) :
    ∃ s s' r₀ now, s.writes = [.changeAction a.actionId (.execute now)] ∧
      within platform (executeWalletAdjust (.ofStrings body.brokerId (directionText body.direction)
        body.amount body.currency body.reason) (pgLedgerOps D)) e s = some (r₀, s') ∧
      ((∃ result row, r₀ = .ok result ∧ r = .ok true ∧
          e' = platform.applyAll e (s'.writes ++ [.insertAudit row])) ∨
        ∃ err row, r₀ = .error err ∧ r = .ok false ∧ e' = platform.apply e (.insertAudit row)) := by
  cases inputs with
  | nil => simp [executeOne, reach, query, Prog.bind, Prog.solo] at h
  | cons i₀ inputs =>
    obtain ⟨mid, ⟨count, hclaim, hrest⟩ | ⟨err, hclaim, -⟩⟩ := solo_bind_tryCatch
      (s := ⟨inputs, n, []⟩) (auto_exec _ _) (show (((claim a.actionId).bind _).tryCatch _).solo
        platform inputs e n (some []) = some (r, e', n') from h)
    · obtain ⟨i, is, -, hcount, rfl⟩ := within_exec hclaim
      have hmem : a ∈ claimable a.actionId ((⟨inputs, n, []⟩ : Held Write Input).view platform e) :=
        List.mem_filter.mpr ⟨mem_rowsAt.mpr ⟨ha, rfl⟩, by simpa using happroved⟩
      have hne := List.ne_nil_of_mem hmem
      have hempty : (claimable a.actionId
          ((⟨inputs, n, []⟩ : Held Write Input).view platform e)).isEmpty = false := by
        simpa [List.isEmpty_eq_false_iff] using hne
      obtain rfl := Except.ok.inj hcount
      have hcount : ¬ (claimable a.actionId
          ((⟨inputs, n, []⟩ : Held Write Input).view platform e)).length = 0 := by
        simpa using hne
      rw [if_neg hcount] at hrest
      simp only [dispatch_stored hstores] at hrest
      have hauto : AutoCommits ((executeWalletAdjust (.ofStrings body.brokerId
          (directionText body.direction) body.amount body.currency body.reason)
          (pgLedgerOps D)).bind fun result => (.done (.walletAdjust result) : Program DispatchResult)) :=
        auto_bind (auto_executeWalletAdjust _ (Or.inr rfl)) fun _ => trivial
      have hwrites : [] ++ (if (claimable a.actionId
          ((⟨inputs, n, []⟩ : Held Write Input).view platform e)).isEmpty then []
          else [Write.changeAction a.actionId (.execute i.now)]) =
          [.changeAction a.actionId (.execute i.now)] := by rw [hempty]; rfl
      obtain ⟨mid, ⟨result, hdispatch, hrest⟩ | ⟨err, hdispatch, hfailed⟩⟩ := solo_bind_tryCatch
        (s := ⟨is, _, _⟩) hauto hrest
      · obtain ⟨r₀, hadjust, hresult⟩ := within_map hdispatch
        obtain ⟨last, ⟨_, hrecord, hrest⟩ | ⟨err, hrecord, -⟩⟩ := solo_bind_tryCatch (auto_exec _ _) hrest
        · obtain ⟨i', is', -, -, rfl⟩ := within_exec hrecord
          obtain ⟨hr, he', -⟩ : Except.ok true = r ∧ _ = e' ∧ _ := by
            simpa [Prog.solo, Prog.tryCatch] using hrest
          cases r₀ with
          | error err => simp [Except.map] at hresult
          | ok adjusted => exact ⟨_, mid, _, i.now, hwrites, hadjust, Or.inl ⟨adjusted, _, rfl, hr.symm, he'.symm⟩⟩
        · obtain ⟨i', is', -, hrecorded, -⟩ := within_exec hrecord
          simp at hrecorded
      · obtain ⟨r₀, hadjust, hresult⟩ := within_map hdispatch
        obtain ⟨rfl, row, rfl⟩ := solo_failed hfailed
        cases r₀ with
        | error err => exact ⟨_, mid, _, i.now, hwrites, hadjust, Or.inr ⟨err, row, rfl, rfl, rfl⟩⟩
        | ok adjusted => simp [Except.map] at hresult
    · obtain ⟨i, is, -, hcount, -⟩ := within_exec hclaim
      simp at hcount

/-- What the handler has appended when its transaction commits with an audit
row. -/
theorem appends_of_writes {brokerId currency : String} {made : Bool} {w : Wallet} {x y : LedgerEntry}
    {pre : List Write} {row : AuditLog} (hfound : Found d.wallets brokerId currency made w)
    (hprewallets : (platform.applyAll e pre).wallets = d.wallets)
    (hpreentries : (platform.applyAll e pre).entries = d.entries)
    (hx : x.walletId = w.walletId) (hy : y.walletId = w.walletId) (href : y.referenceId = x.referenceId) :
    Appends d (platform.applyAll e (pre ++ (if made then [.insertWallet w] else []) ++
      [.insertEntry x, .insertEntry y] ++ [.insertAudit row])) made w x y where
  wallets := by
    rw [List.append_assoc, List.append_assoc, applyAll_append]
    refine (walletRows.applyAll _ _).trans ?_
    cases made <;> simp [walletRows, hprewallets, Write.wallet?]
  entries := by
    rw [List.append_assoc, List.append_assoc, applyAll_append]
    refine (entryRows.applyAll _ _).trans ?_
    cases made with
    | false => simp [entryRows, hpreentries, Write.entry?]
    | true =>
      simp only [entryRows, hpreentries]
      rfl
  found := hfound.found
  missing hmade w' hw' := by
    rw [hfound.broker, hfound.unit]
    exact hfound.missing hmade w' hw'
  walletX := hx
  walletY := hy
  reference := href

/-- With one wallet for a pair, both executions find it or both make one. -/
theorem found_same {brokerId currency : String} {made made' : Bool} {w w' : Wallet}
    (hone : OneWallet d) (h : Found d.wallets brokerId currency made w)
    (h' : Found d.wallets brokerId currency made' w') : made = made' ∧ (made = false → w = w') := by
  have hsame : made = false → made' = false → w = w' := fun hm hm' =>
    List.inj_on_of_nodup_map hone (h.found hm) (h'.found hm')
      (Prod.ext (h.broker.trans h'.broker.symm) (h.unit.trans h'.unit.symm))
  cases made with
  | false =>
    cases made' with
    | false => exact ⟨rfl, fun _ => hsame rfl rfl⟩
    | true => exact absurd ⟨h.broker, h.unit⟩ (h'.missing rfl w (h.found rfl))
  | true =>
    cases made' with
    | false => exact absurd ⟨h'.broker, h'.unit⟩ (h.missing rfl w' (h'.found rfl))
    | true => exact ⟨rfl, by simp⟩

/-- A body that the endpoint executes at once, and the same body stored in an
approved action and executed by the watcher on the same ledger, append the same
legs up to fresh ids, or both fail and append nothing. -/
theorem direct_queued_agree {a : PendingAction} {is js : List Input} {k k' : ℕ}
    {r : Except Failure WalletAdjustReply} {r' : Except Failure Bool}
    (hschema : walletAdjustSchema json = .ok body) (hm : Money.new body.amount = .ok m)
    (hpos : 0 < m.value) (hone : OneWallet d)
    (hdirect : (direct D paise ctx json).solo platform is d n none = some (r, d', n'))
    (hnow : ∀ actionId, r ≠ .ok (.queuedForApproval actionId))
    (hwallets : e.wallets = d.wallets) (hentries : e.entries = d.entries) (ha : a ∈ e.actions)
    (happroved : a.status = .approved) (hstores : Stores body a)
    (hqueued : (executeOne D ⟨a.actionId, a.actionType, a.payload, a.approvedBy⟩).solo platform js e
      k none = some (r', e', k')) :
    Agree m d d' e' r r' := by
  have hpass := passes_of_pos hpos
  obtain ⟨m', hm', hvalue, -⟩ := new_toString m
  have htext := new_toString_toString hm'
  have hpass' := passes_of_pos (m := m') (hvalue.symm ▸ hpos)
  obtain ⟨s₁, r₁, hadjust₁, hend₁⟩ := solo_direct hschema hm hpass hnow hdirect
  obtain ⟨s, s₂, r₂, now, hs, hadjust₂, hend₂⟩ := solo_queued ha happroved hstores hqueued
  have hfirst := within_executeWalletAdjust (Or.inl rfl) hm' hpass' hadjust₁
  have hsecond := within_executeWalletAdjust (Or.inr rfl) hm hpass hadjust₂
  have hclaimed : (platform.applyAll e s.writes).wallets = d.wallets ∧
      (platform.applyAll e s.writes).entries = d.entries := by
    rw [hs]
    exact ⟨hwallets, hentries⟩
  cases hfirst with
  | @posted w₁ made₁ x₁ ref₁ idA₁ entryA₁ idB₁ entryB₁ hfound₁ hamount₁ hwrites₁ =>
    rw [htext] at hamount₁
    cases hsecond with
    | @posted w₂ made₂ x₂ ref₂ idA₂ entryA₂ idB₂ entryB₂ hfound₂ hamount₂ hwrites₂ =>
      obtain rfl : x₁ = x₂ := Except.ok.inj (hamount₁.symm.trans hamount₂)
      rw [hclaimed.1] at hfound₂
      obtain ⟨rfl, hsame⟩ := found_same hone hfound₁ hfound₂
      rcases hend₁ with ⟨result₁, row₁, heq₁, rfl, rfl⟩ | ⟨err, heq, -, -⟩
      · obtain rfl := Except.ok.inj heq₁
        rcases hend₂ with ⟨result₂, row₂, heq₂, rfl, rfl⟩ | ⟨err, row, heq, -, -⟩
        · rw [hwrites₁, hwrites₂]
          exact .posted (appends_of_writes hfound₁ rfl rfl (by rfl) (by rfl) (by rfl))
            (appends_of_writes hfound₂ hclaimed.1 hclaimed.2 (by rfl) (by rfl) (by rfl)) hsame
            (hfound₁.broker.trans hfound₂.broker.symm) (hfound₁.unit.trans hfound₂.unit.symm)
            ⟨rfl, rfl, rfl, rfl, rfl⟩ ⟨rfl, rfl, rfl, rfl, rfl⟩
        · simp at heq
      · simp at heq
    | overflow hamount₂ => simp [hamount₁] at hamount₂
  | overflow hamount₁ =>
    rw [htext] at hamount₁
    cases hsecond with
    | posted hfound₂ hamount₂ hwrites₂ => simp [hamount₁] at hamount₂
    | overflow hamount₂ =>
      rcases hend₁ with ⟨result, row, heq, -, -⟩ | ⟨err₁, -, rfl, rfl⟩
      · simp at heq
      · rcases hend₂ with ⟨result, row, heq, -, -⟩ | ⟨err₂, row, -, rfl, rfl⟩
        · simp at heq
        · exact .neither hamount₂ rfl rfl hwallets hentries

end Paths

section Examples

/-- An admin credits a broker. -/
def creditBody : Json :=
  .obj [("brokerId", .str "B1"), ("direction", .str "CREDIT"), ("amount", .str "0100.50"),
    ("currency", .str "INR"), ("reason", .str "late deposit")]

/-- The credit as the schema reads it. -/
def creditFields : WalletAdjustBody := ⟨"B1", .credit, "0100.50", "INR", "late deposit", by decide⟩

/-- An approved action with the same body. -/
def creditAction : PendingAction := approvedAction .walletAdjust creditFields.payload

/-- The ledger of the credit with the approved action. -/
def queuedCredit : Store := { oneWallet with actions := [creditAction] }

/-- The endpoint has executed the adjustment. -/
def executedNow : Except Failure WalletAdjustReply → Bool
  | .ok (.executed _) => true
  | _ => false

/-- One credit, executed at once and from the queue. -/
theorem direct_queued_agree_credit : ∃ r d' n' r' e' k', executedNow r = true ∧
    (direct plainDriver 1000000 ⟨"U1", "u1", none, none⟩ creditBody).solo platform
      [quiet, drawing "R1", ⟨0, ["E1", "E2"], 0⟩, drawing "L1"] oneWallet 2 none = some (r, d', n') ∧
    (executeOne plainDriver ⟨"A1", .walletAdjust, creditFields.payload, some "U2"⟩).solo platform
      [quiet, quiet, quiet, drawing "R2", drawing "E3", drawing "E4", drawing "L2"] queuedCredit 2
      none = some (r', e', k') ∧
    Agree (ofLiteral ⟨false, 10050, 2⟩) oneWallet d' e' r r' := by
  obtain ⟨⟨r, d', n'⟩, hdirect, hnow⟩ := (Option.any_eq_true ..).mp
    (show ((direct plainDriver 1000000 ⟨"U1", "u1", none, none⟩ creditBody).solo platform
      [quiet, drawing "R1", ⟨0, ["E1", "E2"], 0⟩, drawing "L1"] oneWallet 2 none).any
        (fun x => executedNow x.1) = true by decide +kernel)
  obtain ⟨⟨r', e', k'⟩, hqueued, -⟩ := (Option.any_eq_true ..).mp
    (show ((executeOne plainDriver ⟨"A1", .walletAdjust, creditFields.payload, some "U2"⟩).solo platform
      [quiet, quiet, quiet, drawing "R2", drawing "E3", drawing "E4", drawing "L2"] queuedCredit 2
        none).any (fun _ => true) = true by decide +kernel)
  have hpos : 0 < (ofLiteral ⟨false, 10050, 2⟩).value := by
    rw [litValue_ofLiteral, litValue_pos]
    exact ⟨rfl, by decide⟩
  refine ⟨r, d', n', r', e', k', hnow, hdirect, hqueued, ?_⟩
  have hschema : walletAdjustSchema creditBody = .ok creditFields := rfl
  refine direct_queued_agree (a := creditAction) (e := queuedCredit) hschema rfl hpos (by decide)
    hdirect (fun actionId hr => ?_) rfl rfl (by simp [queuedCredit]) rfl ⟨rfl, rfl⟩ hqueued
  subst hr
  simp [executedNow] at hnow

end Examples

end LpPlatform.DirectAndQueued
