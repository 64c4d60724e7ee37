import LpPlatform.ApprovalWatcher

/-!
# Four eyes on large adjustments

An execution leaves an audit row that names the entries it posted, and so does
an adjustment executed at once. By these rows every adjustment entry belongs to
one of the two. Along every run an executed action has one audit row of its
execution and one pair that pays what its payload said when it was stored, no
other action has any, and an entry above the threshold belongs to an action
that a second admin approved.
-/

namespace LpPlatform.FourEyes

open Amounts ApprovalWatcher AuditInterceptor InterferenceLogic JsValues Ledger PendingActions
open RowStore Sessions StatementProgram StepRuns Tables WalletAdjust

/-- The audit row of a successful execution. -/
def isExecution (row : AuditLog) : Bool := row.action = "pending.execute" ∧ row.outcome = .success

/-- The audit rows of the executions of an action. -/
def executionsOf (d : Store) (actionId : String) : List AuditLog :=
  d.audits.filter fun row => isExecution row ∧ row.resourceId = some actionId

/-- The entries that the audit row of an execution names. -/
def executedIds (row : AuditLog) : List String :=
  ((((row.metadata.field? "result").bind (Json.field? "result")).bind
    (Json.field? "entryIds")).map texts).getD []

/-- The entries an action has posted. -/
def entriesOf (d : Store) (actionId : String) : List LedgerEntry :=
  d.entries.filter fun e => e.entryId ∈ (executionsOf d actionId).flatMap executedIds

/-- A pair of entries that pays what the body of an adjustment says. -/
structure Paid (body : WalletAdjustBody) (wallet : Wallet) (x y : LedgerEntry) : Prop where
  broker : wallet.brokerId = body.brokerId
  unit : wallet.currency = body.currency
  walletX : x.walletId = wallet.walletId
  walletY : y.walletId = wallet.walletId
  typeX : x.referenceType = .adjustment
  typeY : y.referenceType = .adjustment
  currencyX : x.currency = body.currency
  currencyY : y.currency = body.currency
  directionX : x.direction = body.direction
  directionY : y.direction = opposite body.direction
  amounts : ∃ m, Money.new body.amount = .ok m ∧ x.amount.value = m.value ∧ y.amount.value = m.value

/-- An executed action has one execution and one pair, which pays its payload. -/
def Settled (d : Store) (a : PendingAction) : Prop :=
  ∃ row body wallet x y, executionsOf d a.actionId = [row] ∧ entriesOf d a.actionId = [x, y] ∧
    executedIds row = [x.entryId, y.entryId] ∧ a.payload = body.payload ∧ wallet ∈ d.wallets ∧
    Paid body wallet x y

/-- An adjustment entry was posted by an executed action, or at once and
within the threshold. -/
def Accounted (paise : ℕ) (d : Store) (e : LedgerEntry) : Prop :=
  (∃ a ∈ d.actions, a.status = .executed ∧ e ∈ entriesOf d a.actionId) ∨
    ((∃ row ∈ d.audits, e.entryId ∈ adjustedIds row) ∧ e.amount.value ≤ (paise : ℚ) / 100)

/-- A second admin has approved the action. -/
def SecondAdmin (a : PendingAction) : Prop :=
  ∃ approver, a.approvedBy = some approver ∧ approver ≠ a.requestedBy

/-- An action stores the body of an adjustment, and when it is approved or
executed a second admin has approved it. -/
structure InOrder (a : PendingAction) : Prop where
  type : a.actionType = .walletAdjust
  body : ∃ body : WalletAdjustBody, a.payload = body.payload
  approver : a.status = .approved ∨ a.status = .executed → SecondAdmin a

/-- What holds of the action table, the ledger and the audit log together. -/
structure Upheld (paise : ℕ) (d : Store) : Prop where
  /-- An adjustment above the threshold belongs to an action approved by a
  second admin. -/
  large : ∀ e ∈ d.entries, e.referenceType = .adjustment → (paise : ℚ) / 100 < e.amount.value →
    ∃ a ∈ d.actions, a.actionType = .walletAdjust ∧ e ∈ entriesOf d a.actionId ∧ SecondAdmin a
  /-- An executed action has one execution and one pair. -/
  executed : ∀ a ∈ d.actions, a.status = .executed → Settled d a
  /-- Any other action has none. -/
  idle : ∀ a ∈ d.actions, a.status ≠ .executed →
    executionsOf d a.actionId = [] ∧ entriesOf d a.actionId = []
  /-- Every adjustment entry is accounted for. -/
  accounted : ∀ e ∈ d.entries, e.referenceType = .adjustment → Accounted paise d e

/-- The invariant behind it. -/
structure Inv (paise : ℕ) (d : Store) : Prop where
  unique : UniqueActions d
  actions : ∀ a ∈ d.actions, InOrder a
  known : ∀ row ∈ d.audits, isExecution row = true →
    ∃ a ∈ d.actions, a.status = .executed ∧ row.resourceId = some a.actionId
  settled : ∀ a ∈ d.actions, a.status = .executed → Settled d a
  accounted : ∀ e ∈ d.entries, e.referenceType = .adjustment → Accounted paise d e

/-- A store in which nothing has been adjusted or asked for yet. -/
structure Unused (d : Store) : Prop where
  actions : d.actions = []
  entries : ∀ e ∈ d.entries, e.referenceType ≠ .adjustment
  audits : ∀ row ∈ d.audits, isExecution row = false

theorem inv_unused {paise : ℕ} {d : Store} (h : Unused d) : Inv paise d where
  unique := by simp [UniqueActions, h.actions]
  actions a ha := by simp [h.actions] at ha
  known row hrow hexec := by simp [h.audits row hrow] at hexec
  settled a ha := by simp [h.actions] at ha
  accounted e he htype := absurd htype (h.entries e he)

/-- Without an execution on record an action has posted nothing. -/
theorem entriesOf_nil {d : Store} {actionId : String} (h : executionsOf d actionId = []) :
    entriesOf d actionId = [] := by
  simp [entriesOf, h]

/-- An action that is not executed has no execution on record. -/
theorem executionsOf_idle {paise : ℕ} {d : Store} {a : PendingAction} (h : Inv paise d)
    (ha : a ∈ d.actions) (hstatus : a.status ≠ .executed) : executionsOf d a.actionId = [] := by
  refine List.filter_eq_nil_iff.mpr fun row hrow hexec => hstatus ?_
  obtain ⟨hexec, hid⟩ := of_decide_eq_true hexec
  obtain ⟨b, hb, hbstatus, hbid⟩ := h.known row hrow hexec
  have hsame : a.actionId = b.actionId := Option.some.inj (hid.symm.trans hbid)
  rw [action_unique h.unique ha hb hsame]
  exact hbstatus

/-- The invariant is what was wanted. -/
theorem upheld_of_inv {paise : ℕ} {d : Store} (h : Inv paise d) : Upheld paise d where
  large e he htype hlarge := by
    rcases h.accounted e he htype with ⟨a, ha, hstatus, hentry⟩ | ⟨_, hsmall⟩
    · exact ⟨a, ha, (h.actions a ha).type, hentry, (h.actions a ha).approver (Or.inr hstatus)⟩
    · exact absurd hsmall (not_le.mpr hlarge)
  executed := h.settled
  idle a ha hstatus :=
    ⟨executionsOf_idle h ha hstatus, entriesOf_nil (executionsOf_idle h ha hstatus)⟩
  accounted := h.accounted

/-- The ids of inserted entries are new. -/
theorem entries_fresh {d : Store} {ws : List Write} (hvalid : platform.validAll d ws = true)
    {e e' : LedgerEntry} (he : e ∈ d.entries) (he' : e' ∈ ws.filterMap Write.entry?) :
    e.entryId ≠ e'.entryId := by
  induction ws generalizing d with
  | nil => simp at he'
  | cons w ws ih =>
    obtain ⟨hw, hrest⟩ := Bool.and_eq_true_iff.mp hvalid
    have hkept : e ∈ (platform.apply d w).entries := entryRows.mono [w] he
    cases hrow : Write.entry? w with
    | none => exact ih hrest hkept (by simpa [hrow] using he')
    | some row =>
      rw [List.filterMap_cons_some hrow, List.mem_cons] at he'
      rcases he' with rfl | he'
      · cases w with
        | insertEntry row =>
          obtain rfl := Option.some.inj hrow
          intro hid
          have hmem : e ∈ rowsAt (·.entryId) row.entryId d.entries := mem_rowsAt.mpr ⟨he, hid⟩
          have hnone : (rowsAt (·.entryId) row.entryId d.entries).isEmpty = true := hw
          simp [List.isEmpty_iff.mp hnone] at hmem
        | _ => simp [Write.entry?] at hrow
      · exact ih hrest hkept he'

/-- A commit adds rows to the ledger and the audit log and moves some actions. -/
structure Adds (d d' : Store) (new : List LedgerEntry) (rows : List AuditLog) : Prop where
  entries : d'.entries = d.entries ++ new
  audits : d'.audits = d.audits ++ rows
  wallets : ∀ w ∈ d.wallets, w ∈ d'.wallets
  fresh : ∀ e ∈ d.entries, ∀ e' ∈ new, e.entryId ≠ e'.entryId

section Adds

variable {paise : ℕ} {d d' : Store} {new : List LedgerEntry} {rows : List AuditLog}

theorem adds_applyAll {ws : List Write} (hvalid : platform.validAll d ws = true) :
    Adds d (platform.applyAll d ws) (ws.filterMap Write.entry?) (ws.filterMap Write.audit?) where
  entries := entryRows.applyAll d ws
  audits := auditRows.applyAll d ws
  wallets _ hw := walletRows.mono ws hw
  fresh _ he _ he' := entries_fresh hvalid he he'

theorem executionsOf_adds (h : Adds d d' new rows) (actionId : String) :
    executionsOf d' actionId = executionsOf d actionId ++
      rows.filter fun row => isExecution row ∧ row.resourceId = some actionId := by
  simp [executionsOf, h.audits]

/-- Rows about other actions leave the executions of an action. -/
theorem executionsOf_other (h : Adds d d' new rows) {actionId : String}
    (hrows : ∀ row ∈ rows, isExecution row = true → row.resourceId ≠ some actionId) :
    executionsOf d' actionId = executionsOf d actionId := by
  have hnone : rows.filter (fun row => isExecution row ∧ row.resourceId = some actionId) = [] := by
    refine List.filter_eq_nil_iff.mpr fun row hrow hexec => ?_
    obtain ⟨hexec, hid⟩ := of_decide_eq_true hexec
    exact hrows row hrow hexec hid
  rw [executionsOf_adds h, hnone, List.append_nil]

/-- What an action has posted stays posted. -/
theorem entriesOf_mono (h : Adds d d' new rows) {actionId : String} {e : LedgerEntry}
    (he : e ∈ entriesOf d actionId) : e ∈ entriesOf d' actionId := by
  simp only [entriesOf, List.mem_filter, decide_eq_true_eq, List.mem_flatMap] at he ⊢
  obtain ⟨hmem, row, hrow, hid⟩ := he
  refine ⟨by simp [h.entries, hmem], row, ?_, hid⟩
  rw [executionsOf_adds h]
  exact List.mem_append_left _ hrow

/-- An action stays settled while no execution of it is recorded. -/
theorem settled_adds {a a' : PendingAction} (h : Adds d d' new rows) (ha : Settled d a)
    (hterms : a'.toActionTerms = a.toActionTerms)
    (hrows : ∀ row ∈ rows, isExecution row = true → row.resourceId ≠ some a.actionId) :
    Settled d' a' := by
  obtain ⟨row, body, wallet, x, y, hexec, hentries, hids, hpayload, hwallet, hpaid⟩ := ha
  have hexec' := (executionsOf_other h hrows).trans hexec
  have hx : x ∈ d.entries ∧ y ∈ d.entries := by
    have hboth : ∀ e ∈ [x, y], e ∈ d.entries := fun e he =>
      (List.mem_filter.mp (hentries ▸ he : e ∈ entriesOf d a.actionId)).1
    exact ⟨hboth x (by simp), hboth y (by simp)⟩
  have hentries' : entriesOf d' a.actionId = [x, y] := by
    have hnew : new.filter (fun e => e.entryId ∈ [row].flatMap executedIds) = [] := by
      refine List.filter_eq_nil_iff.mpr fun e he hid => ?_
      have hid' : e.entryId = x.entryId ∨ e.entryId = y.entryId := by simpa [hids] using hid
      rcases hid' with hid' | hid'
      · exact h.fresh x hx.1 e he hid'.symm
      · exact h.fresh y hx.2 e he hid'.symm
    have hold : d.entries.filter (fun e => e.entryId ∈ [row].flatMap executedIds) = [x, y] := by
      rw [← hentries, entriesOf, hexec]
    rw [entriesOf, hexec', h.entries, List.filter_append, hold, hnew, List.append_nil]
  rw [Settled, hterms]
  exact ⟨row, body, wallet, x, y, hexec', hentries', hids, hpayload, h.wallets wallet hwallet, hpaid⟩

/-- A commit that settles what it executes and accounts for what it posts
keeps the invariant. -/
theorem inv_adds (h : Inv paise d) (hadds : Adds d d' new rows) (hunique : UniqueActions d')
    (hactions : ∀ a' ∈ d'.actions, InOrder a')
    (hkept : ∀ a ∈ d.actions, a.status = .executed →
      ∃ a' ∈ d'.actions, a'.actionId = a.actionId ∧ a'.status = .executed)
    (hsettled : ∀ a' ∈ d'.actions, a'.status = .executed → Settled d' a')
    (hrows : ∀ row ∈ rows, isExecution row = true →
      ∃ a' ∈ d'.actions, a'.status = .executed ∧ row.resourceId = some a'.actionId)
    (hnew : ∀ e ∈ new, e.referenceType = .adjustment → Accounted paise d' e) : Inv paise d' where
  unique := hunique
  actions := hactions
  known row hrow hexec := by
    rw [hadds.audits, List.mem_append] at hrow
    rcases hrow with hrow | hrow
    · obtain ⟨a, ha, hstatus, hid⟩ := h.known row hrow hexec
      obtain ⟨a', ha', hid', hstatus'⟩ := hkept a ha hstatus
      exact ⟨a', ha', hstatus', by rw [hid, hid']⟩
    · exact hrows row hrow hexec
  settled := hsettled
  accounted e he htype := by
    rw [hadds.entries, List.mem_append] at he
    rcases he with he | he
    · rcases h.accounted e he htype with ⟨a, ha, hstatus, hentry⟩ | ⟨⟨row, hrow, hid⟩, hsmall⟩
      · obtain ⟨a', ha', hid', hstatus'⟩ := hkept a ha hstatus
        exact Or.inl ⟨a', ha', hstatus', by rw [hid']; exact entriesOf_mono hadds hentry⟩
      · exact Or.inr ⟨⟨row, by simp [hadds.audits, hrow], hid⟩, hsmall⟩
    · exact hnew e he htype

/-- A commit that executes nothing and posts nothing above the threshold. -/
theorem inv_unexecuted (h : Inv paise d) (hadds : Adds d d' new rows) (hunique : UniqueActions d')
    (hactions : ∀ a' ∈ d'.actions, InOrder a')
    (hexecuted : ∀ a, a.status = .executed → (a ∈ d'.actions ↔ a ∈ d.actions))
    (hrows : ∀ row ∈ rows, isExecution row = false)
    (hnew : ∀ e ∈ new, e.referenceType = .adjustment → Accounted paise d' e) : Inv paise d' := by
  have hnone : ∀ row ∈ rows, isExecution row = true → ∀ a : PendingAction,
      row.resourceId ≠ some a.actionId := fun row hrow hexec => by simp [hrows row hrow] at hexec
  refine inv_adds h hadds hunique hactions (fun a ha hstatus => ?_) (fun a ha hstatus => ?_)
    (fun row hrow hexec => ?_) hnew
  · exact ⟨a, (hexecuted a hstatus).mpr ha, rfl, hstatus⟩
  · have hold := h.settled a ((hexecuted a hstatus).mp ha) hstatus
    exact settled_adds hadds hold rfl fun row hrow hexec => hnone row hrow hexec a
  · simp [hrows row hrow] at hexec

end Adds

section Commits

variable {D : Driver} {paise : ℕ} {d : Store} {ws : List Write}

/-- Some actions that are not executed have been moved, and only by a second
admin to the status approved. -/
structure Moved (d x : Store) : Prop where
  origin : ∀ a' ∈ x.actions, ∃ a ∈ d.actions, a' = a ∨
    (a'.toActionTerms = a.toActionTerms ∧ a'.status ≠ .executed ∧
      (a'.status = .approved → SecondAdmin a'))
  executed : ∀ a ∈ d.actions, a.status = .executed → a ∈ x.actions

theorem moved_refl (d : Store) : Moved d d :=
  ⟨fun a ha => ⟨a, ha, Or.inl rfl⟩, fun _ ha _ => ha⟩

/-- One more change of an action that is not executed. -/
theorem moved_change {x : Store} {actionId : String} {change : ActionChange} (h : Moved d x)
    (hopen : ∀ a ∈ d.actions, a.actionId = actionId → a.status ≠ .executed)
    (hallowed : ∀ a ∈ d.actions, a.actionId = actionId → change.allowed a = true)
    (hchange : ∀ a, (change.apply a).status ≠ .executed) :
    Moved d (x.apply (.changeAction actionId change)) where
  origin a' ha' := by
    obtain ⟨r, hr, ⟨hid, rfl⟩ | ⟨_, rfl⟩⟩ := mem_updateAt.mp ha'
    · obtain ⟨a, ha, hfrom⟩ := h.origin r hr
      have hterms : r.toActionTerms = a.toActionTerms := by
        rcases hfrom with rfl | ⟨hterms, _⟩
        · rfl
        · exact hterms
      have haId : a.actionId = actionId := by rw [← hid, hterms]
      refine ⟨a, ha, Or.inr ⟨(apply_actionTerms r change).trans hterms, hchange r, fun happ => ?_⟩⟩
      have hok := hallowed a ha haId
      cases change with
      | approve approver now comment =>
        have hne : approver ≠ r.requestedBy := by
          rw [hterms]
          exact of_decide_eq_true hok
        exact ⟨approver, rfl, hne⟩
      | reject rejector now reason => simp [ActionChange.apply] at happ
      | execute now => simp [ActionChange.apply] at happ
      | expire => simp [ActionChange.apply] at happ
    · exact h.origin _ hr
  executed a ha hstatus :=
    mem_updateAt.mpr ⟨a, h.executed a ha hstatus, Or.inr ⟨fun hid => hopen a ha hid hstatus, rfl⟩⟩

/-- Moving actions keeps the invariant when nothing else than the audit log is
written and no execution is recorded. -/
theorem inv_moved (h : Inv paise d) (hvalid : platform.validAll d ws = true)
    (hmoved : Moved d (platform.applyAll d ws)) (hentries : ws.filterMap Write.entry? = [])
    (hrows : ∀ row ∈ ws.filterMap Write.audit?, isExecution row = false) :
    Inv paise (platform.applyAll d ws) := by
  refine inv_unexecuted h (adds_applyAll hvalid) (uniqueActions_applyAll h.unique hvalid)
    (fun a' ha' => ?_) (fun a hstatus => ⟨fun ha => ?_, fun ha => hmoved.executed a ha hstatus⟩)
    hrows (by simp [hentries])
  · obtain ⟨a, ha, rfl | ⟨hterms, hopen, happroved⟩⟩ := hmoved.origin a' ha'
    · exact h.actions _ ha
    · obtain ⟨htype, hbody, _⟩ := h.actions a ha
      refine ⟨by rw [hterms]; exact htype, by rw [hterms]; exact hbody, ?_⟩
      rintro (hstatus | hstatus)
      · exact happroved hstatus
      · exact absurd hstatus hopen
  · obtain ⟨b, hb, rfl | ⟨_, hopen, _⟩⟩ := hmoved.origin a ha
    · exact hb
    · exact absurd hstatus hopen

/-- One decision and its audit row. -/
theorem inv_decided {a : PendingAction} {change : ActionChange} {audit : AuditLog} (h : Inv paise d)
    (hvalid : platform.validAll d [.changeAction a.actionId change, .insertAudit audit] = true)
    (ha : a ∈ d.actions) (hpending : a.status = .pending) (hallowed : change.allowed a = true)
    (hchange : ∀ a, (change.apply a).status ≠ .executed) (haudit : isExecution audit = false) :
    Inv paise (platform.applyAll d [.changeAction a.actionId change, .insertAudit audit]) := by
  have hsame : ∀ b ∈ d.actions, b.actionId = a.actionId → b = a := fun b hb hid =>
    action_unique h.unique hb ha hid
  have hmoved : Moved d (d.apply (.changeAction a.actionId change)) := by
    refine moved_change (moved_refl d) (fun b hb hid => ?_) (fun b hb hid => ?_) hchange
    · simp [hsame b hb hid, hpending]
    · rw [hsame b hb hid]
      exact hallowed
  exact inv_moved h hvalid ⟨hmoved.origin, hmoved.executed⟩ rfl (by simpa [Write.audit?])

/-- Expiring pending actions keeps the invariant. -/
theorem inv_expired {rows : List PendingAction} (h : Inv paise d)
    (hvalid : platform.validAll d (rows.map fun a => .changeAction a.actionId .expire) = true)
    (hrows : ∀ a ∈ rows, a ∈ d.actions ∧ a.status = .pending) :
    Inv paise (platform.applyAll d (rows.map fun a => .changeAction a.actionId .expire)) := by
  have hmoved : Moved d
      (platform.applyAll d (rows.map fun a => .changeAction a.actionId .expire)) := by
    refine applyAll_stable platform (P := Moved d) (fun x w hw hx => ?_) (moved_refl d)
    obtain ⟨a, ha, rfl⟩ := List.mem_map.mp hw
    refine moved_change hx (fun b hb hid => ?_) (fun _ _ _ => rfl) fun _ => by simp [ActionChange.apply]
    rw [action_unique h.unique hb (hrows a ha).1 hid, (hrows a ha).2]
    simp
  refine inv_moved h hvalid hmoved ?_ ?_ <;> simp [List.filterMap_map, Function.comp_def, Write.entry?, Write.audit?]

/-- Queueing an adjustment keeps the invariant. -/
theorem inv_queued {body : WalletAdjustBody} {input : CreatePendingActionInput} {id : ℕ}
    {actionId : String} {now : Instant} {audit : AuditLog} (h : Inv paise d)
    (hvalid : platform.validAll d [.insertAction (input.row id actionId now), .insertAudit audit] =
      true) (htype : input.actionType = .walletAdjust) (hpayload : input.payload = body.payload)
    (haudit : isExecution audit = false) :
    Inv paise (platform.applyAll d [.insertAction (input.row id actionId now),
      .insertAudit audit]) := by
  have hactions : (platform.applyAll d [.insertAction (input.row id actionId now),
      .insertAudit audit]).actions = d.actions ++ [input.row id actionId now] := rfl
  refine inv_unexecuted h (adds_applyAll hvalid) (uniqueActions_applyAll h.unique hvalid)
    (fun a' ha' => ?_) (fun a hstatus => ?_) (by simpa [Write.audit?]) (by simp [Write.entry?])
  · rw [hactions, List.mem_append, List.mem_singleton] at ha'
    rcases ha' with ha' | rfl
    · exact h.actions a' ha'
    · exact ⟨htype, ⟨body, hpayload⟩, by simp [CreatePendingActionInput.row]⟩
  · have hne : a ≠ input.row id actionId now := by
      rintro rfl
      simp [CreatePendingActionInput.row] at hstatus
    rw [hactions]
    simp [hne]

/-- What a pair with a short amount is worth. -/
theorem pair_value {payload : WalletAdjustPayload} {m : Money} {wallet : Wallet}
    {referenceId : String} {x y : LedgerEntry} (hpair : AdjustPair D payload m wallet referenceId x y)
    (hscale : m.scale ≤ 4) : x.amount.value = m.value ∧ y.amount.value = m.value := by
  have hx := insert_toString hscale hpair.amountA
  exact ⟨hx, by rw [hpair.amountB, hx]⟩

/-- An amount within the threshold is at most the paise it stands for. -/
theorem below_threshold {threshold m : Money} {x : Numeric} (hx : x.value = m.value)
    (hthreshold : Money.fromPaise paise = .ok threshold) (hbelow : m.value ≤ threshold.value) :
    x.value ≤ (paise : ℚ) / 100 := by
  by_cases hsmall : paise < 10 ^ 40
  · obtain ⟨t, ht, hvalue⟩ := fromPaise_value hsmall
    obtain rfl : t = threshold := Except.ok.inj (ht.symm.trans hthreshold)
    rw [hx, ← hvalue]
    exact hbelow
  · -- the column holds nothing that large
    have hunits : x.units < 10 ^ 20 := by
      have hbound := x.bound
      omega
    have hpaise : (10 : ℚ) ^ 40 ≤ paise := by exact_mod_cast not_lt.mp hsmall
    have hcast : (x.units : ℚ) < 10 ^ 20 := by exact_mod_cast hunits
    rw [Numeric.value]
    linarith

/-- An adjustment executed at once keeps the invariant. -/
theorem inv_adjusted {payload : WalletAdjustPayload} {amount threshold : Money} {wallet : Wallet}
    {referenceId : String} {pre : List Write} {x y : LedgerEntry} {audit : AuditLog}
    (h : Inv paise d) (hvalid : platform.validAll d
      (pre ++ [.insertEntry x, .insertEntry y, .insertAudit audit]) = true)
    (hwallet : pre = [] ∨ pre = [.insertWallet wallet])
    (hpair : AdjustPair D payload amount wallet referenceId x y) (hscale : amount.scale ≤ 4)
    (hthreshold : Money.fromPaise paise = .ok threshold) (hbelow : amount.value ≤ threshold.value)
    (haudit : isExecution audit = false) (hnames : adjustedIds audit = [x.entryId, y.entryId]) :
    Inv paise (platform.applyAll d
      (pre ++ [.insertEntry x, .insertEntry y, .insertAudit audit])) := by
  obtain ⟨hx, hy⟩ := pair_value hpair hscale
  have hadds := adds_applyAll hvalid
  have hnew : List.filterMap Write.entry?
      (pre ++ [.insertEntry x, .insertEntry y, .insertAudit audit]) = [x, y] := by
    rcases hwallet with rfl | rfl <;> rfl
  have hrows : List.filterMap Write.audit?
      (pre ++ [.insertEntry x, .insertEntry y, .insertAudit audit]) = [audit] := by
    rcases hwallet with rfl | rfl <;> rfl
  have hactions : (platform.applyAll d
      (pre ++ [.insertEntry x, .insertEntry y, .insertAudit audit])).actions = d.actions := by
    rcases hwallet with rfl | rfl <;> rfl
  rw [hnew, hrows] at hadds
  refine inv_unexecuted h hadds (uniqueActions_applyAll h.unique hvalid) (hactions ▸ h.actions)
    (fun a _ => by rw [hactions]) (by simpa using haudit) fun e he _ => Or.inr ⟨⟨audit, ?_, ?_⟩, ?_⟩
  · simp [hadds.audits]
  · rw [hnames]
    rcases List.mem_pair.mp he with rfl | rfl <;> simp
  · rcases List.mem_pair.mp he with rfl | rfl
    · exact below_threshold hx hthreshold hbelow
    · exact below_threshold hy hthreshold hbelow

/-- The fields of a stored body are its strings. -/
theorem ofJson_payload (body : WalletAdjustBody) : WalletAdjustPayload.ofJson body.payload =
    .ok (.ofStrings body.brokerId (directionText body.direction) body.amount body.currency
      body.reason) := by
  simp [WalletAdjustPayload.ofJson, WalletAdjustBody.payload, Json.field?,
    WalletAdjustPayload.ofStrings]

/-- A dispatched body is paid. -/
theorem paid_of_pair {body : WalletAdjustBody} {m : Money} {wallet : Wallet} {referenceId : String}
    {x y : LedgerEntry} (hpair : AdjustPair D (.ofStrings body.brokerId (directionText body.direction)
      body.amount body.currency body.reason) m wallet referenceId x y) : Paid body wallet x y := by
  obtain ⟨hbroker, hunit, hdirection⟩ := pair_strings hpair
  obtain ⟨l, hl, _, hscale⟩ := isAmount_literal body.decimal
  have hparsed : Money.new body.amount = .ok m := hpair.parsed
  obtain rfl : ofLiteral l = m := Except.ok.inj ((new_of_literal hl).symm.trans hparsed)
  obtain ⟨hx, hy⟩ := pair_value hpair (Nat.le_trans (scale_ofLiteral l) hscale)
  exact ⟨hbroker, hunit, hpair.walletA, hpair.walletB, hpair.typeA, hpair.typeB,
    hpair.currencyA.trans hunit, hpair.currencyB.trans hunit, hdirection,
    hpair.directionB.trans (by rw [hdirection]), _, hparsed, hx, hy⟩

/-- The entries named by the audit row of an execution. -/
theorem executedIds_watcherRow {args : ActionRow} {result : WalletAdjustResult} {actionId : String}
    {id : ℕ} {auditId : String} : executedIds (watcherRow actionId .success
      (executedMetadata args (.walletAdjust result)) id auditId) = result.entryIds := by
  have htexts : ∀ ids : List String, (ids.map Json.str).filterMap Json.string? = ids := by
    intro ids
    simp [List.filterMap_map, Function.comp_def, Json.string?]
  simp [executedIds, watcherRow, executedMetadata, DispatchResult.json, Json.field?, texts, htexts]

/-- An execution keeps the invariant. -/
theorem inv_executed {a : PendingAction} {now : Instant} {result : DispatchResult}
    {approvedBy : Option String} {id : ℕ} {auditId : String} {row : AuditLog} (h : Inv paise d)
    (hrow : row = watcherRow a.actionId .success
      (executedMetadata ⟨a.actionId, a.actionType, a.payload, approvedBy⟩ result) id auditId)
    (hvalid : platform.validAll d
      (.changeAction a.actionId (.execute now) :: ws ++ [.insertAudit row]) = true)
    (ha : a ∈ d.actions) (happroved : a.status = .approved)
    (hdispatched : Dispatched D d a.actionType a.payload ws result) :
    Inv paise (platform.applyAll d
      (.changeAction a.actionId (.execute now) :: ws ++ [.insertAudit row])) := by
  obtain ⟨htype, ⟨body, hpayload⟩, happrover⟩ := h.actions a ha
  have hsecond := happrover (Or.inl happroved)
  rw [htype, hpayload] at hdispatched
  cases hdispatched with
  | notImplemented hother => exact absurd rfl hother
  | @walletAdjust _ fields amount wallet referenceId pre x y hfields hwallet hpair =>
    obtain rfl := Except.ok.inj ((ofJson_payload body).symm.trans hfields)
    have hpaid := paid_of_pair hpair
    have hids : executedIds row = [x.entryId, y.entryId] := by rw [hrow, executedIds_watcherRow]
    have hexec : isExecution row = true := by simp [hrow, isExecution, watcherRow]
    have hresource : row.resourceId = some a.actionId := by rw [hrow]; rfl
    have hadds := adds_applyAll hvalid
    have hunique := uniqueActions_applyAll h.unique hvalid
    have hnew : List.filterMap Write.entry? (.changeAction a.actionId (.execute now) ::
        (pre ++ [.insertEntry x, .insertEntry y]) ++ [.insertAudit row]) = [x, y] := by
      rcases hwallet with ⟨rfl, _⟩ | rfl <;> rfl
    have hrows : List.filterMap Write.audit? (.changeAction a.actionId (.execute now) ::
        (pre ++ [.insertEntry x, .insertEntry y]) ++ [.insertAudit row]) = [row] := by
      rcases hwallet with ⟨rfl, _⟩ | rfl <;> rfl
    have hactions : (platform.applyAll d (.changeAction a.actionId (.execute now) ::
        (pre ++ [.insertEntry x, .insertEntry y]) ++ [.insertAudit row])).actions =
        updateAt (·.actionId) a.actionId (fun b => (ActionChange.execute now).apply b) d.actions := by
      rcases hwallet with ⟨rfl, _⟩ | rfl <;> rfl
    have hmem : wallet ∈ (platform.applyAll d (.changeAction a.actionId (.execute now) ::
        (pre ++ [.insertEntry x, .insertEntry y]) ++ [.insertAudit row])).wallets := by
      rcases hwallet with ⟨_, hwallet⟩ | rfl
      · exact walletRows.mono _ hwallet
      · simp [Store.apply, platform]
    rw [hnew, hrows] at hadds
    generalize platform.applyAll d (.changeAction a.actionId (.execute now) ::
      (pre ++ [.insertEntry x, .insertEntry y]) ++ [.insertAudit row]) = d' at *
    -- the executed action is the only one that has changed
    have horigin : ∀ b ∈ d'.actions, b = (ActionChange.execute now).apply a ∨
        (b ∈ d.actions ∧ b.actionId ≠ a.actionId) := by
      intro b hb
      rw [hactions] at hb
      obtain ⟨r, hr, ⟨hid, rfl⟩ | ⟨hid, rfl⟩⟩ := mem_updateAt.mp hb
      · exact Or.inl (by rw [action_unique h.unique hr ha hid])
      · exact Or.inr ⟨hr, hid⟩
    have hexecuted : (ActionChange.execute now).apply a ∈ d'.actions := by
      rw [hactions]
      exact mem_updateAt.mpr ⟨a, ha, Or.inl ⟨rfl, rfl⟩⟩
    have hnone := executionsOf_idle h ha (by simp [happroved])
    have hone : executionsOf d' a.actionId = [row] := by
      rw [executionsOf_adds hadds, hnone]
      simp [hexec, hresource]
    have hentries : entriesOf d' a.actionId = [x, y] := by
      have hold : d.entries.filter (fun e => e.entryId ∈ [row].flatMap executedIds) = [] := by
        refine List.filter_eq_nil_iff.mpr fun e he hid => ?_
        have hid' : e.entryId = x.entryId ∨ e.entryId = y.entryId := by simpa [hids] using hid
        rcases hid' with hid' | hid'
        · exact hadds.fresh e he x (by simp) hid'
        · exact hadds.fresh e he y (by simp) hid'
      rw [entriesOf, hone, hadds.entries, List.filter_append, hold]
      simp [hids]
    refine inv_adds h hadds hunique (fun b hb => ?_) (fun b hb hstatus => ?_)
      (fun b hb hstatus => ?_) (fun r hr _ => ?_) fun e he _ => ?_
    · rcases horigin b hb with rfl | ⟨hb, _⟩
      · exact ⟨htype, ⟨body, hpayload⟩, fun _ => hsecond⟩
      · exact h.actions b hb
    · have hid : b.actionId ≠ a.actionId := by
        intro hid
        rw [action_unique h.unique hb ha hid, happroved] at hstatus
        simp at hstatus
      exact ⟨b, by rw [hactions]; exact mem_updateAt.mpr ⟨b, hb, Or.inr ⟨hid, rfl⟩⟩, rfl, hstatus⟩
    · rcases horigin b hb with rfl | ⟨hb, hid⟩
      · exact ⟨row, body, wallet, x, y, hone, hentries, hids, hpayload, hmem, hpaid⟩
      · refine settled_adds hadds (h.settled b hb hstatus) rfl fun r hr _ => ?_
        rw [List.mem_singleton.mp hr, hresource]
        simpa using Ne.symm hid
    · exact ⟨_, hexecuted, rfl, by rw [List.mem_singleton.mp hr, hresource]; rfl⟩
    · exact Or.inl ⟨_, hexecuted, rfl, by
        rw [show ((ActionChange.execute now).apply a).actionId = a.actionId from rfl, hentries]
        exact he⟩

/-- Every commit of an admin or a watcher keeps the invariant. -/
theorem inv_acted (h : Inv paise d) (hvalid : platform.validAll d ws = true)
    (hacted : Acted D paise d ws) : Inv paise (platform.applyAll d ws) := by
  cases hacted with
  | requested hreq =>
    cases hreq with
    | queued htype hpayload haudit =>
      exact inv_queued h hvalid htype hpayload (by simp [isExecution, haudit])
    | adjusted hwallet hpair hscale hthreshold hbelow haudit hnames =>
      exact inv_adjusted h hvalid (hwallet.imp_left And.left) hpair hscale hthreshold hbelow
        (by simp [isExecution, haudit]) hnames
    | approved ha hpending hother haudit =>
      exact inv_decided h hvalid ha hpending (by simp [ActionChange.allowed, Ne.symm hother])
        (fun _ => by simp [ActionChange.apply]) (by simp [isExecution, haudit])
    | rejected ha hpending hother haudit =>
      exact inv_decided h hvalid ha hpending (by simp [ActionChange.allowed, Ne.symm hother])
        (fun _ => by simp [ActionChange.apply]) (by simp [isExecution, haudit])
  | watched hwatched =>
    cases hwatched with
    | expired hrows => exact inv_expired h hvalid hrows
    | executed ha happroved hdispatched => exact inv_executed h rfl hvalid ha happroved hdispatched
    | failed =>
      exact inv_moved h hvalid ⟨(moved_refl d).origin, (moved_refl d).executed⟩ rfl
        (by simp [Write.audit?, isExecution, watcherRow])

end Commits

/-- Commits are those of admins and watchers, and keep the invariant. -/
def fourEyesContract (D : Driver) (paise : ℕ) : Contract platform where
  inv d _ := Inv paise d
  guar v ws := Acted D paise v.committed ws
  inv_mono h _ := h
  inv_commit h hvalid hguar := inv_acted h hvalid hguar

/-- In every state reached by wallet adjustments, decisions, expiries and polls
of any admins and watchers, two admins stand behind every large adjustment, an
executed action has been paid once as it was stored, any other has not, and
what an action asks for never changes afterwards. -/
theorem fourEyes_visits {D : Driver} {paise : ℕ} {d : Store} {n : ℕ} (hd : Unused d)
    {es : List (Event ActionCall Input Failure)} {w : ActionWorld}
    (h : Visits (World.step platform (actions D paise)) (World.initial d n) es w) :
    Upheld paise w.db ∧ ∀ es' w', Visits (World.step platform (actions D paise)) w es' w' →
      ∀ a ∈ w.db.actions, ∃ a' ∈ w'.db.actions, a'.toActionTerms = a.toActionTerms := by
  have hsound : Sound (fourEyesContract D paise) w :=
    sound_visits (fun _ call _ _ _ => keeps_actions (fun _ _ h => h.unique) fun _ _ h => h)
      (sound_initial (inv_unused hd)) h
  refine ⟨upheld_of_inv hsound.inv, fun es' w' hvisits a ha => ?_⟩
  have hkept : a.toActionTerms ∈ actionTerms.rows w'.db :=
    terms_visits hvisits (List.mem_map_of_mem ha)
  obtain ⟨a', ha', hterms⟩ := List.mem_map.mp hkept
  exact ⟨a', ha', hterms⟩

/-- An adjustment above the threshold is asked for by one admin, approved by
another and executed by a poll. -/
def largeAdjustment : List (Event ActionCall Input Failure) :=
  runCall 1 (.admin (.walletAdjust ⟨"U1", "u1", none, none⟩ (.obj [("brokerId", .str "B1"),
      ("direction", .str "CREDIT"), ("amount", .str "25000"), ("reason", .str "late deposit")])))
    [quiet, quiet, drawing "A1", drawing "L1", quiet] ++
  runCall 2 (.admin (.approve ⟨"U2", "u2", none, none⟩ "A1" ⟨none, none⟩))
    [quiet, quiet, quiet, drawing "L2", quiet] ++
  runCall 3 .pollOnce
    [quiet, quiet, quiet, quiet, quiet, drawing "W1", drawing "R1", drawing "E1", drawing "E2",
      drawing "L3", quiet]

theorem fourEyes_visits_large : ∃ w,
    run (World.step platform (actions plainDriver 1000000)) (World.initial Store.empty 0)
      largeAdjustment = some w ∧
    (w.db.entries.map (·.amount.value) = [25000, 25000] ∧
      w.db.actions.map (·.status) = [.executed]) ∧ Upheld 1000000 w.db := by
  obtain ⟨w, hrun, hcheck⟩ := run_reaches (World.step platform (actions plainDriver 1000000))
    (World.initial Store.empty 0) largeAdjustment
    (fun w => w.db.entries.map (·.amount.value) = [25000, 25000] ∧
      w.db.actions.map (·.status) = [.executed]) (by decide +kernel)
  have hunused : Unused Store.empty := ⟨rfl, by simp [Store.empty], by simp [Store.empty]⟩
  exact ⟨w, hrun, of_decide_eq_true hcheck, (fourEyes_visits hunused (visits_last hrun)).1⟩

end LpPlatform.FourEyes
