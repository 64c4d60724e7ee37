import LpPlatform.FourEyes

/-!
# The lifecycle of a pending action

Next to the endpoints and the watcher every operation of the repository is
called by itself, on any action and inside or outside a transaction. Each of
them selects the status it starts from in its update, except the one that
marks an action executed, which looks at the id alone. The lifecycle is kept
by exactly the runs in which that update finds approved or executed actions.
-/

namespace LpPlatform.ActionLifecycle

open Amounts ApprovalWatcher AuditInterceptor FourEyes InterferenceLogic JsValues Ledger
open PendingActions RowStore Sessions StatementProgram StepRuns Tables WalletAdjust

/-- `PendingActionsRepository.markExecuted`. -/
def markExecuted (actionId : String) : Program Unit :=
  exec (fun v i =>
      if (rowsAt (·.actionId) actionId v.own.actions).isEmpty then []
      else [.changeAction actionId (.execute i.now)])
    fun _ _ => ()

/-- Operations on one action. -/
inductive RepositoryCall where
  | create (input : CreatePendingActionInput)
  | approve (actionId approverId : String) (comment : Option String)
  | reject (actionId rejectorId reason : String)
  | markExecuted (actionId : String)
  /-- The claim of the watcher. -/
  | claim (actionId : String)

/-- An operation, without its result. -/
def repository : RepositoryCall → Program Unit
  | .create input => do
    let _ ← create input
    return ()
  | .approve actionId approverId comment => do
    let _ ← repoApprove actionId approverId comment
    return ()
  | .reject actionId rejectorId reason => do
    let _ ← repoReject actionId rejectorId reason
    return ()
  | .markExecuted actionId => do
    markExecuted actionId
    return ()
  | .claim actionId => do
    let _ ← claim actionId
    return ()

/-- A program inside a transaction of its own, or outside any. -/
def alone (inTx : Bool) (p : Program Unit) : Program Unit :=
  if inTx then transaction false p else p

/-- The calls that write pending actions. -/
inductive LifecycleCall where
  /-- An endpoint of an admin, a poll or a sweep. -/
  | action (call : ActionCall)
  /-- An operation, inside a transaction of its own or outside any. -/
  | repository (inTx : Bool) (call : RepositoryCall)

/-- A call, without its result. -/
def lifecycle (D : Driver) (paise : ℕ) : LifecycleCall → Program Unit
  | .action call => actions D paise call
  | .repository inTx call => alone inTx (repository call)

/-- What an operation has written, over the rows it was committed on. -/
inductive Operated (d : Store) : List Write → Prop where
  | created {input : CreatePendingActionInput} {id actionId now} :
      Operated d [.insertAction (input.row id actionId now)]
  | approved {a : PendingAction} {approver now comment} (ha : a ∈ d.actions)
      (hpending : a.status = .pending) (hother : a.requestedBy ≠ approver) :
      Operated d [.changeAction a.actionId (.approve approver now comment)]
  | rejected {a : PendingAction} {rejector now reason} (ha : a ∈ d.actions)
      (hpending : a.status = .pending) :
      Operated d [.changeAction a.actionId (.reject rejector now reason)]
  | marked {a : PendingAction} {now} (ha : a ∈ d.actions) :
      Operated d [.changeAction a.actionId (.execute now)]

/-- What a call has committed. -/
inductive Recorded (D : Driver) (paise : ℕ) (d : Store) (ws : List Write) : Prop where
  | acted (h : Acted D paise d ws)
  | operated (h : Operated d ws)

section Rules

variable {C : Contract platform} {t : ℕ} {d : Store} {n : ℕ} {D : Driver} {paise : ℕ}

/-- A statement by itself, inside a transaction or outside. -/
theorem keeps_statement {α : Type} {ws : View Store → Input → List Write}
    {f : View Store → Input → α} {inTx : Bool}
    (h : ∀ v i d' n' d₁ n₁, v.own = d' → ws v i ≠ [] →
      C.Env t (platform.keysOf (ws v i)) d' n' d₁ n₁ →
      ∀ v₁ : View Store, v₁.committed = d₁ → C.guar v₁ (ws v i))
    (hempty : ∀ v₁, C.guar v₁ []) :
    C.Keeps t (alone inTx ((exec ws f).bind fun _ => .done ())) none d n := by
  cases inTx with
  | false =>
    change wp C t ((exec ws f).bind fun _ => .done ()) _ _ none d n
    rw [wp_bind]
    refine wp_exec_auto (fun _ _ _ => trivial) (fun v i d' n' _ _ hv _ hne => ?_)
      fun _ _ _ _ _ _ _ _ => trivial
    exact h v i d' n' d' n' hv.own_none hne env_refl v hv.committed
  | true =>
    refine wp_transaction false _ (fun _ _ _ => trivial) fun d₁ n₁ _ _ => ?_
    rw [wp_bind]
    refine wp_exec (fun _ _ _ _ => trivial) fun v i d₂ n₂ _ _ hv _ => ?_
    refine wp_commit rfl (fun _ _ _ => trivial) fun d₃ n₃ henv _ _ _ => ⟨fun v₃ hv₃ => ?_, trivial⟩
    rw [add_writes, Txn.opened, List.nil_append] at henv ⊢
    by_cases hne : ws v i = []
    · rw [hne]
      exact hempty v₃
    · exact h v i d₂ _ d₃ n₃ hv.own_some hne henv v₃ hv₃.committed

/-- An update of the actions under an id that pass a test. -/
theorem keeps_update {α : Type} {actionId : String} {test : View Store → List PendingAction}
    {change : Input → ActionChange} {f : View Store → Input → α} {inTx : Bool}
    (htest : ∀ v, ∀ a ∈ test v, a ∈ v.own.actions ∧ a.actionId = actionId)
    (hguar : ∀ (v v₁ : View Store) (i : Input), ∀ a ∈ test v, a ∈ v₁.committed.actions →
      C.guar v₁ [.changeAction a.actionId (change i)]) (hempty : ∀ v₁, C.guar v₁ []) :
    C.Keeps t (alone inTx ((exec (fun v i =>
      if (test v).isEmpty then [] else [.changeAction actionId (change i)]) f).bind fun _ => .done ()))
      none d n := by
  refine keeps_statement (fun v i d' n' d₁ n₁ hown hne henv v₁ hv₁ => ?_) hempty
  cases hrows : test v with
  | nil => simp [hrows] at hne
  | cons a rows =>
    have ha : a ∈ test v := by simp [hrows]
    obtain ⟨hmem, rfl⟩ := htest v a ha
    simp only [hrows, List.isEmpty_cons, Bool.false_eq_true, if_false] at henv ⊢
    refine hguar v v₁ i a ha ?_
    rw [hv₁]
    exact env_action henv (by simp [KeyedRows.keysOf, platform, Write.keys]) (hown ▸ hmem)

theorem decidable_rows {actionId userId : String} {v : View Store} {a : PendingAction}
    (h : a ∈ decidableRows actionId userId v) :
    (a ∈ v.own.actions ∧ a.actionId = actionId) ∧ a.status = .pending ∧ a.requestedBy ≠ userId := by
  simpa [decidableRows, mem_rowsAt] using h

/-- Every call keeps a contract that allows what they commit. -/
theorem keeps_lifecycle {call : LifecycleCall} (hids : ∀ d n, C.inv d n → UniqueActions d)
    (hguar : ∀ v ws, Recorded D paise v.committed ws → C.guar v ws) (hempty : ∀ v, C.guar v []) :
    C.Keeps t (lifecycle D paise call) none d n := by
  cases call with
  | action call => exact keeps_actions hids fun v ws h => hguar v ws (.acted h)
  | repository inTx call =>
    cases call with
    | create input =>
      refine keeps_statement (fun v i d' n' d₁ n₁ _ _ _ v₁ _ => ?_) hempty
      exact hguar v₁ _ (.operated .created)
    | approve actionId approverId comment =>
      refine keeps_update (fun v a ha => (decidable_rows ha).1) (fun v v₁ i a ha hmem => ?_) hempty
      obtain ⟨-, hpending, hother⟩ := decidable_rows ha
      exact hguar v₁ _ (.operated (.approved hmem hpending hother))
    | reject actionId rejectorId reason =>
      refine keeps_update (fun v a ha => (decidable_rows ha).1) (fun v v₁ i a ha hmem => ?_) hempty
      exact hguar v₁ _ (.operated (.rejected hmem (decidable_rows ha).2.1))
    | markExecuted actionId =>
      refine keeps_update (fun v a ha => mem_rowsAt.mp ha) (fun v v₁ i a ha hmem => ?_) hempty
      exact hguar v₁ _ (.operated (.marked hmem))
    | claim actionId =>
      refine keeps_update (fun v a ha => mem_rowsAt.mp (List.mem_filter.mp ha).1)
        (fun v v₁ i a ha hmem => ?_) hempty
      exact hguar v₁ _ (.operated (.marked hmem))

end Rules

/-- The moves of the lifecycle. -/
def Moves : PendingActionStatus → PendingActionStatus → Prop
  | .pending, .approved => True
  | .pending, .rejected => True
  | .pending, .expired => True
  | .approved, .executed => True
  | before, after => before = after

/-- Between two states actions stay, move along the lifecycle, and begin it as
pending ones. -/
structure Moved (d d' : Store) : Prop where
  moves : ∀ a ∈ d.actions, ∀ a' ∈ d'.actions, a'.actionId = a.actionId → Moves a.status a'.status
  stays : ∀ a ∈ d.actions, ∃ a' ∈ d'.actions, a'.actionId = a.actionId
  begins : ∀ a' ∈ d'.actions, (∀ a ∈ d.actions, a'.actionId ≠ a.actionId) → a'.status = .pending

/-- An action that is approved or executed has been approved by somebody else
than its requester. -/
def Seconded (a : PendingAction) : Prop :=
  a.status = .approved ∨ a.status = .executed → SecondAdmin a

/-- A change starts from a status that the lifecycle allows it from. -/
def Starts (a : PendingAction) : ActionChange → Prop
  | .approve approver _ _ => a.status = .pending ∧ approver ≠ a.requestedBy
  | .reject _ _ _ => a.status = .pending
  | .execute _ => a.status = .approved ∨ a.status = .executed
  | .expire => a.status = .pending

/-- A write of a state begins or moves an action as the lifecycle allows. -/
def Legal (d : Store) : Write → Prop
  | .insertAction row => row.status = .pending
  | .changeAction actionId change => ∀ a ∈ d.actions, a.actionId = actionId → Starts a change
  | _ => True

/-- All writes to actions are insertions, or one and the same change. -/
structure Simple (ws : List Write) : Prop where
  one : ∀ id c, Write.changeAction id c ∈ ws → ∀ id' c', Write.changeAction id' c' ∈ ws → c' = c
  apart : ∀ id c, Write.changeAction id c ∈ ws → ∀ row, Write.insertAction row ∉ ws

/-- Where an action comes from after such writes. -/
inductive Origin (d : Store) (ws : List Write) (a' : PendingAction) : Prop where
  | new (h : Write.insertAction a' ∈ ws)
  | same (h : a' ∈ d.actions)
  | changed {a : PendingAction} {c : ActionChange} (ha : a ∈ d.actions)
      (hc : Write.changeAction a.actionId c ∈ ws) (h : a' = c.apply a)

section Moves

variable {d : Store} {ws : List Write} {D : Driver} {paise : ℕ}

@[simp] theorem moves_refl (s : PendingActionStatus) : Moves s s := by cases s <;> simp [Moves]

theorem moves_of_starts {a : PendingAction} {c : ActionChange} (h : Starts a c) :
    Moves a.status (c.apply a).status := by
  cases c with
  | approve approver now comment => simp [ActionChange.apply, h.1, Moves]
  | reject rejector now reason =>
    have hpending : a.status = .pending := h
    simp [ActionChange.apply, hpending, Moves]
  | execute now =>
    rcases h with h | h <;> simp [ActionChange.apply, h, Moves]
  | expire =>
    have hpending : a.status = .pending := h
    simp [ActionChange.apply, hpending, Moves]

/-- Setting the same columns twice is setting them once. -/
theorem apply_apply (c : ActionChange) (a : PendingAction) : c.apply (c.apply a) = c.apply a := by
  cases c <;> rfl

theorem origin_applyAll (h : Simple ws) : ∀ a' ∈ (platform.applyAll d ws).actions, Origin d ws a' := by
  refine applyAll_stable platform (P := fun x => ∀ a' ∈ x.actions, Origin d ws a')
    (fun x w hw hx a' ha' => ?_) fun a ha => .same ha
  cases w with
  | insertAction row =>
    rcases List.mem_append.mp ha' with ha' | ha'
    · exact hx a' ha'
    · exact .new (List.mem_singleton.mp ha' ▸ hw)
  | changeAction id c =>
    obtain ⟨r, hr, ⟨hid, rfl⟩ | ⟨-, rfl⟩⟩ := mem_updateAt.mp ha'
    · subst hid
      cases hx r hr with
      | new hnew => exact absurd hnew (h.apart _ c hw _)
      | same hold => exact .changed hold hw rfl
      | @changed a c' ha hc heq =>
        obtain rfl : c' = c := h.one _ c hw _ c' hc
        exact .changed ha hc (by rw [heq, apply_apply])
    · exact hx _ hr
  | _ => exact hx a' ha'

/-- The id of an inserted action is new. -/
theorem fresh_of_valid {row : PendingAction} (hvalid : platform.validAll d ws = true)
    (hrow : Write.insertAction row ∈ ws) : ∀ terms ∈ actionTerms.rows d,
      terms.actionId ≠ row.actionId := by
  induction ws generalizing d with
  | nil => simp at hrow
  | cons w ws ih =>
    obtain ⟨hw, hrest⟩ := Bool.and_eq_true_iff.mp hvalid
    rcases List.mem_cons.mp hrow with rfl | hrow
    · intro terms hterms hid
      obtain ⟨a, ha, rfl⟩ := List.mem_map.mp hterms
      have hmem : a ∈ rowsAt (·.actionId) row.actionId d.actions := mem_rowsAt.mpr ⟨ha, hid⟩
      have hnone : (rowsAt (·.actionId) row.actionId d.actions).isEmpty = true := hw
      simp [List.isEmpty_iff.mp hnone] at hmem
    · exact fun terms hterms => ih hrest hrow terms (actionTerms.mono [w] hterms)

/-- Legal writes move actions along the lifecycle. -/
theorem moved_of_legal (hids : UniqueActions d) (hvalid : platform.validAll d ws = true)
    (hsimple : Simple ws) (hlegal : ∀ x ∈ ws, Legal d x) : Moved d (platform.applyAll d ws) := by
  refine ⟨fun a ha a' ha' hid => ?_, fun a ha => ?_, fun a' ha' hnew => ?_⟩
  · cases origin_applyAll hsimple a' ha' with
    | new hrow =>
      exact absurd hid.symm (fresh_of_valid hvalid hrow _ (List.mem_map_of_mem ha))
    | same hold =>
      obtain rfl := action_unique hids hold ha hid
      exact moves_refl _
    | @changed b c hb hc heq =>
      obtain rfl : b = a := action_unique hids hb ha (by rw [← hid, heq, apply_actionTerms])
      rw [heq]
      exact moves_of_starts (hlegal _ hc b hb rfl)
  · obtain ⟨a', ha', hterms⟩ := List.mem_map.mp (actionTerms.mono ws
      (List.mem_map_of_mem (f := (·.toActionTerms)) ha))
    exact ⟨a', ha', by rw [hterms]⟩
  · cases origin_applyAll hsimple a' ha' with
    | new hrow => exact hlegal _ hrow
    | same hold => exact absurd rfl (hnew a' hold)
    | @changed b c hb hc heq => exact absurd (by rw [heq, apply_actionTerms]) (hnew b hb)

/-- Legal writes leave every approved or executed action seconded. -/
theorem seconded_of_legal (hsimple : Simple ws) (hlegal : ∀ x ∈ ws, Legal d x)
    (hd : ∀ a ∈ d.actions, Seconded a) : ∀ a ∈ (platform.applyAll d ws).actions, Seconded a := by
  intro a' ha'
  cases origin_applyAll hsimple a' ha' with
  | new hrow =>
    have hpending : a'.status = .pending := hlegal _ hrow
    rintro (h | h) <;> simp [hpending] at h
  | same hold => exact hd a' hold
  | @changed a c ha hc heq =>
    have hstart := hlegal _ hc a ha rfl
    cases c with
    | approve approver now comment =>
      intro _
      exact ⟨approver, by rw [heq]; rfl, by rw [heq]; exact hstart.2⟩
    | execute now =>
      intro _
      obtain ⟨approver, happroved, hother⟩ := hd a ha hstart
      exact ⟨approver, by rw [heq]; exact happroved, by rw [heq]; exact hother⟩
    | reject rejector now reason =>
      rintro (h | h) <;> simp [heq, ActionChange.apply] at h
    | expire => rintro (h | h) <;> simp [heq, ActionChange.apply] at h

/-- A write that leaves actions alone. -/
def Aside : Write → Prop
  | .insertAction _ => False
  | .changeAction _ _ => False
  | _ => True

/-- What a commit does to actions: nothing, one thing, or the expiry of some
pending ones. -/
inductive Effect (d : Store) : List Write → Prop where
  | none {all} (h : ∀ x ∈ all, Aside x) : Effect d all
  | one {all y} (hy : y ∈ all) (h : ∀ x ∈ all, x = y ∨ Aside x)
      (hlegal : Legal d y ∨ ∃ actionId now, y = .changeAction actionId (.execute now)) : Effect d all
  | expired {rows : List PendingAction} (hrows : ∀ a ∈ rows, a ∈ d.actions ∧ a.status = .pending) :
      Effect d (rows.map fun a => .changeAction a.actionId .expire)

/-- A pair and its wallet leave actions alone. -/
theorem aside_pair {pre : List Write} {x y : LedgerEntry} {P : Prop} {wallet : Wallet}
    (h : (pre = [] ∧ P) ∨ pre = [.insertWallet wallet]) :
    ∀ z ∈ pre ++ [.insertEntry x, .insertEntry y], Aside z := by
  rcases h with ⟨rfl, -⟩ | rfl <;> simp [Aside]

/-- So does a handler. -/
theorem aside_dispatched {type : PendingActionType} {payload : Json} {result : DispatchResult}
    (h : Dispatched D d type payload ws result) : ∀ x ∈ ws, Aside x := by
  cases h with
  | walletAdjust hfields hwallet hpair => exact aside_pair hwallet
  | notImplemented htype => simp

/-- Everything that is committed has one of these effects. -/
theorem effect_recorded (hids : UniqueActions d) (h : Recorded D paise d ws) : Effect d ws := by
  have hone : ∀ {a : PendingAction} {c : ActionChange} {all}, a ∈ d.actions →
      (Starts a c ∨ ∃ now, c = .execute now) → Write.changeAction a.actionId c ∈ all →
      (∀ x ∈ all, x = .changeAction a.actionId c ∨ Aside x) → Effect d all := by
    intro a c all ha hc hmem hall
    refine .one hmem hall (hc.imp (fun hstarts b hb hid => ?_) fun ⟨now, hnow⟩ => ⟨_, now, by rw [hnow]⟩)
    rwa [action_unique hids hb ha hid]
  cases h with
  | acted h =>
    cases h with
    | requested h =>
      cases h with
      | @queued body input id actionId now audit htype hpayload haudit =>
        exact .one (y := .insertAction (input.row id actionId now)) (by simp) (by simp [Aside])
          (Or.inl rfl)
      | @adjusted payload amount wallet referenceId pre a b threshold audit hwallet =>
        refine .none fun x hx => ?_
        rcases List.mem_append.mp hx with hx | hx
        · exact aside_pair (x := a) (y := b) hwallet x (List.mem_append_left _ hx)
        · simp only [List.mem_cons, List.not_mem_nil, or_false] at hx
          rcases hx with rfl | rfl | rfl <;> trivial
      | @approved a approver now comment audit ha hpending hother haudit =>
        exact hone (c := .approve approver now comment) ha (Or.inl ⟨hpending, Ne.symm hother⟩)
          (by simp) (by simp [Aside])
      | @rejected a rejector now reason audit ha hpending hother haudit =>
        exact hone (c := .reject rejector now reason) ha (Or.inl hpending) (by simp) (by simp [Aside])
    | watched h =>
      cases h with
      | expired hrows => exact .expired hrows
      | @executed a now us result approvedBy id auditId ha happroved hdispatched =>
        refine hone (c := .execute now) ha (Or.inl (Or.inl happroved)) (by simp) fun x hx => ?_
        rcases List.mem_append.mp hx with hx | hx
        · rcases List.mem_cons.mp hx with rfl | hx
          · exact Or.inl rfl
          · exact Or.inr (aside_dispatched hdispatched x hx)
        · rw [List.mem_singleton.mp hx]
          exact Or.inr trivial
      | failed => exact .none (by simp [Aside])
  | operated h =>
    cases h with
    | @created input id actionId now =>
      exact .one (y := .insertAction (input.row id actionId now)) (by simp) (by simp) (Or.inl rfl)
    | @approved a approver now comment ha hpending hother =>
      exact hone (c := .approve approver now comment) ha (Or.inl ⟨hpending, Ne.symm hother⟩)
        (by simp) (by simp)
    | @rejected a rejector now reason ha hpending =>
      exact hone (c := .reject rejector now reason) ha (Or.inl hpending) (by simp) (by simp)
    | @marked a now ha =>
      exact hone (c := .execute now) ha (Or.inr ⟨now, rfl⟩) (by simp) (by simp)

theorem simple_effect (h : Effect d ws) : Simple ws := by
  cases h with
  | none h =>
    exact ⟨fun id c hc => (h _ hc).elim, fun id c hc => (h _ hc).elim⟩
  | @one ws y hy h hlegal =>
    have hsame : ∀ x ∈ ws, ¬ Aside x → x = y := fun x hx hnot => (h x hx).resolve_right hnot
    refine ⟨fun id c hc id' c' hc' => ?_, fun id c hc row hrow => ?_⟩
    · have heq := (hsame _ hc' not_false).trans (hsame _ hc not_false).symm
      exact (Write.changeAction.inj heq).2
    · have heq := (hsame _ hrow not_false).trans (hsame _ hc not_false).symm
      simp at heq
  | @expired rows hrows =>
    have hall : ∀ id c, Write.changeAction id c ∈ rows.map (fun a => .changeAction a.actionId .expire) →
        c = .expire := by
      intro id c hc
      obtain ⟨a, -, heq⟩ := List.mem_map.mp hc
      exact (Write.changeAction.inj heq).2.symm
    refine ⟨fun id c hc id' c' hc' => (hall id' c' hc').trans (hall id c hc).symm,
      fun id c hc row hrow => ?_⟩
    obtain ⟨a, -, heq⟩ := List.mem_map.mp hrow
    simp at heq

/-- A changed action has the columns of the change at the end. -/
theorem applied_mem {a : PendingAction} {c : ActionChange} (h : Simple ws) (ha : a ∈ d.actions)
    (hc : Write.changeAction a.actionId c ∈ ws) : c.apply a ∈ (platform.applyAll d ws).actions := by
  have hkeep : ∀ (us : List Write) (P : PendingAction → Prop) (x : Store),
      (∀ w ∈ us, w ∈ ws) → (∀ b, P b → b.actionId = a.actionId ∧ P (c.apply b)) →
      (∃ b ∈ x.actions, P b) → ∃ b ∈ (platform.applyAll x us).actions, P b := by
    intro us P x hus hP hx
    refine applyAll_stable platform (P := fun x => ∃ b ∈ x.actions, P b) (fun y w hw hy => ?_) hx
    obtain ⟨b, hb, hPb⟩ := hy
    cases w with
    | insertAction row => exact ⟨b, List.mem_append_left _ hb, hPb⟩
    | changeAction id c' =>
      by_cases hid : b.actionId = id
      · obtain rfl : c' = c := h.one _ c hc _ c' (hus _ hw)
        exact ⟨c'.apply b, mem_updateAt.mpr ⟨b, hb, Or.inl ⟨hid, rfl⟩⟩, (hP b hPb).2⟩
      · exact ⟨b, mem_updateAt.mpr ⟨b, hb, Or.inr ⟨hid, rfl⟩⟩, hPb⟩
    | _ => exact ⟨b, hb, hPb⟩
  have hid : (c.apply a).actionId = a.actionId := by rw [apply_actionTerms]
  obtain ⟨pre, post, hws⟩ := List.append_of_mem hc
  -- before the change it is the old row or already the new one
  obtain ⟨b, hb, hbold⟩ := hkeep pre (fun b => b = a ∨ b = c.apply a) d
    (fun w hw => by simp [hws, hw])
    (fun b hb => by rcases hb with rfl | rfl <;> simp [apply_apply]) ⟨a, ha, Or.inl rfl⟩
  have hchanged : c.apply a ∈ ((platform.applyAll d pre).apply (.changeAction a.actionId c)).actions := by
    refine mem_updateAt.mpr ⟨b, hb, Or.inl ?_⟩
    rcases hbold with rfl | rfl
    · exact ⟨rfl, rfl⟩
    · exact ⟨hid, (apply_apply c a).symm⟩
  obtain ⟨b', hb', rfl⟩ := hkeep post (fun b => b = c.apply a) _
    (fun w hw => by simp [hws, hw]) (fun b hb => by subst hb; exact ⟨hid, apply_apply c a⟩)
    ⟨_, hchanged, rfl⟩
  rw [hws, applyAll_append, applyAll_cons]
  exact hb'

/-- What a write marks executed has been approved. -/
def marksApproved (actions : List PendingAction) (w : Write) : Bool :=
  match executed? w with
  | none => true
  | some actionId => (rowsAt (·.actionId) actionId actions).all fun a =>
    a.status = .approved ∨ a.status = .executed

/-- Then everything in the commit is legal. -/
theorem legal_effect (hids : UniqueActions d) (h : Effect d ws)
    (hc : ws.all (marksApproved d.actions) = true) : ∀ x ∈ ws, Legal d x := by
  have haside : ∀ x, Aside x → Legal d x := fun x hx => by cases x <;> trivial
  cases h with
  | none h => exact fun x hx => haside x (h x hx)
  | @one _ y hy h hlegal =>
    intro x hx
    rcases h x hx with rfl | hx
    · rcases hlegal with hlegal | ⟨actionId, now, rfl⟩
      · exact hlegal
      · have hmarks := List.all_eq_true.mp hc _ hy
        simp only [marksApproved, executed?, List.all_eq_true, mem_rowsAt, decide_eq_true_eq] at hmarks
        exact fun a ha hid => hmarks a ⟨ha, hid⟩
    · exact haside x hx
  | @expired rows hrows =>
    intro x hx
    obtain ⟨a, ha, rfl⟩ := List.mem_map.mp hx
    obtain ⟨hmem, hpending⟩ := hrows a ha
    intro b hb hid
    rwa [action_unique hids hb hmem hid]

/-- Only an action that has been approved moves to executed. -/
theorem marks_of_moved (h : Effect d ws) (hmoved : Moved d (platform.applyAll d ws)) :
    ws.all (marksApproved d.actions) = true := by
  refine List.all_eq_true.mpr fun x hx => ?_
  cases x with
  | changeAction actionId c =>
    cases c with
    | execute now =>
      simp only [marksApproved, executed?, List.all_eq_true, mem_rowsAt, decide_eq_true_eq]
      rintro a ⟨ha, rfl⟩
      have hmem := applied_mem (simple_effect h) ha hx
      have hmoves := hmoved.moves a ha _ hmem (by rw [apply_actionTerms])
      cases hstatus : a.status <;> simp_all [ActionChange.apply, Moves]
    | _ => rfl
  | _ => rfl

end Moves

section Runs

variable {D : Driver} {paise : ℕ} {d : Store} {n : ℕ} {es : List (Event LifecycleCall Input Failure)}
variable {w : ActionWorld}

/-- One event of these worlds. -/
abbrev lifecycleStep (D : Driver) (paise : ℕ) :
    ActionWorld → Event LifecycleCall Input Failure → Option ActionWorld :=
  World.step platform (lifecycle D paise)

/-- Every action the event marks executed has been approved. -/
def MarksApproved (w : ActionWorld) (e : Event LifecycleCall Input Failure) : Prop :=
  w.commitsAll platform e (marksApproved w.db.actions) = true

instance (w : ActionWorld) (e : Event LifecycleCall Input Failure) : Decidable (MarksApproved w e) :=
  inferInstanceAs (Decidable (_ = true))

/-- The run moves actions along the lifecycle only, with two admins behind
every approval. -/
structure Follows (D : Driver) (paise : ℕ) (d : Store) (n : ℕ)
    (es : List (Event LifecycleCall Input Failure)) : Prop where
  moves : ∀ w e w', Takes (lifecycleStep D paise) (World.initial d n) es w e w' → Moved w.db w'.db
  seconded : ∀ w, Visits (lifecycleStep D paise) (World.initial d n) es w →
    ∀ a ∈ w.db.actions, Seconded a

/-- Commits are those of these calls. -/
def lifecycleContract (D : Driver) (paise : ℕ) : Contract platform where
  inv d _ := UniqueActions d
  guar v ws := ws ≠ [] → Recorded D paise v.committed ws
  inv_mono h _ := h
  inv_commit h hvalid _ := uniqueActions_applyAll h hvalid

theorem sound_lifecycle (hids : UniqueActions d)
    (hvisits : Visits (lifecycleStep D paise) (World.initial d n) es w) :
    Sound (lifecycleContract D paise) w :=
  sound_visits (fun _ _ _ _ _ => keeps_lifecycle (fun _ _ h => h) (fun _ _ h _ => h)
    fun _ hne => absurd rfl hne) (sound_initial hids) hvisits

/-- What one step of a run commits. -/
theorem effect_step (hids : UniqueActions d) {e : Event LifecycleCall Input Failure} {w' : ActionWorld}
    (htakes : Takes (lifecycleStep D paise) (World.initial d n) es w e w') {t : ℕ} {ws : List Write}
    (hc : w.commit? platform e = some (t, ws)) :
    UniqueActions w.db ∧ platform.validAll w.db ws = true ∧ Effect w.db ws := by
  have hsound : Sound (lifecycleContract D paise) w := sound_lifecycle hids (takes_before htakes)
  obtain ⟨v, hv⟩ := committed_of_step hsound (takes_step htakes) hc
  refine ⟨hsound.inv, hv.valid, ?_⟩
  by_cases hempty : ws = []
  · subst hempty
    exact .none (by simp)
  · exact effect_recorded hsound.inv (hv.committed ▸ hv.guar hempty)

theorem moved_refl (d : Store) (hids : UniqueActions d) : Moved d d where
  moves a ha a' ha' hid := by
    obtain rfl := action_unique hids ha' ha hid
    exact moves_refl _
  stays a ha := ⟨a, ha, rfl⟩
  begins a' ha' hnew := absurd rfl (hnew a' ha')

/-- In every run of all the operations that write pending actions, in any
interleaving, the lifecycle is followed exactly when every update that marks
an action executed finds it approved or executed. -/
theorem lifecycle_iff (hids : UniqueActions d) (hd : ∀ a ∈ d.actions, Seconded a) :
    Along (lifecycleStep D paise) MarksApproved (World.initial d n) es ↔ Follows D paise d n es := by
  constructor
  · intro hc
    have htaken := (along_iff_takes _ _).mp hc
    refine ⟨fun w e w' htakes => ?_, fun w hvisits => ?_⟩
    · rw [step_db platform (takes_step htakes)]
      cases hcommit : w.commit? platform e with
      | none => exact moved_refl _ (sound_lifecycle hids (takes_before htakes)).inv
      | some commit =>
        obtain ⟨t, ws⟩ := commit
        obtain ⟨hunique, hvalid, heffect⟩ := effect_step hids htakes hcommit
        have hmarks := htaken w e w' htakes
        simp only [MarksApproved, World.commitsAll, hcommit] at hmarks
        exact moved_of_legal hunique hvalid (simple_effect heffect)
          (legal_effect hunique heffect hmarks)
    · refine visits_invariant (I := fun w : ActionWorld => ∀ a ∈ w.db.actions, Seconded a)
        (C := fun w e => MarksApproved w e ∧
          ∀ t ws, w.commit? platform e = some (t, ws) → UniqueActions w.db ∧ Effect w.db ws)
        (fun w e w' hw hce hstep => ?_) hd ((along_iff_takes _ _).mpr fun u e u' htakes => ?_) hvisits
      · obtain ⟨hmarks, hcommits⟩ := hce
        rw [step_db platform hstep]
        cases hcommit : w.commit? platform e with
        | none => exact hw
        | some commit =>
          obtain ⟨t, ws⟩ := commit
          obtain ⟨hunique, heffect⟩ := hcommits t ws hcommit
          simp only [MarksApproved, World.commitsAll, hcommit] at hmarks
          exact seconded_of_legal (simple_effect heffect) (legal_effect hunique heffect hmarks) hw
      · refine ⟨htaken u e u' htakes, fun t ws hcommit => ?_⟩
        obtain ⟨hunique, -, heffect⟩ := effect_step hids htakes hcommit
        exact ⟨hunique, heffect⟩
  · intro hfollows
    refine (along_iff_takes _ _).mpr fun w e w' htakes => ?_
    unfold MarksApproved World.commitsAll
    cases hcommit : w.commit? platform e with
    | none => rfl
    | some commit =>
      obtain ⟨t, ws⟩ := commit
      obtain ⟨hunique, hvalid, heffect⟩ := effect_step hids htakes hcommit
      have hmoved := hfollows.moves w e w' htakes
      rw [step_db platform (takes_step htakes), hcommit] at hmoved
      exact marks_of_moved heffect hmoved

end Runs

section Examples

/-- An action that somebody has asked for. -/
def askedFor : PendingAction :=
  CreatePendingActionInput.row ⟨.walletAdjust, .obj [], "fraud review", "U1", 86400000⟩ 1 "A1" 0

/-- Mark it executed. -/
def markedExecuted : List (Event LifecycleCall Input Failure) :=
  [.start 1 (.repository false (.markExecuted "A1")), .step 1 quiet]

/-- The action has a status. -/
def hasStatus (status : PendingActionStatus) (w : ActionWorld) : Bool :=
  w.db.actions.any fun a => a.actionId = "A1" ∧ a.status = status

/-- An action moves from pending to executed. -/
theorem pending_executed : ∃ w,
    run (lifecycleStep plainDriver 1000000) (World.initial (oneAction askedFor) 2) markedExecuted =
      some w ∧ ¬ Follows plainDriver 1000000 (oneAction askedFor) 2 markedExecuted := by
  obtain ⟨u, hrun, hcheck⟩ := run_reaches (lifecycleStep plainDriver 1000000)
    (World.initial (oneAction askedFor) 2) [.start 1 (.repository false (.markExecuted "A1"))]
    (fun u => hasStatus .pending u &&
      (lifecycleStep plainDriver 1000000 u (.step 1 quiet)).any (hasStatus .executed))
    (by decide +kernel)
  obtain ⟨hbefore, hafter⟩ := Bool.and_eq_true_iff.mp hcheck
  obtain ⟨w, hstep, hexecuted⟩ := (Option.any_eq_true ..).mp hafter
  obtain ⟨a, ha, hpending⟩ := List.any_eq_true.mp hbefore
  obtain ⟨a', ha', hdone⟩ := List.any_eq_true.mp hexecuted
  obtain ⟨hid, hpending⟩ := of_decide_eq_true hpending
  obtain ⟨hid', hdone⟩ := of_decide_eq_true hdone
  have htakes : Takes (lifecycleStep plainDriver 1000000) (World.initial (oneAction askedFor) 2)
      markedExecuted u (.step 1 quiet) w := ⟨_, [], rfl, hrun, hstep⟩
  refine ⟨w, ?_, fun hfollows => ?_⟩
  · rw [markedExecuted, ← List.singleton_append, run_append, hrun]
    simp [hstep]
  · have hmoves := (hfollows.moves u _ w htakes).moves a ha a' ha' (hid'.trans hid.symm)
    simp [hpending, hdone, Moves] at hmoves

/-- An action is asked for, approved, and marked executed twice. -/
def executedTwice : List (Event LifecycleCall Input Failure) :=
  [.start 1 (.repository false (.approve "A1" "U2" none)), .step 1 quiet,
    .start 2 (.repository true (.markExecuted "A1")), .step 2 quiet, .step 2 quiet, .step 2 quiet,
    .start 3 (.repository false (.markExecuted "A1")), .step 3 quiet]

theorem lifecycle_iff_twice : ∃ w,
    run (lifecycleStep plainDriver 1000000) (World.initial (oneAction askedFor) 2) executedTwice =
      some w ∧ Follows plainDriver 1000000 (oneAction askedFor) 2 executedTwice := by
  obtain ⟨w, hrun, -⟩ := run_reaches (lifecycleStep plainDriver 1000000)
    (World.initial (oneAction askedFor) 2) executedTwice (fun _ => true) (by decide +kernel)
  have hids : UniqueActions (oneAction askedFor) := by simp [UniqueActions, oneAction]
  have hd : ∀ a ∈ (oneAction askedFor).actions, Seconded a := by
    simp [oneAction, Seconded, askedFor, CreatePendingActionInput.row]
  exact ⟨w, hrun, (lifecycle_iff hids hd).mp (by decide +kernel)⟩

end Examples

end LpPlatform.ActionLifecycle
