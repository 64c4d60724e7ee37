import LpPlatform.PendingActions

/-!
# Argument processing of the decision endpoints

A validation pipe on a method is applied to every parameter of it except those
of custom decorators. The schema of a decision accepts objects, so it rejects
the action id, which is a string of the path, before the handler runs.
-/

namespace LpPlatform.ApprovalsController

open AuditInterceptor JsValues Ledger PendingActions RowStore StatementProgram Tables

/-- Where a parameter comes from. -/
inductive ParamType where
  | body
  | query
  | param
  | custom
  deriving DecidableEq, Repr

/-- `ZodValidationPipe.transform`. -/
def transform (schema : Json → Option Json) (value : Json) (type : ParamType) :
    Except Failure Json :=
  if type = .custom then .ok value
  else
    match schema value with
    | some parsed => .ok parsed
    | none => .error (.domain "VALIDATION_FAILED" "Validation failed" 400)

/-- An optional text of 1 to 500 characters. -/
def decisionText : Option Json → Option (Option String)
  | none => some none
  | some (.str s) => if 1 ≤ utf16Length s ∧ utf16Length s ≤ 500 then some (some s) else none
  | some _ => none

/-- `decisionSchema`. Other keys are dropped. -/
def decisionSchema : Json → Option Json
  | .obj fields => do
    let comment ← decisionText (Json.field? "comment" (.obj fields))
    let reason ← decisionText (Json.field? "reason" (.obj fields))
    some (.obj ((comment.map fun s => ("comment", Json.str s)).toList ++
      (reason.map fun s => ("reason", Json.str s)).toList))
  | _ => none

/-- The body a handler reads. -/
def decisionBody (body : Json) : DecisionBody :=
  ⟨(body.field? "comment").bind Json.string?, (body.field? "reason").bind Json.string?⟩

/-- The id and the body, each through the pipe of the method. -/
def decisionArguments (actionId : String) (body : Json) : Except Failure (Json × Json) := do
  let id ← transform decisionSchema (.str actionId) .param
  let dto ← transform decisionSchema body .body
  return (id, dto)

/-- Run a handler on its processed arguments. -/
def withArguments {α : Type} (D : Driver) (actionId : String) (body : Json)
    (handler : String → DecisionBody → Program α) : Program α := do
  let (id, dto) ← ofExcept (decisionArguments actionId body)
  match D.text id with
  | some id => handler id (decisionBody dto)
  | none => .throw (.domain "NOT_FOUND" "Pending action not found" 404)

/-- `POST :actionId/approve`. -/
def approveEndpoint (D : Driver) (ctx : AdminRequestContext) (actionId : String) (body : Json) :
    Program PendingAction :=
  runInTx ctx (.ofConfig "approval.approve" "pending_action" (some actionId)) fun audit =>
    withArguments D actionId body fun id dto => approve ctx id dto audit

/-- `POST :actionId/reject`. -/
def rejectEndpoint (D : Driver) (ctx : AdminRequestContext) (actionId : String) (body : Json) :
    Program PendingAction :=
  runInTx ctx (.ofConfig "approval.reject" "pending_action" (some actionId)) fun audit =>
    withArguments D actionId body fun id dto => reject ctx id dto audit

/-- The endpoint, while nobody else writes, returns and leaves the action in
the status, decided by the admin. -/
def Decides (endpoint : Program PendingAction) (d : Store) (decided : PendingAction → Prop) : Prop :=
  ∃ inputs n r d' n', endpoint.solo platform inputs d n none = some (.ok r, d', n') ∧
    ∃ a ∈ d'.actions, decided a

/-- The action has been approved by the admin. -/
def approvedBy (actionId userId : String) (a : PendingAction) : Prop :=
  a.actionId = actionId ∧ a.status = .approved ∧ a.approvedBy = some userId

/-- The action has been rejected by the admin. -/
def rejectedBy (actionId userId : String) (a : PendingAction) : Prop :=
  a.actionId = actionId ∧ a.status = .rejected ∧ a.rejectedBy = some userId

/-- An endpoint whose arguments are rejected throws the error of the pipe and
leaves everything as it was. -/
theorem runInTx_rejected {α : Type} {D : Driver} {ctx : AdminRequestContext} {config : AdminAudit}
    {actionId : String} {body : Json} {handler : AdminAudit → String → DecisionBody →
      Program (α × AdminAudit)} {inputs : List Input} {d d' : Store} {n n' : ℕ}
    {r : Except Failure α}
    (h : (runInTx ctx config fun audit => withArguments D actionId body (handler audit)).solo platform
      inputs d n none = some (r, d', n')) :
    r = .error (.domain "VALIDATION_FAILED" "Validation failed" 400) ∧ d' = d := by
  -- what is left is the audit row of the failure, rolled back with its transaction
  have hprog : ∃ writes onError, (runInTx ctx config fun audit =>
      withArguments D actionId body (handler audit)) = .begin false (.stmt writes
        (fun _ _ => .rollback (.throw (.domain "VALIDATION_FAILED" "Validation failed" 400)))
        onError) .throw := ⟨_, _, rfl⟩
  obtain ⟨writes, onError, hprog⟩ := hprog
  rw [hprog] at h
  cases inputs with
  | nil => simp [Prog.solo] at h
  | cons i inputs =>
    simp only [Prog.solo, Option.ite_none_right_eq_some, Option.some.injEq, Prod.mk.injEq] at h
    exact ⟨h.2.1.symm, h.2.2.1.symm⟩

/-- An action that one admin has requested. -/
def requested : PendingAction :=
  ⟨⟨1, "A1", .walletAdjust, .obj [], "late deposit", "U1", 0, 86400000⟩, none, none, none, none,
    none, none, none, .pending⟩

/-- A store with that action only. -/
def oneRequest : Store := { Store.empty with actions := [requested] }

/-- Another admin approves it with an empty body, which the schema accepts, and
gets the error of the pipe. -/
theorem approve_unreachable :
    requested.status = .pending ∧ requested.requestedBy ≠ "U2" ∧
    (∃ dto, decisionSchema (.obj []) = some dto) ∧
    (approveEndpoint plainDriver ⟨"U2", "u2", none, none⟩ "A1" (.obj [])).solo platform
      [drawing "L1"] oneRequest 2 none =
        some (.error (.domain "VALIDATION_FAILED" "Validation failed" 400), oneRequest, 3) ∧
    ¬ Decides (approveEndpoint plainDriver ⟨"U2", "u2", none, none⟩ "A1" (.obj [])) oneRequest
      (approvedBy "A1" "U2") := by
  refine ⟨rfl, by decide, ⟨_, rfl⟩, rfl, fun h => ?_⟩
  obtain ⟨inputs, n, r, d', n', hrun, -⟩ := h
  have hrejected := (runInTx_rejected hrun).1
  simp at hrejected

/-- No action is ever decided through the endpoints: whatever the id, the body
and the admin, the call throws the error of the pipe and changes nothing. -/
theorem decisions_unreachable (D : Driver) (ctx : AdminRequestContext) (actionId : String)
    (body : Json) (d : Store) :
    (¬ Decides (approveEndpoint D ctx actionId body) d (approvedBy actionId ctx.userId) ∧
      ¬ Decides (rejectEndpoint D ctx actionId body) d (rejectedBy actionId ctx.userId)) ∧
    ∀ endpoint ∈ [approveEndpoint D ctx actionId body, rejectEndpoint D ctx actionId body],
      ∀ inputs n r d' n', endpoint.solo platform inputs d n none = some (r, d', n') →
        r = .error (.domain "VALIDATION_FAILED" "Validation failed" 400) ∧ d' = d := by
  have hboth : ∀ endpoint ∈ [approveEndpoint D ctx actionId body, rejectEndpoint D ctx actionId body],
      ∀ inputs n r d' n', endpoint.solo platform inputs d n none = some (r, d', n') →
        r = .error (.domain "VALIDATION_FAILED" "Validation failed" 400) ∧ d' = d := by
    intro endpoint hmem inputs n r d' n' hrun
    rcases List.mem_pair.mp hmem with rfl | rfl
    · exact runInTx_rejected hrun
    · exact runInTx_rejected hrun
  refine ⟨⟨?_, ?_⟩, hboth⟩
  · rintro ⟨inputs, n, r, d', n', hrun, -⟩
    simpa using (hboth _ (by simp) _ _ _ _ _ hrun).1
  · rintro ⟨inputs, n, r, d', n', hrun, -⟩
    simpa using (hboth _ (by simp) _ _ _ _ _ hrun).1

end LpPlatform.ApprovalsController
