import LpPlatform.Ledger

/-!
# Audit rows in the transaction of the action

An audited endpoint runs inside a transaction of its own at the default
isolation level. When the handler returns, an audit row for its success is
inserted and everything commits together. When it throws, a row for the
failure is inserted and the exception rolls both back.
-/

namespace LpPlatform.AuditInterceptor

open InterferenceLogic JsValues Ledger RowStore Sessions StatementProgram Tables

/-- The authenticated admin and the request that is served. -/
structure AdminRequestContext where
  userId : String
  email : String
  ipAddress : Option String
  userAgent : Option String

/-- What the handler leaves for the audit row. -/
structure AdminAudit where
  action : String
  resourceType : Option String
  resourceId : Option String
  beforeState : Option Json
  afterState : Option Json
  metadata : List (String × Json)

/-- The audit of an endpoint before its handler runs. -/
def AdminAudit.ofConfig (action resourceType : String) (resourceId : Option String) : AdminAudit :=
  ⟨action, some resourceType, resourceId, none, none, []⟩

/-- The metadata column. -/
def AdminAudit.columns (a : AdminAudit) : Json :=
  .obj ((a.beforeState.map fun s => ("beforeState", s)).toList ++
    (a.afterState.map fun s => ("afterState", s)).toList ++ a.metadata)

/-- The audit row of an outcome. -/
def auditRow (ctx : AdminRequestContext) (a : AdminAudit) (outcome : Outcome) (id : ℕ)
    (auditId : String) : AuditLog :=
  ⟨id, auditId, .user, ctx.userId, a.action, a.resourceType, a.resourceId, outcome, a.columns,
    ctx.ipAddress, ctx.userAgent⟩

/-- Insert the audit row. -/
def writeAudit (ctx : AdminRequestContext) (a : AdminAudit) (outcome : Outcome) : Program Unit :=
  exec (fun v i => [.insertAudit (auditRow ctx a outcome v.seq (i.id 0))]) fun _ _ => ()

/-- An error inside audit metadata. -/
def errToObject (err : Failure) : Json :=
  .obj [("name", .str err.name), ("message", .str err.message)]

/-- `AuditLogInterceptor.runInTx`. The row of a failure keeps the audit the
endpoint started with; it is rolled back with the rest. -/
def runInTx {α : Type} (ctx : AdminRequestContext) (config : AdminAudit)
    (handler : AdminAudit → Program (α × AdminAudit)) : Program α :=
  transaction false do
    let (result, audit) ← (handler config).tryCatch fun err => do
      writeAudit ctx { config with metadata := config.metadata ++ [("error", errToObject err)] }
        .failure
      .throw err
    writeAudit ctx audit .success
    return result

/-- A check that throws. -/
def ensure (condition : Bool) (err : Failure) : Program Unit :=
  if condition then .done () else .throw err

section Rules

variable {C : Contract platform} {t : ℕ} {d : Store} {n : ℕ}

theorem wp_ensure {condition : Bool} {err : Failure} {Q : Unit → Assertion Store Write}
    {E : Failure → Assertion Store Write} {txn : Option (Txn Store Write)}
    (hE : condition = false → E err txn d n) (hQ : condition = true → Q () txn d n) :
    wp C t (ensure condition err) Q E txn d n := by
  cases hc : condition with
  | true => exact hQ hc
  | false => exact hE hc

/-- An exception leaves the transaction open. -/
def InTxn (_ : Failure) (txn : Option (Txn Store Write)) (_ : Store) (_ : ℕ) : Prop :=
  ∃ T, txn = some T

/-- The handler has returned, and committing what it wrote together with its
audit row keeps the contract. -/
def ReadyToCommit (C : Contract platform) (t : ℕ) (ctx : AdminRequestContext) (audit : AdminAudit)
    (txn : Option (Txn Store Write)) (d : Store) (n : ℕ) : Prop :=
  ∃ T, txn = some T ∧ T.aborted = false ∧ ∀ id auditId d' n' v,
    C.Env t (platform.keysOf T.writes) d n d' n' → C.inv d' n' →
    v.committed = d' → v.seq = n' → v.self = t →
    platform.validAll d' (T.writes ++ [.insertAudit (auditRow ctx audit .success id auditId)]) →
    C.guar v (T.writes ++ [.insertAudit (auditRow ctx audit .success id auditId)])

/-- An audited endpoint keeps the contract when its handler gets ready to
commit. -/
theorem keeps_runInTx {α : Type} {ctx : AdminRequestContext} {config : AdminAudit}
    {handler : AdminAudit → Program (α × AdminAudit)}
    (h : ∀ d' n', C.Env t [] d n d' n' → C.inv d' n' →
      wp C t (handler config) (fun r => ReadyToCommit C t ctx r.2) InTxn
        (some (.opened false d')) d' n') :
    C.Keeps t (runInTx ctx config handler) none d n := by
  refine wp_transaction false _ (fun _ _ _ => trivial) fun d₁ n₁ henv₁ hinv₁ => ?_
  rw [bind_eq, wp_bind, wp_tryCatch]
  refine wp_mono _ ?_ ?_ (h d₁ n₁ henv₁ hinv₁)
  · rintro ⟨result, audit⟩ txn d₂ n₂ ⟨T, rfl, hrun, hready⟩
    simp only [bind_eq]
    rw [wp_bind]
    refine wp_exec (fun _ _ _ _ => trivial) fun v i d₃ n₃ henv₃ hinv₃ hv₃ hvalid₃ => ?_
    refine wp_commit hrun (fun _ _ _ => trivial) fun d₄ n₄ henv₄ hinv₄ hvalid₄ _ => ?_
    refine ⟨fun v' hv' => ?_, trivial⟩
    exact hready _ _ d₄ n₄ v' (env_trans (env_wait henv₃ _) (env_add henv₄)) hinv₄ hv'.committed
      hv'.seq hv'.self hvalid₄
  · rintro err txn d₂ n₂ ⟨T, rfl⟩
    rw [bind_eq, wp_bind]
    exact wp_exec (fun _ _ _ _ => trivial) fun _ _ _ _ _ _ _ _ => trivial

end Rules

end LpPlatform.AuditInterceptor
