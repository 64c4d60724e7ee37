import LpPlatform.DatabaseRoles
import LpPlatform.ScriptFacts

/-!
# Three tables that are only appended to

Two guards stand before the rows of the trades, the ledger and the audit log:
the rights that the application and its readers lack, and a trigger. The
migrations take each of them down and put it up again, but at every statement
one of the two stands, so nothing that the application or a reader does changes
or removes a row, whatever it tries and whenever the migrations are applied.
-/

namespace LpPlatform.AppendOnlyTables

open DatabaseRoles ScriptFacts StepRuns

/-- The tables that are only appended to. -/
inductive Protected where
  | trades
  | ledgerEntries
  | auditLogs
  deriving DecidableEq

def Protected.table : Protected → Table
  | trades => .trades
  | ledgerEntries => .ledgerEntries
  | auditLogs => .auditLogs

/-- The ways to lose a row. -/
inductive Mutation where
  | update
  | delete
  | truncate
  deriving DecidableEq

def Mutation.privilege : Mutation → Privilege
  | update => .update
  | delete => .delete
  | truncate => .truncate

/-- Whom the rows are guarded from. -/
inductive Outsider where
  | lpApp
  | lpReadonly
  | everyone
  deriving DecidableEq

def Outsider.grantee : Outsider → Grantee
  | lpApp => .role .lpApp
  | lpReadonly => .role .lpReadonly
  | everyone => .everyone

/-- A part of a guard. -/
inductive Fact where
  | lacks (g : Outsider) (m : Mutation) (t : Protected)
  | armed (t : Protected)
  | raising
  deriving DecidableEq

variable {ρ : Type}

/-- The trigger function raises. -/
def Raising (c : Catalog) : Prop := ∃ f, c.functions blockMutations = some f ∧ f.body.Raises = true

/-- The table has a trigger that calls the function. -/
def Armed (c : Catalog) (t : Table) : Prop := ∃ trigger ∈ c.triggers, trigger.table = t ∧
  trigger.onUpdate = true ∧ trigger.onDelete = true ∧ trigger.function = blockMutations

/-- The part of a guard stands. -/
def Holds : Fact → Database ρ → Prop
  | .lacks g m t, d => d.catalog.granted g.grantee m.privilege t.table = false
  | .armed t, d => Armed d.catalog t.table
  | .raising, d => Raising d.catalog

/-- What a migration does to a part of a guard. -/
def keeps : Statement ρ → Fact → Bool
  | .grantAll ps ss g, .lacks g' m t =>
    !(g'.grantee = g && decide (m.privilege ∈ ps) && decide (t.table.schema ∈ ss))
  | .grant ps t g, .lacks g' m t' => !(g'.grantee = g && decide (m.privilege ∈ ps) && t'.table = t)
  | .createFunction name _, .raising => name ≠ blockMutations
  | .dropTrigger _ t, .armed t' | .dropTable t, .armed t' => t'.table ≠ t
  | _, _ => true

/-- What a migration puts up. -/
def gives : Statement ρ → Fact → Bool
  | .revoke ps t g, .lacks g' m t' => g'.grantee = g && decide (m.privilege ∈ ps) && t'.table = t
  | .createFunction name body, .raising => name = blockMutations && body.Raises
  | .createTrigger trigger, .armed t =>
    trigger.table = t.table && trigger.onUpdate && trigger.onDelete && trigger.function = blockMutations
  | _, _ => false

/-- Statements of sessions, as steps over databases. -/
def analysis (ρ : Type) : Analysis (Database ρ) (Role × Statement ρ) Fact where
  exec := fun d a => (exec a.1 d a.2).toOption
  Holds := Holds
  keeps := fun a => keeps a.2
  gives := fun a => gives a.2

/-- The statement leaves the rows of the tables alone, or adds to them. -/
def quiet : Statement ρ → Prop
  | .dropTable t | .truncate t | .update t _ _ | .delete t _ | .addColumn t _ _ => ∀ p : Protected, p.table ≠ t
  | _ => True

/-- A statement of one who is neither the application nor a reader. -/
def Operation (a : Role × Statement ρ) : Prop := ¬ a.1.Runtime ∧ quiet a.2

/-- Everything belongs to roles that nobody connects as at run time. -/
structure Administered (c : Catalog) : Prop where
  schemas : ∀ s r, c.schemaOwner s = some r → ¬ r.Runtime
  tables : ∀ t r, c.owner t = some r → ¬ r.Runtime
  functions : ∀ name f, c.functions name = some f → ¬ f.owner.Runtime
  exist : ∀ p : Protected, (c.owner p.table).isSome = true

def outsiders : List Outsider := [.lpApp, .lpReadonly, .everyone]

def protectedTables : List Protected := [.trades, .ledgerEntries, .auditLogs]

/-- All parts of the guards. -/
def full : List Fact :=
  (outsiders.flatMap fun g => [Mutation.update, .delete, .truncate].flatMap fun m =>
    protectedTables.map fun t => .lacks g m t) ++ protectedTables.map .armed ++ [.raising]

/-- Parts of the guards that are enough: nobody may empty a table, and nobody
may change or remove a row, or the trigger stops it. -/
def enough (A : Fact → Bool) : Bool := protectedTables.all fun t =>
  outsiders.all (fun g => A (.lacks g .truncate t)) &&
    (outsiders.all (fun g => A (.lacks g .update t) && A (.lacks g .delete t)) ||
      (A (.armed t) && A .raising))

/-- The guards of a table that is only appended to. -/
structure Guarded (d : Database ρ) (t : Table) : Prop where
  truncate : ∀ g : Outsider, d.catalog.granted g.grantee .truncate t = false
  mutate : (∀ g : Outsider, d.catalog.granted g.grantee .update t = false ∧
    d.catalog.granted g.grantee .delete t = false) ∨ (Armed d.catalog t ∧ Raising d.catalog)

/-- The rows of the tables have only been added to. -/
def Extends (d d' : Database ρ) : Prop := ∀ p : Protected, d.rows p.table <+: d'.rows p.table

section Guards

variable {d d' : Database ρ} {r : Role} {t : Table}

theorem mem_outsiders (g : Outsider) : g ∈ outsiders := by cases g <;> simp [outsiders]

theorem mem_protectedTables (t : Protected) : t ∈ protectedTables := by cases t <;> simp [protectedTables]

theorem mem_full (f : Fact) : f ∈ full := by
  cases f with
  | lacks g m t => cases g <;> cases m <;> cases t <;> decide
  | armed t => cases t <;> decide
  | raising => decide

theorem guarded_of_enough {A : Fact → Bool} (hknown : Known (analysis ρ) A d) (h : enough A = true)
    (p : Protected) : Guarded d p.table := by
  have hp := List.all_eq_true.mp h p (mem_protectedTables p)
  obtain ⟨htruncate, hmutate⟩ := Bool.and_eq_true_iff.mp hp
  refine ⟨fun g => hknown _ (List.all_eq_true.mp htruncate g (mem_outsiders g)), ?_⟩
  rcases Bool.or_eq_true_iff.mp hmutate with hlacks | harmed
  · refine Or.inl fun g => ?_
    obtain ⟨hu, hd⟩ := Bool.and_eq_true_iff.mp (List.all_eq_true.mp hlacks g (mem_outsiders g))
    exact ⟨hknown _ hu, hknown _ hd⟩
  · obtain ⟨ha, hr⟩ := Bool.and_eq_true_iff.mp harmed
    exact Or.inr ⟨hknown _ ha, hknown _ hr⟩

theorem not_runtime_of_owns {owner : Option Role} (hr : r.Runtime) (h : owns r owner = true) :
    owner = some r := by
  rcases hr with rfl | rfl <;> simpa [owns] using h

/-- A role at run time owns nothing. -/
theorem owns_false {owner : Option Role} (hr : r.Runtime) (h : ∀ r', owner = some r' → ¬ r'.Runtime) :
    owns r owner = false :=
  Bool.eq_false_iff.mpr fun howns => h r (not_runtime_of_owns hr howns) hr

/-- What a role at run time may do has been granted to it or to everyone. -/
theorem granted_of_may {p : Privilege} (hadmin : Administered d.catalog) (hr : r.Runtime)
    (h : may d.catalog r p t = true) :
    d.catalog.granted (.role r) p t = true ∨ d.catalog.granted .everyone p t = true := by
  have hpostgres : r ≠ .postgres := by rcases hr with rfl | rfl <;> decide
  have hown : d.catalog.owner t ≠ some r := fun hown => hadmin.tables t r hown hr
  simpa [may, hpostgres, hown] using (Bool.and_eq_true_iff.mp
    ((Bool.or_eq_true_iff.mp h).resolve_left (by simpa using hpostgres))).2

/-- A trigger of the table stops what it fires on. -/
theorem stopped_of_armed (harmed : Armed d.catalog t) (hraising : Raising d.catalog)
    {fires : Trigger → Bool} (hfires : fires = Trigger.onUpdate ∨ fires = Trigger.onDelete) :
    ∃ message, stopped d.catalog t fires = some message := by
  obtain ⟨trigger, hmem, rfl, hupdate, hdelete, hfunction⟩ := harmed
  obtain ⟨f, hf, hraises⟩ := hraising
  refine Option.isSome_iff_exists.mp (List.findSome?_isSome_iff.mpr ⟨trigger, ?_, ?_⟩)
  · rcases hfires with rfl | rfl <;> simp [hmem, hupdate, hdelete]
  · rw [hfunction, hf]
    obtain ⟨owner, body⟩ := f
    cases body with
    | raises message => rfl
    | returns => simp [FunctionBody.Raises] at hraises

end Guards

/-- What the guards rest on is the same. -/
structure SameGuards (c c' : Catalog) : Prop where
  schemaOwner : c'.schemaOwner = c.schemaOwner
  owner : c'.owner = c.owner
  granted : c'.granted = c.granted
  functions : c'.functions = c.functions
  triggers : c'.triggers = c.triggers

section RunTime

variable {d d' : Database ρ} {r : Role} {t : Table} {stmt : Statement ρ}

@[simp] theorem catalog_setRows (d : Database ρ) (t : Table) (rows : List ρ) :
    (d.setRows t rows).catalog = d.catalog := rfl

@[simp] theorem rows_setRows (d : Database ρ) (t t' : Table) (rows : List ρ) :
    (d.setRows t rows).rows t' = if t' = t then rows else d.rows t' := Function.update_apply ..

theorem SameGuards.refl (c : Catalog) : SameGuards c c := ⟨rfl, rfl, rfl, rfl, rfl⟩

theorem administered_of_same {c c' : Catalog} (h : SameGuards c c') (hadmin : Administered c) :
    Administered c' :=
  ⟨h.schemaOwner ▸ hadmin.schemas, h.owner ▸ hadmin.tables, h.functions ▸ hadmin.functions,
    h.owner ▸ hadmin.exist⟩

theorem holds_of_same (h : SameGuards d.catalog d'.catalog) (f : Fact) (hf : Holds f d) : Holds f d' := by
  cases f with
  | lacks g m t =>
    show d'.catalog.granted g.grantee m.privilege t.table = false
    rw [h.granted]
    exact hf
  | armed t =>
    show Armed d'.catalog t.table
    rw [Armed, h.triggers]
    exact hf
  | raising =>
    show Raising d'.catalog
    rw [Raising, h.functions]
    exact hf

/-- No statement at run time gets at the guards. -/
theorem same_of_runtime (hadmin : Administered d.catalog) (hr : r.Runtime)
    (h : refusal r d stmt = none) : SameGuards d.catalog (effect r d stmt).catalog := by
  have htable : ∀ t, owns r (d.catalog.owner t) = false := fun t => owns_false hr (hadmin.tables t)
  have hschema : ∀ s, owns r (d.catalog.schemaOwner s) = false := fun s => owns_false hr (hadmin.schemas s)
  cases stmt with
  | createSchema s => simp [refusal, hr] at h
  | createTable t => exact absurd (passes_iff.mp h).2 (Bool.eq_false_iff.mp (hschema t.schema))
  | dropTable t => exact absurd (passes_iff.mp h).2 (Bool.eq_false_iff.mp (htable t))
  | addColumn t name fill => exact absurd (passes_iff.mp h).2 (Bool.eq_false_iff.mp (htable t))
  | grant ps t g => exact absurd (passes_iff.mp h).2 (Bool.eq_false_iff.mp (htable t))
  | revoke ps t g => exact absurd (passes_iff.mp h).2 (Bool.eq_false_iff.mp (htable t))
  | createFunction name body => simp [refusal, hschema] at h
  | createTrigger trigger => exact absurd (change_iff.mp h).2.1 (Bool.eq_false_iff.mp (htable trigger.table))
  | grantAll ps ss g =>
    have hnone : ∀ t, tablesIn d.catalog ss t = false := by
      intro t
      have hall : allTables.all (fun t => !tablesIn d.catalog ss t) = true := by
        simpa [refusal, htable] using h
      have ht : t ∈ allTables := by cases t <;> simp [allTables]
      simpa using List.all_eq_true.mp hall t ht
    refine ⟨rfl, rfl, ?_, rfl, rfl⟩
    funext g' p t
    simp [effect, Catalog.grant, hnone]
  | dropTrigger name t =>
    have hnone : (d.catalog.triggers.any fun trigger => trigger.name = name && trigger.table = t) = false := by
      simpa [refusal, htable] using h
    refine ⟨rfl, rfl, rfl, rfl, List.filter_eq_self.mpr fun trigger hmem => ?_⟩
    rw [Bool.eq_false_iff.mpr (List.any_eq_false.mp hnone trigger hmem), Bool.not_false]
  | grantUsage ss g => exact ⟨rfl, rfl, rfl, rfl, rfl⟩
  | alterDefault ps ss g => exact ⟨rfl, rfl, rfl, rfl, rfl⟩
  | select t => exact SameGuards.refl _
  | insert t new => exact SameGuards.refl _
  | update t which change => exact SameGuards.refl _
  | delete t which => exact SameGuards.refl _
  | truncate t => exact SameGuards.refl _

theorem extends_refl (d : Database ρ) : Extends d d := fun _ => List.prefix_refl _

theorem extends_trans {d₁ d₂ d₃ : Database ρ} (h : Extends d₁ d₂) (h' : Extends d₂ d₃) : Extends d₁ d₃ :=
  fun p => (h p).trans (h' p)

/-- Rows of one table that are only added to. -/
theorem extends_setRows {rows : List ρ} (h : ∀ p : Protected, p.table = t → d.rows t <+: rows) :
    Extends d (d.setRows t rows) := by
  intro p
  rw [rows_setRows]
  split_ifs with heq
  · rw [heq]
    exact h p heq
  · exact List.prefix_refl _

/-- A right that nobody has been granted is refused to a role at run time. -/
theorem may_false {p : Privilege} (hadmin : Administered d.catalog) (hr : r.Runtime)
    (h : ∀ g : Outsider, d.catalog.granted g.grantee p t = false) : may d.catalog r p t = false := by
  refine Bool.eq_false_iff.mpr fun hmay => ?_
  rcases granted_of_may hadmin hr hmay with hrole | heveryone
  · rcases hr with rfl | rfl
    · exact Bool.false_ne_true ((h .lpApp).symm.trans hrole)
    · exact Bool.false_ne_true ((h .lpReadonly).symm.trans hrole)
  · exact Bool.false_ne_true ((h .everyone).symm.trans heveryone)

/-- A change that is let through while the table is guarded meets no row. -/
theorem any_false_of_guarded (hadmin : Administered d.catalog) (hr : r.Runtime) (hguard : Guarded d t)
    {which : ρ → Bool} {p : Privilege} {fires : Trigger → Bool}
    (hkind : (p = .update ∧ fires = Trigger.onUpdate) ∨ (p = .delete ∧ fires = Trigger.onDelete))
    (hmay : may d.catalog r p t = true)
    (hpass : (if (d.rows t).any which then (stopped d.catalog t fires).map SqlError.raised else none) = none) :
    (d.rows t).any which = false := by
  rcases hguard.mutate with hlacks | ⟨harmed, hraising⟩
  · have hnone : ∀ g : Outsider, d.catalog.granted g.grantee p t = false := by
      rcases hkind with ⟨rfl, -⟩ | ⟨rfl, -⟩
      · exact fun g => (hlacks g).1
      · exact fun g => (hlacks g).2
    rw [may_false hadmin hr hnone] at hmay
    exact absurd hmay Bool.false_ne_true
  · obtain ⟨message, hmessage⟩ := stopped_of_armed harmed hraising (hkind.imp And.right And.right)
    refine Bool.eq_false_iff.mpr fun hany => ?_
    simp [hany, hmessage] at hpass

/-- No statement at run time changes or removes a row of a guarded table. -/
theorem extends_of_runtime (hadmin : Administered d.catalog) (hr : r.Runtime)
    (hguards : ∀ p : Protected, Guarded d p.table) (h : refusal r d stmt = none) :
    Extends d (effect r d stmt) := by
  have htable : ∀ t, owns r (d.catalog.owner t) = false := fun t => owns_false hr (hadmin.tables t)
  cases stmt with
  | createSchema s => simp [refusal, hr] at h
  | createTable t =>
    exact absurd (passes_iff.mp h).2 (Bool.eq_false_iff.mp (owns_false hr (hadmin.schemas t.schema)))
  | dropTable t => exact absurd (passes_iff.mp h).2 (Bool.eq_false_iff.mp (htable t))
  | addColumn t name fill => exact absurd (passes_iff.mp h).2 (Bool.eq_false_iff.mp (htable t))
  | grantUsage ss g => exact extends_refl d
  | grantAll ps ss g => exact extends_refl d
  | grant ps t g => exact extends_refl d
  | alterDefault ps ss g => exact extends_refl d
  | revoke ps t g => exact extends_refl d
  | createFunction name body => exact extends_refl d
  | dropTrigger name t => exact extends_refl d
  | createTrigger trigger => exact extends_refl d
  | select t => exact extends_refl d
  | insert t new => exact extends_setRows fun _ _ => List.prefix_append _ _
  | update t which change =>
    refine extends_setRows fun p hp => ?_
    obtain ⟨-, hmay, hpass⟩ := change_iff.mp h
    have hany := any_false_of_guarded hadmin hr (hp ▸ hguards p) (.inl ⟨rfl, rfl⟩) hmay hpass
    have hsame : ((d.rows t).map fun row => if which row then change row else row) = d.rows t := by
      refine (List.map_congr_left fun row hrow => ?_).trans (List.map_id _)
      rw [if_neg (List.any_eq_false.mp hany row hrow), id]
    exact hsame.symm ▸ List.prefix_refl _
  | delete t which =>
    refine extends_setRows fun p hp => ?_
    obtain ⟨-, hmay, hpass⟩ := change_iff.mp h
    have hany := any_false_of_guarded hadmin hr (hp ▸ hguards p) (.inr ⟨rfl, rfl⟩) hmay hpass
    have hsame : ((d.rows t).filter fun row => !which row) = d.rows t :=
      List.filter_eq_self.mpr fun row hrow => by simpa using List.any_eq_false.mp hany row hrow
    exact hsame.symm ▸ List.prefix_refl _
  | truncate t =>
    refine extends_setRows fun p hp => ?_
    have hguard : Guarded d t := hp ▸ hguards p
    obtain ⟨-, hmay⟩ := passes_iff.mp h
    rw [may_false hadmin hr hguard.truncate] at hmay
    exact absurd hmay Bool.false_ne_true

end RunTime

section Operations

variable {d d' : Database ρ} {r : Role} {t : Table} {stmt : Statement ρ}

/-- One owner more, who is not there at run time. -/
theorem not_runtime_update {κ : Type} [DecidableEq κ] {owner : κ → Option Role} {k : κ}
    (h : ∀ k r', owner k = some r' → ¬ r'.Runtime) {new : Option Role} (hnew : ∀ r', new = some r' → ¬ r'.Runtime) :
    ∀ k' r', Function.update owner k new k' = some r' → ¬ r'.Runtime := by
  intro k' r' howner
  by_cases heq : k' = k
  · rw [heq, Function.update_self] at howner
    exact hnew r' howner
  · rw [Function.update_of_ne heq] at howner
    exact h k' r' howner

/-- A statement of an operator leaves everything to those who own it. -/
theorem administered_effect (hadmin : Administered d.catalog) (hr : ¬ r.Runtime) (hquiet : quiet stmt) :
    Administered (effect r d stmt).catalog := by
  have hone : ∀ r', some r = some r' → ¬ r'.Runtime := fun r' heq => Option.some.inj heq ▸ hr
  cases stmt with
  | createSchema s =>
    by_cases hs : (d.catalog.schemaOwner s).isSome = true
    · rwa [effect, if_pos hs]
    · rw [effect, if_neg hs]
      exact ⟨not_runtime_update hadmin.schemas hone, hadmin.tables, hadmin.functions, hadmin.exist⟩
  | createTable t =>
    by_cases ht : (d.catalog.owner t).isSome = true
    · rwa [effect, if_pos ht]
    · rw [effect, if_neg ht]
      refine ⟨hadmin.schemas, not_runtime_update hadmin.tables hone, hadmin.functions, fun p => ?_⟩
      have hne : p.table ≠ t := fun heq => ht (heq ▸ hadmin.exist p)
      exact (congrArg Option.isSome (Function.update_of_ne hne _ _)).trans (hadmin.exist p)
  | dropTable t =>
    refine ⟨hadmin.schemas, not_runtime_update hadmin.tables (by simp), hadmin.functions, fun p => ?_⟩
    exact (congrArg Option.isSome (Function.update_of_ne (hquiet p) _ _)).trans (hadmin.exist p)
  | addColumn t name fill =>
    by_cases hcolumn : (t, name) ∈ d.catalog.columns
    · rwa [effect, if_pos hcolumn]
    · rw [effect, if_neg hcolumn]
      exact ⟨hadmin.schemas, hadmin.tables, hadmin.functions, hadmin.exist⟩
  | createFunction name body =>
    refine ⟨hadmin.schemas, hadmin.tables, fun name' f hf => ?_, hadmin.exist⟩
    by_cases heq : name' = name
    · have hnew : ⟨((d.catalog.functions name).map (·.owner)).getD r, body⟩ = f :=
        Option.some.inj ((Function.update_self name _ _).symm.trans (heq ▸ hf))
      rw [← hnew]
      cases hold : d.catalog.functions name with
      | none => exact hr
      | some f => exact hadmin.functions name f hold
    · exact hadmin.functions name' f ((Function.update_of_ne heq _ _).symm.trans hf)
  | grantUsage ss g => exact ⟨hadmin.schemas, hadmin.tables, hadmin.functions, hadmin.exist⟩
  | grantAll ps ss g => exact ⟨hadmin.schemas, hadmin.tables, hadmin.functions, hadmin.exist⟩
  | grant ps t g => exact ⟨hadmin.schemas, hadmin.tables, hadmin.functions, hadmin.exist⟩
  | alterDefault ps ss g => exact ⟨hadmin.schemas, hadmin.tables, hadmin.functions, hadmin.exist⟩
  | revoke ps t g => exact ⟨hadmin.schemas, hadmin.tables, hadmin.functions, hadmin.exist⟩
  | dropTrigger name t => exact ⟨hadmin.schemas, hadmin.tables, hadmin.functions, hadmin.exist⟩
  | createTrigger trigger => exact ⟨hadmin.schemas, hadmin.tables, hadmin.functions, hadmin.exist⟩
  | select t => exact hadmin
  | insert t new => exact hadmin
  | update t which change => exact hadmin
  | delete t which => exact hadmin
  | truncate t => exact hadmin

/-- What a statement is said to put up stands after it. -/
theorem gives_effect {f : Fact} (h : gives stmt f = true) : Holds f (effect r d stmt) := by
  cases stmt with
  | revoke ps t g =>
    cases f with
    | lacks g' m t' => simpa [gives, effect, Holds, and_assoc] using fun _ => h
    | armed t' => simp [gives] at h
    | raising => simp [gives] at h
  | createFunction name body =>
    cases f with
    | raising =>
      obtain ⟨rfl, hbody⟩ : name = blockMutations ∧ body.Raises = true := by simpa [gives] using h
      exact ⟨⟨((d.catalog.functions blockMutations).map (·.owner)).getD r, body⟩, by simp [effect], hbody⟩
    | lacks g' m t' => simp [gives] at h
    | armed t' => simp [gives] at h
  | createTrigger trigger =>
    cases f with
    | armed t' =>
      refine ⟨trigger, by simp [effect], ?_⟩
      simpa [gives, and_assoc] using h
    | lacks g' m t' => simp [gives] at h
    | raising => simp [gives] at h
  | _ => simp [gives] at h

/-- What a statement is said to leave standing stands after it. -/
theorem keeps_effect {f : Fact} (hadmin : Administered d.catalog) (h : keeps stmt f = true) (hf : Holds f d) :
    Holds f (effect r d stmt) := by
  cases stmt with
  | createSchema s =>
    by_cases hs : (d.catalog.schemaOwner s).isSome = true
    · rwa [effect, if_pos hs]
    · rw [effect, if_neg hs]
      cases f <;> exact hf
  | createTable t =>
    by_cases ht : (d.catalog.owner t).isSome = true
    · rwa [effect, if_pos ht]
    · rw [effect, if_neg ht]
      cases f with
      | lacks g m p =>
        have hne : p.table ≠ t := fun heq => ht (heq ▸ hadmin.exist p)
        exact (if_neg hne).trans hf
      | armed p => exact hf
      | raising => exact hf
  | dropTable t =>
    cases f with
    | lacks g m p => exact hf
    | armed p =>
      obtain ⟨trigger, hmem, htable, hrest⟩ := hf
      have hne : p.table ≠ t := by simpa [keeps] using h
      exact ⟨trigger, List.mem_filter.mpr ⟨hmem, by simpa [htable] using hne⟩, htable, hrest⟩
    | raising => exact hf
  | addColumn t name fill =>
    by_cases hcolumn : (t, name) ∈ d.catalog.columns
    · rwa [effect, if_pos hcolumn]
    · rw [effect, if_neg hcolumn]
      cases f <;> exact hf
  | grantAll ps ss g =>
    cases f with
    | lacks g' m p =>
      have hlacks : d.catalog.granted g'.grantee m.privilege p.table = false := hf
      have hkept : (decide (g'.grantee = g) && decide (m.privilege ∈ ps) && decide (p.table.schema ∈ ss)) = false :=
        (Bool.not_eq_true' _).mp h
      show (d.catalog.granted _ _ _ || _) = false
      rw [hlacks, Bool.false_or, tablesIn, hadmin.exist p, Bool.true_and, hkept]
    | armed p => exact hf
    | raising => exact hf
  | grant ps t g =>
    cases f with
    | lacks g' m p =>
      have hlacks : d.catalog.granted g'.grantee m.privilege p.table = false := hf
      show (d.catalog.granted _ _ _ || _) = false
      rw [hlacks, Bool.false_or]
      exact (Bool.not_eq_true' _).mp h
    | armed p => exact hf
    | raising => exact hf
  | revoke ps t g =>
    cases f with
    | lacks g' m p =>
      have hlacks : d.catalog.granted g'.grantee m.privilege p.table = false := hf
      show (d.catalog.granted _ _ _ && _) = false
      rw [hlacks, Bool.false_and]
    | armed p => exact hf
    | raising => exact hf
  | createFunction name body =>
    cases f with
    | raising =>
      obtain ⟨f, hfunction, hraises⟩ := hf
      have hne : blockMutations ≠ name := fun heq => by simp [keeps, heq] at h
      exact ⟨f, (Function.update_of_ne hne _ _).trans hfunction, hraises⟩
    | lacks g m p => exact hf
    | armed p => exact hf
  | dropTrigger name t =>
    cases f with
    | armed p =>
      obtain ⟨trigger, hmem, htable, hrest⟩ := hf
      have hne : p.table ≠ t := by simpa [keeps] using h
      exact ⟨trigger, List.mem_filter.mpr ⟨hmem, by simp [htable, hne]⟩, htable, hrest⟩
    | lacks g m p => exact hf
    | raising => exact hf
  | createTrigger trigger =>
    cases f with
    | armed p =>
      obtain ⟨old, hmem, hrest⟩ := hf
      exact ⟨old, List.mem_append_left _ hmem, hrest⟩
    | lacks g m p => exact hf
    | raising => exact hf
  | _ => cases f <;> exact hf

/-- A quiet statement adds to the tables at most. -/
theorem extends_effect (hadmin : Administered d.catalog) (hquiet : quiet stmt) : Extends d (effect r d stmt) := by
  have hother : ∀ {t : Table} (rows : List ρ), (∀ p : Protected, p.table ≠ t) →
      Extends d (d.setRows t rows) := fun _ hne => extends_setRows fun p hp => absurd hp (hne p)
  cases stmt with
  | createSchema s =>
    by_cases hs : (d.catalog.schemaOwner s).isSome = true
    · rw [effect, if_pos hs]
      exact extends_refl d
    · rw [effect, if_neg hs]
      exact extends_refl d
  | createTable t =>
    by_cases ht : (d.catalog.owner t).isSome = true
    · rw [effect, if_pos ht]
      exact extends_refl d
    · rw [effect, if_neg ht]
      exact hother [] fun p heq => ht (heq ▸ hadmin.exist p)
  | dropTable t => exact hother [] hquiet
  | addColumn t name fill =>
    by_cases hcolumn : (t, name) ∈ d.catalog.columns
    · rw [effect, if_pos hcolumn]
      exact extends_refl d
    · rw [effect, if_neg hcolumn]
      exact hother ((d.rows t).map fill) hquiet
  | insert t new => exact extends_setRows fun _ _ => List.prefix_append _ _
  | update t which change => exact hother _ hquiet
  | delete t which => exact hother _ hquiet
  | truncate t => exact hother _ hquiet
  | _ => exact extends_refl d

theorem exec_some {a : Role × Statement ρ} : (analysis ρ).exec d a = some d' ↔
    refusal a.1 d a.2 = none ∧ effect a.1 d a.2 = d' := by
  rw [← exec_ok]
  show (exec a.1 d a.2).toOption = some d' ↔ _
  cases exec a.1 d a.2 <;> simp [Except.toOption]

/-- What is said of the migrations' statements is so. -/
theorem analysis_sound : Sound (analysis ρ) (fun d => Administered d.catalog) Operation where
  invariant hadmin ha hexec := by
    obtain ⟨-, rfl⟩ := exec_some.mp hexec
    exact administered_effect hadmin ha.1 ha.2
  keeps hadmin _ hexec hkeeps hf := by
    obtain ⟨-, rfl⟩ := exec_some.mp hexec
    exact keeps_effect hadmin hkeeps hf
  gives _ _ hexec hgives := by
    obtain ⟨-, rfl⟩ := exec_some.mp hexec
    exact gives_effect hgives

end Operations

/-- A transaction of the application or of a reader. -/
structure Transaction (ρ : Type) where
  role : Role
  runtime : role.Runtime
  statements : List (Statement ρ)

def Transaction.run (d : Database ρ) (x : Transaction ρ) : Database ρ := transact x.role x.statements d

/-- The statements of a file, issued by one role. -/
def asOperator (r : Role) (file : List (Statement ρ)) : List (Role × Statement ρ) := file.map fun stmt => (r, stmt)

/-- Both guards stand before all three tables. -/
def FullyGuarded (d : Database ρ) : Prop := ∀ f : Fact, Holds f d

/-- The migrations are applied by one who is not there at run time, a file as a
whole or statement by statement. -/
def Migrating (userId kind : ρ → ρ) : Turn (Transaction ρ) (Role × Statement ρ) → Prop
  | .whole script | .start script =>
    ∃ r file, ¬ r.Runtime ∧ file ∈ migrations userId kind ∧ script = asOperator r file
  | _ => True

section Files

variable {r : Role} {userId kind : ρ → ρ} {file : List (Statement ρ)}

/-- No file of the migrations loses a row of the tables. -/
theorem quiet_migrations (hfile : file ∈ migrations userId kind) : ∀ stmt ∈ file, quiet stmt := by
  have horders : ∀ p : Protected, p.table ≠ .orders := by intro p; cases p <;> decide
  have hdeposits : ∀ p : Protected, p.table ≠ .depositRequests := by intro p; cases p <;> decide
  simp only [migrations, List.mem_cons, List.not_mem_nil, or_false] at hfile
  rcases hfile with rfl | rfl | rfl | rfl | rfl
  · simp [init, schemas, quiet]
  · simp [security, quiet]
  · simp [depositRequests, quiet]
  · simpa [orderClientUserId, quiet] using horders
  · simpa [requestKind, quiet] using hdeposits

theorem operations_migrations (hr : ¬ r.Runtime) (hfile : file ∈ migrations userId kind) :
    ∀ a ∈ asOperator r file, Operation a := by
  intro a ha
  obtain ⟨stmt, hstmt, rfl⟩ := List.mem_map.mp ha
  exact ⟨hr, quiet_migrations hfile stmt hstmt⟩

/-- No file takes a guard down for good. -/
theorem carries_migrations (r : Role) (hfile : file ∈ migrations userId kind) :
    carries (analysis ρ) full (asOperator r file) = true := by
  simp only [migrations, List.mem_cons, List.not_mem_nil, or_false] at hfile
  rcases hfile with rfl | rfl | rfl | rfl | rfl <;> rfl

/-- At every statement of a file one of the guards stands. -/
theorem check_migrations (r : Role) (hfile : file ∈ migrations userId kind) :
    check (analysis ρ) enough full (listed full) (asOperator r file) = true := by
  simp only [migrations, List.mem_cons, List.not_mem_nil, or_false] at hfile
  rcases hfile with rfl | rfl | rfl | rfl | rfl <;> rfl

end Files

section Runs

variable {d d' : Database ρ} {r : Role} {userId kind : ρ → ρ}

theorem guarded_of_same {t : Table} (h : SameGuards d.catalog d'.catalog) (hguard : Guarded d t) : Guarded d' t := by
  refine ⟨fun g => h.granted ▸ hguard.truncate g, ?_⟩
  rw [Armed, Raising, h.granted, h.triggers, h.functions]
  exact hguard.mutate

theorem same_trans {c₁ c₂ c₃ : Catalog} (h : SameGuards c₁ c₂) (h' : SameGuards c₂ c₃) : SameGuards c₁ c₃ :=
  ⟨h'.schemaOwner.trans h.schemaOwner, h'.owner.trans h.owner, h'.granted.trans h.granted,
    h'.functions.trans h.functions, h'.triggers.trans h.triggers⟩

/-- The statements of a transaction at run time, one after the other. -/
theorem execAll_runtime (hr : r.Runtime) {stmts : List (Statement ρ)} (hadmin : Administered d.catalog)
    (hguards : ∀ p : Protected, Guarded d p.table) (h : DatabaseRoles.execAll r d stmts = .ok d') :
    SameGuards d.catalog d'.catalog ∧ Extends d d' := by
  induction stmts generalizing d with
  | nil =>
    obtain rfl : d = d' := Except.ok.inj h
    exact ⟨SameGuards.refl _, extends_refl d⟩
  | cons stmt stmts ih =>
    cases hexec : exec r d stmt with
    | error e => simp [DatabaseRoles.execAll, hexec] at h
    | ok next =>
      obtain ⟨hpass, rfl⟩ := exec_ok.mp hexec
      have hsame := same_of_runtime hadmin hr hpass
      obtain ⟨hrest, hextends⟩ := ih (administered_of_same hsame hadmin)
        (fun p => guarded_of_same hsame (hguards p)) (by simpa [DatabaseRoles.execAll, hexec] using h)
      exact ⟨same_trans hsame hrest, extends_trans (extends_of_runtime hadmin hr hguards hpass) hextends⟩

theorem transact_runtime (hr : r.Runtime) (stmts : List (Statement ρ)) (hadmin : Administered d.catalog)
    (hguards : ∀ p : Protected, Guarded d p.table) :
    SameGuards d.catalog (transact r stmts d).catalog ∧ Extends d (transact r stmts d) := by
  cases h : DatabaseRoles.execAll r d stmts with
  | ok next =>
    rw [transact, h]
    exact execAll_runtime hr hadmin hguards h
  | error e =>
    rw [transact, h]
    exact ⟨SameGuards.refl _, extends_refl d⟩

end Runs

/-- The role is the owner of what the migrations are about, or passes for
it. -/
structure Operated (r : Role) (c : Catalog) : Prop where
  schemas : ∀ s, (c.schemaOwner s).isSome = true ∧ owns r (c.schemaOwner s) = true
  tables : ∀ t, (c.owner t).isSome = true → owns r (c.owner t) = true
  function : ∀ f, c.functions blockMutations = some f → owns r (some f.owner) = true
  exist : ∀ p : Protected, (c.owner p.table).isSome = true

/-- The part of the file that grants, takes rights away and makes the
function. -/
def rights : List (Statement ρ) := security.take 13

/-- The part that sets the trigger of a table. -/
def setTrigger (name : String) (p : Protected) : List (Statement ρ) :=
  [.dropTrigger name p.table, .createTrigger (blockTrigger name p.table)]

theorem security_parts : (security : List (Statement ρ)) =
    rights ++ (setTrigger "trg_trades_block_mutations" .trades ++
      (setTrigger "trg_ledger_block_mutations" .ledgerEntries ++
        setTrigger "trg_audit_block_mutations" .auditLogs)) := rfl

section Restored

variable {d d' : Database ρ} {r : Role}

theorem execAll_append {front back : List (Statement ρ)} (h : DatabaseRoles.execAll r d front = .ok d') :
    DatabaseRoles.execAll r d (front ++ back) = DatabaseRoles.execAll r d' back := by
  induction front generalizing d with
  | nil =>
    obtain rfl : d = d' := Except.ok.inj h
    rfl
  | cons stmt front ih =>
    cases hexec : exec r d stmt with
    | error e => simp [DatabaseRoles.execAll, hexec] at h
    | ok next =>
      rw [List.cons_append, DatabaseRoles.execAll, hexec]
      exact ih (by simpa [DatabaseRoles.execAll, hexec] using h)

/-- The statements of a file are steps of the analysis. -/
theorem perform_of_execAll {file : List (Statement ρ)} (h : DatabaseRoles.execAll r d file = .ok d') :
    perform (analysis ρ) d (asOperator r file) = some d' := by
  induction file generalizing d with
  | nil => exact congrArg some (Except.ok.inj h)
  | cons stmt file ih =>
    cases hexec : exec r d stmt with
    | error e => simp [DatabaseRoles.execAll, hexec] at h
    | ok next =>
      have hstep : (analysis ρ).exec d (r, stmt) = some next := exec_some.mpr (exec_ok.mp hexec)
      have hrest := ih (by simpa [DatabaseRoles.execAll, hexec] using h)
      exact Option.bind_eq_some_iff.mpr ⟨next, hstep, hrest⟩

theorem owns_self (r : Role) : owns r (some r) = true := by simp [owns]

/-- A statement of the first part is not refused, and all is left to the
role. -/
theorem rights_step (hop : Operated r d.catalog) {stmt : Statement ρ} (hstmt : stmt ∈ rights) :
    refusal r d stmt = none ∧ Operated r (effect r d stmt).catalog := by
  have hkeep : ∀ {c : Catalog}, c.schemaOwner = d.catalog.schemaOwner → c.owner = d.catalog.owner →
      c.functions = d.catalog.functions → Operated r c := fun hs ht hf =>
    ⟨hs ▸ hop.schemas, ht ▸ hop.tables, hf ▸ hop.function, ht ▸ hop.exist⟩
  have husage : ∀ g, refusal r d (.grantUsage schemas g) = none := by
    intro g
    refine passes_iff.mpr ⟨?_, List.all_eq_true.mpr fun s _ => (hop.schemas s).2⟩
    exact List.any_eq_false.mpr fun s _ => by simp [Option.isNone_eq_false_iff.mpr (hop.schemas s).1]
  have hgrant : ∀ ps g, refusal r d (.grantAll ps schemas g) = none := by
    intro ps g
    refine if_pos (List.all_eq_true.mpr fun t _ => ?_)
    cases ht : (d.catalog.owner t).isSome with
    | false => simp [tablesIn, ht]
    | true => simp [hop.tables t ht]
  have hrevoke : ∀ (p : Protected) ps g, refusal r d (.revoke ps p.table g) = none := fun p ps g =>
    passes_iff.mpr ⟨Option.isNone_eq_false_iff.mpr (hop.exist p), hop.tables _ (hop.exist p)⟩
  simp only [rights, security, List.take, List.mem_cons, List.not_mem_nil, or_false] at hstmt
  rcases hstmt with rfl | rfl | rfl | rfl | rfl | rfl | rfl | rfl | rfl | rfl | rfl | rfl | rfl
  · exact ⟨husage _, hkeep rfl rfl rfl⟩
  · exact ⟨husage _, hkeep rfl rfl rfl⟩
  · exact ⟨hgrant _ _, hkeep rfl rfl rfl⟩
  · exact ⟨hgrant _ _, hkeep rfl rfl rfl⟩
  · exact ⟨rfl, hkeep rfl rfl rfl⟩
  · exact ⟨rfl, hkeep rfl rfl rfl⟩
  · exact ⟨hrevoke .trades _ _, hkeep rfl rfl rfl⟩
  · exact ⟨hrevoke .ledgerEntries _ _, hkeep rfl rfl rfl⟩
  · exact ⟨hrevoke .auditLogs _ _, hkeep rfl rfl rfl⟩
  · exact ⟨hrevoke .trades _ _, hkeep rfl rfl rfl⟩
  · exact ⟨hrevoke .ledgerEntries _ _, hkeep rfl rfl rfl⟩
  · exact ⟨hrevoke .auditLogs _ _, hkeep rfl rfl rfl⟩
  · refine ⟨?_, hop.schemas, hop.tables, fun f hf => ?_, hop.exist⟩
    · refine passes_iff.mpr ⟨by simp [(hop.schemas .trading).2], ?_⟩
      cases hold : d.catalog.functions blockMutations with
      | none => rfl
      | some f => exact hop.function f hold
    · have hnew : some (⟨((d.catalog.functions blockMutations).map (·.owner)).getD r, .raises blockMessage⟩ :
          DatabaseRoles.Function) = some f :=
        (Function.update_self blockMutations _ d.catalog.functions).symm.trans hf
      rw [← Option.some.inj hnew]
      cases hold : d.catalog.functions blockMutations with
      | none => exact owns_self r
      | some f => exact hop.function f hold

/-- Statements that are not refused, each in the state the others leave. -/
theorem execAll_succeeds {P : Database ρ → Prop} {stmts : List (Statement ρ)}
    (hstep : ∀ d, P d → ∀ stmt ∈ stmts, refusal r d stmt = none ∧ P (effect r d stmt)) (hd : P d) :
    ∃ d', DatabaseRoles.execAll r d stmts = .ok d' ∧ P d' := by
  induction stmts generalizing d with
  | nil => exact ⟨d, rfl, hd⟩
  | cons stmt stmts ih =>
    obtain ⟨hpass, hnext⟩ := hstep d hd stmt (by simp)
    obtain ⟨d', hrest, hd'⟩ := ih (fun d hd stmt' hmem => hstep d hd stmt' (by simp [hmem])) hnext
    exact ⟨d', by simp [DatabaseRoles.execAll, exec, hpass, hrest], hd'⟩

/-- The role has all it needs, and the trigger function is there. -/
def Prepared (r : Role) (d : Database ρ) : Prop :=
  Operated r d.catalog ∧ (d.catalog.functions blockMutations).isSome = true

/-- A trigger can be set anew. -/
theorem setTrigger_succeeds (name : String) (p : Protected) (h : Prepared r d) :
    ∃ d', DatabaseRoles.execAll r d (setTrigger name p) = .ok d' ∧ Prepared r d' := by
  obtain ⟨hop, hfunction⟩ := h
  have howns : owns r (d.catalog.owner p.table) = true := hop.tables _ (hop.exist p)
  have hdrop : refusal r d (.dropTrigger name p.table) = none := by simp [refusal, howns]
  have hcreate : refusal r (effect r d (.dropTrigger name p.table))
      (.createTrigger (blockTrigger name p.table)) = none := by
    refine change_iff.mpr ⟨Option.isNone_eq_false_iff.mpr (hop.exist p), howns, ?_⟩
    refine (if_neg ?_).trans (if_neg ?_)
    · exact Bool.eq_false_iff.mp (Option.isNone_eq_false_iff.mpr hfunction)
    · exact Bool.eq_false_iff.mp (List.any_eq_false.mpr fun other hother =>
        Bool.eq_false_iff.mp ((Bool.not_eq_true' _).mp (List.mem_filter.mp hother).2))
  refine ⟨effect r (effect r d (.dropTrigger name p.table)) (.createTrigger (blockTrigger name p.table)), ?_,
    ⟨hop.schemas, hop.tables, hop.function, hop.exist⟩, hfunction⟩
  simp [setTrigger, DatabaseRoles.execAll, exec, hdrop, hcreate]

/-- The file never fails where its role has all it needs. -/
theorem security_succeeds (hadmin : Administered d.catalog) (hr : ¬ r.Runtime) (hop : Operated r d.catalog) :
    ∃ d', DatabaseRoles.execAll r d security = .ok d' := by
  obtain ⟨d₁, h₁, hop₁⟩ := execAll_succeeds (P := fun d => Operated r d.catalog)
    (fun d hd stmt hmem => rights_step hd hmem) hop
  have hfile : (security : List (Statement ρ)) ∈ migrations id id := by simp [migrations]
  have hallowed : ∀ a ∈ asOperator r (rights : List (Statement ρ)), Operation a := fun a ha =>
    operations_migrations hr hfile a (List.map_subset _ (List.take_subset 13 security) ha)
  have hknown : Known (analysis ρ) (fun _ => false) d := fun f hf => absurd hf Bool.false_ne_true
  obtain ⟨f, hf, -⟩ : Raising d₁.catalog :=
    (known_perform analysis_sound hallowed hadmin hknown (perform_of_execAll h₁)).2 .raising rfl
  obtain ⟨d₂, h₂, hprepared₂⟩ := setTrigger_succeeds "trg_trades_block_mutations" .trades
    ⟨hop₁, Option.isSome_iff_exists.mpr ⟨f, hf⟩⟩
  obtain ⟨d₃, h₃, hprepared₃⟩ := setTrigger_succeeds "trg_ledger_block_mutations" .ledgerEntries hprepared₂
  obtain ⟨d₄, h₄, -⟩ := setTrigger_succeeds "trg_audit_block_mutations" .auditLogs hprepared₃
  refine ⟨d₄, ?_⟩
  rw [security_parts, execAll_append h₁, execAll_append h₂, execAll_append h₃]
  exact h₄

/-- The file leaves all rows as they are. -/
theorem security_rows (h : DatabaseRoles.execAll r d security = .ok d') : d'.rows = d.rows := by
  have hstill : ∀ stmt ∈ (security : List (Statement ρ)), ∀ d, (effect r d stmt).rows = d.rows := by
    intro stmt hmem d
    simp only [security, List.mem_cons, List.not_mem_nil, or_false] at hmem
    rcases hmem with rfl | rfl | rfl | rfl | rfl | rfl | rfl | rfl | rfl | rfl | rfl | rfl | rfl | rfl | rfl |
      rfl | rfl | rfl | rfl <;> rfl
  generalize (security : List (Statement ρ)) = stmts at h hstill
  induction stmts generalizing d with
  | nil => exact congrArg Database.rows (Except.ok.inj h).symm
  | cons stmt stmts ih =>
    cases hexec : exec r d stmt with
    | error e => simp [DatabaseRoles.execAll, hexec] at h
    | ok next =>
      obtain ⟨-, rfl⟩ := exec_ok.mp hexec
      rw [ih (by simpa [DatabaseRoles.execAll, hexec] using h) fun stmt' hmem => hstill stmt' (by simp [hmem])]
      exact hstill stmt (by simp) d

/-- Nobody changes or removes a row of the table, and the application is not
even let as far as the trigger. -/
structure Shut (d : Database ρ) (t : Table) : Prop where
  app : ∀ which change, exec .lpApp d (.update t which change) = .error .permissionDenied ∧
    exec .lpApp d (.delete t which) = .error .permissionDenied
  anyone : ∀ r which change, (d.rows t).any which = true →
    (∃ e, exec r d (.update t which change) = .error e) ∧ ∃ e, exec r d (.delete t which) = .error e

theorem exec_error {stmt : Statement ρ} {e : SqlError} :
    exec r d stmt = .error e ↔ refusal r d stmt = some e := by
  cases h : refusal r d stmt <;> simp [exec, h]

/-- What a trigger stops is an error, whoever asks. -/
theorem error_of_stopped {stmt : Statement ρ} (h : refusal r d stmt ≠ none) : ∃ e, exec r d stmt = .error e := by
  obtain ⟨e, he⟩ := Option.ne_none_iff_exists'.mp h
  exact ⟨e, exec_error.mpr he⟩

theorem shut_of_facts {p : Protected} (hadmin : Administered d.catalog)
    (happ : ∀ m : Mutation, m ≠ .truncate → d.catalog.granted (.role .lpApp) m.privilege p.table = false ∧
      d.catalog.granted .everyone m.privilege p.table = false)
    (harmed : Armed d.catalog p.table) (hraising : Raising d.catalog) : Shut d p.table := by
  have hexists : (d.catalog.owner p.table).isNone = false := Option.isNone_eq_false_iff.mpr (hadmin.exist p)
  have hmay : ∀ m : Mutation, m ≠ .truncate → may d.catalog .lpApp m.privilege p.table = false := by
    intro m hm
    refine Bool.eq_false_iff.mpr fun hmay => ?_
    rcases granted_of_may hadmin (.inl rfl) hmay with hrole | heveryone
    · exact Bool.false_ne_true ((happ m hm).1.symm.trans hrole)
    · exact Bool.false_ne_true ((happ m hm).2.symm.trans heveryone)
  obtain ⟨m₁, hupdate⟩ := stopped_of_armed harmed hraising (.inl rfl)
  obtain ⟨m₂, hdelete⟩ := stopped_of_armed harmed hraising (.inr rfl)
  refine ⟨fun which change => ⟨exec_error.mpr ?_, exec_error.mpr ?_⟩, fun r which change hany =>
    ⟨error_of_stopped fun hpass => ?_, error_of_stopped fun hpass => ?_⟩⟩
  · simp [refusal, hexists, show may d.catalog .lpApp .update p.table = false from hmay .update (by decide)]
  · simp [refusal, hexists, show may d.catalog .lpApp .delete p.table = false from hmay .delete (by decide)]
  · have hstop := (change_iff.mp hpass).2.2
    simp [hany, hupdate] at hstop
  · have hstop := (change_iff.mp hpass).2.2
    simp [hany, hdelete] at hstop

/-- What the file leaves to what was granted before it. -/
def Untouched (f : Fact) : Bool :=
  match f with
  | .lacks .lpReadonly _ _ | .lacks _ .truncate _ => true
  | _ => false

/-- Once the file has been applied where nothing more than it grants had been
granted, both guards stand in full. -/
theorem fullyGuarded_of_security (hadmin : Administered d.catalog) (hr : ¬ r.Runtime)
    (hgrants : Known (analysis ρ) Untouched d) (h : DatabaseRoles.execAll r d security = .ok d') :
    Administered d'.catalog ∧ FullyGuarded d' := by
  have hfile : (security : List (Statement ρ)) ∈ migrations id id := by simp [migrations]
  obtain ⟨hadmin', hafter⟩ := known_perform analysis_sound (operations_migrations hr hfile) hadmin hgrants
    (perform_of_execAll h)
  refine ⟨hadmin', fun f => hafter f ?_⟩
  cases f with
  | lacks g m p => cases g <;> cases m <;> cases p <;> rfl
  | armed p => cases p <;> rfl
  | raising => rfl

end Restored

/-- All belongs to the owner of the database, the application may do everything,
and nothing is stopped. -/
def looseSample : Database ℕ where
  catalog :=
    { schemaOwner := fun _ => some .lpOwner
      owner := fun _ => some .lpOwner
      columns := []
      usage := fun _ _ => true
      granted := fun _ _ _ => true
      defaults := fun _ _ _ _ => false
      functions := fun _ => none
      triggers := [] }
  rows := fun _ => [1, 2]

theorem looseSample_administered : Administered looseSample.catalog where
  schemas _ r h := by
    obtain rfl : Role.lpOwner = r := Option.some.inj h
    decide
  tables _ r h := by
    obtain rfl : Role.lpOwner = r := Option.some.inj h
    decide
  functions _ _ h := nomatch h
  exist _ := rfl

theorem looseSample_operated : Operated .lpOwner looseSample.catalog where
  schemas _ := ⟨rfl, rfl⟩
  tables _ _ := rfl
  function _ h := nomatch h
  exist _ := rfl

/-- The same, before anything has been granted. -/
def bareSample : Database ℕ where
  catalog := { looseSample.catalog with granted := fun _ _ _ => false }
  rows := looseSample.rows

/-- The application adds a trade and tries to remove its trades while the file
is applied one statement at a time, and once more as a whole. -/
def sampleTurns : List (Turn (Transaction ℕ) (Role × Statement ℕ)) :=
  [.other ⟨.lpApp, .inl rfl, [.insert .trades [3]]⟩, .start (asOperator .lpOwner security),
    .other ⟨.lpApp, .inl rfl, [.delete .trades fun _ => true]⟩, .whole (asOperator .lpOwner security)]

end LpPlatform.AppendOnlyTables
