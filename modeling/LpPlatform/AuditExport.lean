import LpPlatform.CsvTexts
import LpPlatform.JsonTexts

/-!
# Audit export

The audit page exports the rows it shows as comma-separated values: a header,
then a line for each row. A value stands in quotes with its quotes doubled; a
null leaves its cell empty and bare. Whatever the values hold, the grammar
reads the header and the rows, and nothing else.
-/

namespace LpPlatform.AuditExport

open CsvTexts JsonTexts JsonTrees

/-- The exported fields of a row. -/
structure AuditRow where
  auditId : Text
  actorType : Text
  actorId : Text
  action : Text
  resourceType : Option Text
  resourceId : Option Text
  outcome : Text
  ipAddress : Option Text
  createdAt : Text

/-- An exported column. -/
inductive Column where
  | createdAt | actorType | actorId | action | resourceType | resourceId | outcome | ipAddress | auditId

/-- The key of a column. -/
def Column.key : Column → String
  | .createdAt => "createdAt"
  | .actorType => "actorType"
  | .actorId => "actorId"
  | .action => "action"
  | .resourceType => "resourceType"
  | .resourceId => "resourceId"
  | .outcome => "outcome"
  | .ipAddress => "ipAddress"
  | .auditId => "auditId"

/-- The value of a row under a key, null when there is none. -/
def AuditRow.value (r : AuditRow) : Column → Option Text
  | .createdAt => some r.createdAt
  | .actorType => some r.actorType
  | .actorId => some r.actorId
  | .action => some r.action
  | .resourceType => r.resourceType
  | .resourceId => r.resourceId
  | .outcome => some r.outcome
  | .ipAddress => r.ipAddress
  | .auditId => some r.auditId

/-- The columns in their order. -/
def cols : List Column :=
  [.createdAt, .actorType, .actorId, .action, .resourceType, .resourceId, .outcome, .ipAddress, .auditId]

/-- `replaceAll` of a quote by two. -/
def replaceQuotes (v : Text) : Text := v.flatMap fun u => if u = unit '"' then [unit '"', unit '"'] else [u]

/-- What stands for a value on its line. -/
def exported : Option Text → Text
  | none => []
  | some v => unit '"' :: (replaceQuotes v ++ [unit '"'])

/-- `buildCsv`. -/
def buildCsv (rows : List AuditRow) : Text :=
  let header := [unit ','].intercalate (cols.map fun c => ascii c.key)
  let lines := rows.map fun r => [unit ','].intercalate (cols.map fun c => exported (r.value c))
  [unit '\n'].intercalate (header :: lines)

/-- The marks of the format. -/
def csv : Marks CodeUnit := ⟨unit ',', unit '"', unit '\r', unit '\n', by decide⟩

/-- The keys of the columns, bare. -/
def header : List (Cell CodeUnit) := cols.map fun c => .bare (ascii c.key)

/-- A null is an empty bare cell, a text a quoted one. -/
def cell : Option Text → Cell CodeUnit
  | none => .bare []
  | some v => .quoted v

/-- The exported values of a row. -/
def AuditRow.cells (r : AuditRow) : List (Cell CodeUnit) := cols.map fun c => cell (r.value c)

theorem printCell_cell (v : Option Text) : printCell csv (cell v) = exported v := by
  cases v <;> rfl

/-- The export prints the header and the rows. -/
theorem buildCsv_eq (rows : List AuditRow) : buildCsv rows = printFile csv (header :: rows.map AuditRow.cells) := by
  have hrow : ∀ r : AuditRow, printRecord csv r.cells =
      [unit ','].intercalate (cols.map fun c => exported (r.value c)) := by
    intro r
    rw [printRecord, AuditRow.cells, List.map_map]
    simp only [Function.comp_def, printCell_cell]
    rfl
  have hheader : printRecord csv header = [unit ','].intercalate (cols.map fun c => ascii c.key) := by
    rw [printRecord, header, List.map_map]
    rfl
  rw [printFile, List.map_cons, List.map_map, hheader]
  simp only [Function.comp_def, hrow]
  rfl

/-- No key has a mark in it: keys are made of letters. -/
theorem key_clean (c : Column) : ∀ u ∈ ascii c.key, u ∉ csv.all := by
  have hall : c.key.toList.all (fun letter => 65 ≤ letter.toNat && letter.toNat < 65536) = true := by
    cases c <;> decide +kernel
  have hletters : ∀ letter ∈ c.key.toList, 65 ≤ letter.toNat ∧ letter.toNat < 65536 := fun letter hletter => by
    simpa using List.all_eq_true.mp hall letter hletter
  have hmarks : ∀ u ∈ csv.all, u.val < 65 := by simp [csv, Marks.all, unit, Fin.ofNat]
  intro u hu hmark
  obtain ⟨letter, hletter, rfl⟩ := List.mem_map.mp hu
  have hval : (unit letter).val = letter.toNat := Nat.mod_eq_of_lt (hletters letter hletter).2
  have hlow := hmarks _ hmark
  rw [hval] at hlow
  exact absurd hlow (not_lt.mpr (hletters letter hletter).1)

theorem printable_header : Printable csv header where
  clean := by
    intro cell hcell
    obtain ⟨c, -, rfl⟩ := List.mem_map.mp hcell
    exact key_clean c
  cells := List.cons_ne_nil _ _
  visible := by
    intro heq
    simp [header, cols] at heq

theorem printable_cells (r : AuditRow) : Printable csv r.cells where
  clean := by
    intro c hc
    obtain ⟨column, -, rfl⟩ := List.mem_map.mp hc
    cases r.value column with
    | none => exact List.forall_mem_nil _
    | some v => trivial
  cells := List.cons_ne_nil _ _
  visible := by
    intro heq
    simp [AuditRow.cells, cols] at heq

/-- The grammar reads one file out of an export: the header and then, row by
row, the exported values, a null as an empty bare cell and a text as a quoted
one. -/
theorem buildCsv_decodes (rows : List AuditRow) (records : List (List (Cell CodeUnit))) :
    FileText csv records (buildCsv rows) ↔ records = header :: rows.map AuditRow.cells := by
  rw [buildCsv_eq]
  refine fileText_printFile (fun record hrecord => ?_) (List.cons_ne_nil _ _) records
  rcases List.mem_cons.mp hrecord with rfl | hrow
  · exact printable_header
  · obtain ⟨r, -, rfl⟩ := List.mem_map.mp hrow
    exact printable_cells r

end LpPlatform.AuditExport
