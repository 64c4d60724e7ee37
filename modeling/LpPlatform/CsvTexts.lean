import Mathlib.Data.List.Basic

/-!
# Comma-separated texts

The grammar of comma-separated values over any alphabet with four marks. A
cell is bare, and has no mark in it, or it stands in quotes, where quotes are
doubled. Records end at a line feed, with or without a carriage return before
it, and the last one need not end. What is printed from records is in the
grammar, and no other records have that text.
-/

namespace LpPlatform.CsvTexts

/-- The marks of the grammar, all different. -/
structure Marks (α : Type*) where
  comma : α
  quote : α
  cr : α
  lf : α
  distinct : [comma, quote, cr, lf].Nodup

/-- A cell as it is written. -/
inductive Cell (α : Type*) where
  | bare (text : List α)
  | quoted (text : List α)

variable {α : Type*} (M : Marks α)

/-- All marks. -/
def Marks.all : List α := [M.comma, M.quote, M.cr, M.lf]

section Grammar

/-- What stands between quotes for a text. -/
inductive Inside : List α → List α → Prop where
  | nil : Inside [] []
  | plain {a text body} (ha : a ≠ M.quote) (h : Inside text body) : Inside (a :: text) (a :: body)
  | pair {text body} (h : Inside text body) : Inside (M.quote :: text) (M.quote :: M.quote :: body)

/-- A cell: non-escaped or escaped. -/
inductive CellText : Cell α → List α → Prop where
  | bare {text} (h : ∀ a ∈ text, a ∉ M.all) : CellText (.bare text) text
  | quoted {text body} (h : Inside M text body) : CellText (.quoted text) (M.quote :: (body ++ [M.quote]))

/-- A record: cells with commas between them. -/
inductive RecordText : List (Cell α) → List α → Prop where
  | last {cell text} (h : CellText M cell text) : RecordText [cell] text
  | cons {cell cells text rest} (h : CellText M cell text) (hrest : RecordText cells rest) :
      RecordText (cell :: cells) (text ++ M.comma :: rest)

/-- A line break, with or without a carriage return. -/
inductive Break : List α → Prop where
  | lf : Break [M.lf]
  | crlf : Break [M.cr, M.lf]

/-- A file: records with breaks between them, the last of which may end in one. -/
inductive FileText : List (List (Cell α)) → List α → Prop where
  | last {record text} (h : RecordText M record text) : FileText [record] text
  | ended {record text ending} (h : RecordText M record text) (hbreak : Break M ending) :
      FileText [record] (text ++ ending)
  | cons {record records text ending rest} (h : RecordText M record text) (hbreak : Break M ending)
      (hrest : FileText records rest) : FileText (record :: records) (text ++ (ending ++ rest))

end Grammar

section Printing

variable [DecidableEq α]

/-- Every quote doubled. -/
def doubled (text : List α) : List α := text.flatMap fun a => if a = M.quote then [M.quote, M.quote] else [a]

/-- The text of a cell. -/
def printCell : Cell α → List α
  | .bare text => text
  | .quoted text => M.quote :: (doubled M text ++ [M.quote])

/-- The text of a record. -/
def printRecord (cells : List (Cell α)) : List α := [M.comma].intercalate (cells.map (printCell M))

/-- The text of a file, with line feeds between the records. -/
def printFile (records : List (List (Cell α))) : List α := [M.lf].intercalate (records.map (printRecord M))

/-- No bare cell has a mark in it. -/
def Clean : Cell α → Prop
  | .bare text => ∀ a ∈ text, a ∉ M.all
  | .quoted _ => True

/-- A record that can be told from no record at all. -/
structure Printable (record : List (Cell α)) : Prop where
  clean : ∀ cell ∈ record, Clean M cell
  cells : record ≠ []
  visible : record ≠ [.bare []]

theorem inside_doubled (text : List α) : Inside M text (doubled M text) := by
  induction text with
  | nil => exact .nil
  | cons a text ih =>
    rw [doubled, List.flatMap_cons]
    by_cases ha : a = M.quote
    · rw [if_pos ha, ha]
      exact .pair ih
    · rw [if_neg ha]
      exact .plain ha ih

theorem cellText_print {cell : Cell α} (h : Clean M cell) : CellText M cell (printCell M cell) := by
  cases cell with
  | bare text => exact .bare h
  | quoted text => exact .quoted (inside_doubled M text)

@[simp] theorem printRecord_one (cell : Cell α) : printRecord M [cell] = printCell M cell := by
  simp [printRecord]

/-- The first cell of a record and the others. -/
theorem printRecord_cons (cell other : Cell α) (cells : List (Cell α)) :
    printRecord M (cell :: other :: cells) = printCell M cell ++ M.comma :: printRecord M (other :: cells) := by
  simp [printRecord, List.intercalate_cons_cons]

theorem recordText_print {record : List (Cell α)} (hclean : ∀ cell ∈ record, Clean M cell) (hne : record ≠ []) :
    RecordText M record (printRecord M record) := by
  induction record with
  | nil => exact absurd rfl hne
  | cons cell cells ih =>
    have hcell := cellText_print M (hclean cell List.mem_cons_self)
    cases cells with
    | nil => exact (printRecord_one M cell).symm ▸ .last hcell
    | cons other cells =>
      have hrest := ih (fun c hc => hclean c (List.mem_cons_of_mem cell hc)) (List.cons_ne_nil other cells)
      rw [printRecord_cons]
      exact .cons hcell hrest

@[simp] theorem printFile_one (record : List (Cell α)) : printFile M [record] = printRecord M record := by
  simp [printFile]

/-- The first record of a file and the others. -/
theorem printFile_cons (record other : List (Cell α)) (records : List (List (Cell α))) :
    printFile M (record :: other :: records) =
      printRecord M record ++ ([M.lf] ++ printFile M (other :: records)) := by
  simp [printFile, List.intercalate_cons_cons]

/-- What is printed is in the grammar. -/
theorem fileText_print {records : List (List (Cell α))} (hrecords : ∀ record ∈ records, Printable M record)
    (hne : records ≠ []) : FileText M records (printFile M records) := by
  induction records with
  | nil => exact absurd rfl hne
  | cons record records ih =>
    have hfirst := hrecords record List.mem_cons_self
    have hrecord := recordText_print M hfirst.clean hfirst.cells
    cases records with
    | nil => exact (printFile_one M record).symm ▸ .last hrecord
    | cons other records =>
      have hrest := ih (fun r hr => hrecords r (List.mem_cons_of_mem record hr)) (List.cons_ne_nil other records)
      rw [printFile_cons]
      exact .cons hrecord .lf hrest

end Printing

section Decoding

variable {M}

/-- What may come after a cell: nothing, or a mark that is no quote. -/
def AfterCell (M : Marks α) (rest : List α) : Prop :=
  rest = [] ∨ ∃ a more, rest = a :: more ∧ a ∈ M.all ∧ a ≠ M.quote

/-- What may come after a record: nothing, or a break. -/
def AfterRecord (M : Marks α) (rest : List α) : Prop :=
  rest = [] ∨ ∃ ending more, Break M ending ∧ rest = ending ++ more

theorem comma_ne : M.comma ≠ M.quote ∧ M.comma ≠ M.cr ∧ M.comma ≠ M.lf := by
  have hdistinct := M.distinct
  simp only [List.nodup_cons, List.mem_cons, not_or] at hdistinct
  exact ⟨hdistinct.1.1, hdistinct.1.2.1, hdistinct.1.2.2.1⟩

theorem break_ne : M.cr ≠ M.quote ∧ M.lf ≠ M.quote ∧ M.cr ≠ M.lf := by
  have hdistinct := M.distinct
  simp only [List.nodup_cons, List.mem_cons, not_or] at hdistinct
  exact ⟨Ne.symm hdistinct.2.1.1, Ne.symm hdistinct.2.1.2.1, hdistinct.2.2.1.1⟩

theorem AfterCell.comma (rest : List α) : AfterCell M (M.comma :: rest) :=
  Or.inr ⟨M.comma, rest, rfl, by simp [Marks.all], comma_ne.1⟩

theorem AfterRecord.afterCell {rest : List α} (h : AfterRecord M rest) : AfterCell M rest := by
  rcases h with rfl | ⟨_, more, hbreak, rfl⟩
  · exact Or.inl rfl
  · cases hbreak with
    | lf => exact Or.inr ⟨M.lf, more, rfl, by simp [Marks.all], break_ne.2.1⟩
    | crlf => exact Or.inr ⟨M.cr, M.lf :: more, rfl, by simp [Marks.all], break_ne.1⟩

/-- A record does not end before a comma. -/
theorem AfterRecord.not_comma {rest : List α} : ¬ AfterRecord M (M.comma :: rest) := by
  rintro (hnil | ⟨_, more, hbreak, heq⟩)
  · exact List.cons_ne_nil _ _ hnil
  · cases hbreak with
    | lf => exact comma_ne.2.2 (List.cons.inj heq).1
    | crlf => exact comma_ne.2.1 (List.cons.inj heq).1

/-- A cell that may be over does not go on with a quote. -/
theorem AfterCell.not_quote {rest : List α} : ¬ AfterCell M (M.quote :: rest) := by
  rintro (hnil | ⟨a, more, heq, -, hne⟩)
  · exact List.cons_ne_nil _ _ hnil
  · exact hne (List.cons.inj heq).1.symm

/-- A bare cell ends at the first mark. -/
theorem bare_unique {text other rest more : List α} (htext : ∀ a ∈ text, a ∉ M.all)
    (hother : ∀ a ∈ other, a ∉ M.all) (hrest : AfterCell M rest) (hmore : AfterCell M more)
    (h : text ++ rest = other ++ more) : text = other ∧ rest = more := by
  have hfirst : ∀ (a : α) (tail : List α), AfterCell M (a :: tail) → a ∈ M.all := by
    rintro a tail (hnil | ⟨b, _, heq, hb, -⟩)
    · exact absurd hnil (List.cons_ne_nil a tail)
    · exact (List.cons.inj heq).1 ▸ hb
  induction text generalizing other with
  | nil =>
    cases other with
    | nil => exact ⟨rfl, h⟩
    | cons b other =>
      rw [List.nil_append, List.cons_append] at h
      exact absurd (hfirst b _ (h ▸ hrest)) (hother b List.mem_cons_self)
  | cons a text ih =>
    cases other with
    | nil =>
      rw [List.nil_append, List.cons_append] at h
      exact absurd (hfirst a _ (h ▸ hmore)) (htext a List.mem_cons_self)
    | cons b other =>
      obtain ⟨rfl, htail⟩ := List.cons.inj h
      obtain ⟨rfl, hsame⟩ := ih (fun c hc => htext c (List.mem_cons_of_mem _ hc))
        (fun c hc => hother c (List.mem_cons_of_mem _ hc)) htail
      exact ⟨rfl, hsame⟩

/-- A quoted cell ends at the first quote that is not doubled. -/
theorem inside_unique {text body other inside rest more : List α} (htext : Inside M text body)
    (hother : Inside M other inside) (hrest : AfterCell M rest) (hmore : AfterCell M more)
    (h : body ++ M.quote :: rest = inside ++ M.quote :: more) : text = other ∧ rest = more := by
  induction htext generalizing other inside with
  | nil =>
    cases hother with
    | nil => exact ⟨rfl, (List.cons.inj h).2⟩
    | plain ha _ => exact absurd (List.cons.inj h).1.symm ha
    | pair _ => exact absurd ((List.cons.inj h).2 ▸ hrest) AfterCell.not_quote
  | plain ha _ ih =>
    cases hother with
    | nil => exact absurd (List.cons.inj h).1 ha
    | plain _ hother =>
      obtain ⟨rfl, htail⟩ := List.cons.inj h
      obtain ⟨rfl, hsame⟩ := ih hother htail
      exact ⟨rfl, hsame⟩
    | pair _ => exact absurd (List.cons.inj h).1 ha
  | pair _ ih =>
    cases hother with
    | nil => exact absurd ((List.cons.inj h).2 ▸ hmore) AfterCell.not_quote
    | plain ha _ => exact absurd (List.cons.inj h).1.symm ha
    | pair hother =>
      obtain ⟨rfl, hsame⟩ := ih hother (List.cons.inj (List.cons.inj h).2).2
      exact ⟨rfl, hsame⟩

/-- A quoted cell is not bare. -/
theorem bare_ne_quoted {text body rest : List α} (htext : ∀ a ∈ text, a ∉ M.all) (hrest : AfterCell M rest) :
    text ++ rest ≠ M.quote :: body := by
  intro h
  cases text with
  | nil =>
    rw [List.nil_append] at h
    exact AfterCell.not_quote (h ▸ hrest)
  | cons a text =>
    refine htext a List.mem_cons_self ?_
    rw [(List.cons.inj h).1]
    simp [Marks.all]

theorem cell_unique {cell other : Cell α} {text printed rest more : List α} (hcell : CellText M cell text)
    (hother : CellText M other printed) (hrest : AfterCell M rest) (hmore : AfterCell M more)
    (h : text ++ rest = printed ++ more) : cell = other ∧ rest = more := by
  cases hcell with
  | bare htext =>
    cases hother with
    | bare hprinted =>
      obtain ⟨rfl, hsame⟩ := bare_unique htext hprinted hrest hmore h
      exact ⟨rfl, hsame⟩
    | quoted _ => exact absurd h (bare_ne_quoted htext hrest)
  | quoted hbody =>
    cases hother with
    | bare hprinted => exact absurd h.symm (bare_ne_quoted hprinted hmore)
    | quoted hinside =>
      rw [List.cons_append, List.cons_append, List.append_assoc, List.append_assoc] at h
      obtain ⟨rfl, hsame⟩ := inside_unique hbody hinside hrest hmore (List.cons.inj h).2
      exact ⟨rfl, hsame⟩

theorem record_unique {record other : List (Cell α)} {text printed rest more : List α}
    (hrecord : RecordText M record text) (hother : RecordText M other printed) (hrest : AfterRecord M rest)
    (hmore : AfterRecord M more) (h : text ++ rest = printed ++ more) : record = other ∧ rest = more := by
  induction hrecord generalizing other printed with
  | last hcell =>
    cases hother with
    | last hcell' =>
      obtain ⟨rfl, hsame⟩ := cell_unique hcell hcell' hrest.afterCell hmore.afterCell h
      exact ⟨rfl, hsame⟩
    | cons hcell' _ =>
      rw [List.append_assoc] at h
      obtain ⟨-, hsame⟩ := cell_unique hcell hcell' hrest.afterCell (.comma _) h
      exact absurd (hsame ▸ hrest) AfterRecord.not_comma
  | cons hcell _ ih =>
    rw [List.append_assoc] at h
    cases hother with
    | last hcell' =>
      obtain ⟨-, hsame⟩ := cell_unique hcell hcell' (.comma _) hmore.afterCell h
      exact absurd (hsame ▸ hmore) AfterRecord.not_comma
    | cons hcell' hcells =>
      rw [List.append_assoc] at h
      obtain ⟨rfl, hsame⟩ := cell_unique hcell hcell' (.comma _) (.comma _) h
      obtain ⟨rfl, hleft⟩ := ih hcells (List.cons.inj hsame).2
      exact ⟨rfl, hleft⟩

/-- A record with no text is one empty bare cell. -/
theorem record_nil {record : List (Cell α)} (h : RecordText M record []) : record = [.bare []] := by
  have hempty : RecordText M [.bare []] [] := .last (.bare (List.forall_mem_nil _))
  exact (record_unique h hempty (Or.inl rfl) (Or.inl rfl) rfl).1

theorem Break.afterRecord {ending : List α} (h : Break M ending) (rest : List α) : AfterRecord M (ending ++ rest) :=
  Or.inr ⟨ending, rest, h, rfl⟩

/-- A break that starts with a line feed has nothing else in it. -/
theorem Break.tail {ending rest more : List α} (h : Break M ending) (heq : ending ++ rest = M.lf :: more) :
    rest = more := by
  cases h with
  | lf => exact (List.cons.inj heq).2
  | crlf => exact absurd (List.cons.inj heq).1 break_ne.2.2

variable [DecidableEq α]

/-- A printed file is not empty. -/
theorem printFile_ne_nil {records : List (List (Cell α))} (hrecords : ∀ record ∈ records, Printable M record)
    (hne : records ≠ []) : printFile M records ≠ [] := by
  obtain ⟨record, rest, rfl⟩ := List.exists_cons_of_ne_nil hne
  have hfirst := hrecords record List.mem_cons_self
  have hrecord := recordText_print M hfirst.clean hfirst.cells
  intro hnil
  cases rest with
  | nil =>
    rw [printFile_one] at hnil
    exact hfirst.visible (record_nil (hnil ▸ hrecord))
  | cons other rest =>
    rw [printFile_cons] at hnil
    simp at hnil

/-- Only the records that were printed have the text. -/
theorem fileText_unique {records others : List (List (Cell α))} (hrecords : ∀ record ∈ records, Printable M record)
    (hne : records ≠ []) {text : List α} (h : FileText M others text) (htext : text = printFile M records) :
    others = records := by
  induction records generalizing others text with
  | nil => exact absurd rfl hne
  | cons record records ih =>
    have hfirst := hrecords record List.mem_cons_self
    have hrecord := recordText_print M hfirst.clean hfirst.cells
    cases records with
    | nil =>
      rw [printFile_one, ← List.append_nil (printRecord M record)] at htext
      cases h with
      | last hother =>
        rw [← List.append_nil text] at htext
        rw [(record_unique hother hrecord (Or.inl rfl) (Or.inl rfl) htext).1]
      | @ended other printed ending hother hbreak =>
        rw [← List.append_nil ending] at htext
        obtain ⟨-, hnil⟩ := record_unique hother hrecord (hbreak.afterRecord []) (Or.inl rfl) htext
        cases hbreak <;> simp at hnil
      | cons hother hbreak _ =>
        obtain ⟨-, hnil⟩ := record_unique hother hrecord (hbreak.afterRecord _) (Or.inl rfl) htext
        cases hbreak <;> simp at hnil
    | cons next records =>
      have hothers : ∀ r ∈ next :: records, Printable M r := fun r hr => hrecords r (List.mem_cons_of_mem record hr)
      have hfeed := (Break.lf (M := M)).afterRecord (printFile M (next :: records))
      rw [printFile_cons] at htext
      cases h with
      | last hother =>
        rw [← List.append_nil text] at htext
        obtain ⟨-, hnil⟩ := record_unique hother hrecord (Or.inl rfl) hfeed htext
        simp at hnil
      | @ended other printed ending hother hbreak =>
        -- a final break would leave no text for the records that come after it
        rw [← List.append_nil ending] at htext
        obtain ⟨-, hrest⟩ := record_unique hother hrecord (hbreak.afterRecord []) hfeed htext
        exact absurd (hbreak.tail hrest).symm (printFile_ne_nil hothers (List.cons_ne_nil _ _))
      | cons hother hbreak hmore =>
        obtain ⟨rfl, hrest⟩ := record_unique hother hrecord (hbreak.afterRecord _) hfeed htext
        rw [ih hothers (List.cons_ne_nil _ _) hmore (hbreak.tail hrest)]

/-- The grammar reads the printed records, and nothing else. -/
theorem fileText_printFile {records : List (List (Cell α))} (hrecords : ∀ record ∈ records, Printable M record)
    (hne : records ≠ []) (others : List (List (Cell α))) :
    FileText M others (printFile M records) ↔ others = records := by
  constructor
  · intro h
    exact fileText_unique hrecords hne h rfl
  · rintro rfl
    exact fileText_print M hrecords hne

end Decoding

end LpPlatform.CsvTexts
