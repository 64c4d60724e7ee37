import Mathlib.Data.List.Basic

/-!
# Texts with markup

In a text with markup a bracket opens a tag and an ampersand a reference to a
character. A writer fills a template with texts, in which references stand for
the marks. What is read of a filled template is what is read of its fixed parts
with the texts between them as they are: no text adds a tag or takes one away.
-/

namespace LpPlatform.MarkupTexts

/-- What is read: a tag, or a character outside of tags. -/
inductive Item (α : Type*) where
  | tag (body : List α)
  | char (a : α)

/-- Where a reader stands. -/
inductive Mode (α : Type*) where
  | text
  /-- After a bracket that may open a tag. -/
  | opened
  | tag (body : List α)
  /-- In a tag, between quotes. -/
  | quoted (body : List α)
  /-- After an ampersand and a part of a name. -/
  | reference (name : List α)

/-- The marks of a markup, and what it knows of names. -/
structure Markup (α : Type*) where
  opening : α
  closing : α
  quote : α
  ampersand : α
  semicolon : α
  /-- What makes a tag of a bracket before it. -/
  starts : α → Bool
  inName : α → Bool
  /-- What the reference by a name stands for, with a semicolon after it or
  without. -/
  named : List α → Bool → List α

section Tags

variable {α : Type*}

/-- The tags of what is read. -/
def tags (items : List (Item α)) : List (List α) := items.flatMap fun item =>
  match item with
  | .tag body => [body]
  | .char _ => []

theorem tags_chars (text : List α) : tags (text.map Item.char) = [] := by
  induction text with
  | nil => rfl
  | cons a text ih => exact ih

end Tags

variable {α : Type*} [DecidableEq α]

namespace Markup

variable (M : Markup α)

/-- A character of a text. -/
def inText (a : α) : List (Item α) × Mode α :=
  if a = M.opening then ([], .opened)
  else if a = M.ampersand then ([], .reference [])
  else ([.char a], .text)

/-- Some characters before one of a text. -/
def before (texts : List α) (a : α) : List (Item α) × Mode α := (texts.map .char ++ (M.inText a).1, (M.inText a).2)

/-- A reader takes a character. -/
def step : Mode α → α → List (Item α) × Mode α
  | .text, a => M.inText a
  | .opened, a => if M.starts a then ([], .tag [a]) else M.before [M.opening] a
  | .tag body, a =>
    if a = M.closing then ([.tag body], .text)
    else if a = M.quote then ([], .quoted (body ++ [a]))
    else ([], .tag (body ++ [a]))
  | .quoted body, a => ([], if a = M.quote then .tag (body ++ [a]) else .quoted (body ++ [a]))
  | .reference name, a =>
    if M.inName a then ([], .reference (name ++ [a]))
    else if a = M.semicolon then ((M.named name true).map .char, .text)
    else M.before (M.named name false) a

/-- A reader takes a text. -/
def run : Mode α → List α → List (Item α) × Mode α
  | m, [] => ([], m)
  | m, a :: rest => ((M.step m a).1 ++ (run (M.step m a).2 rest).1, (run (M.step m a).2 rest).2)

/-- What is left when the text ends. A tag without its end is dropped. -/
def finish : Mode α → List (Item α)
  | .opened => [.char M.opening]
  | .reference name => (M.named name false).map .char
  | _ => []

/-- All that is read of a text. -/
def read (text : List α) : List (Item α) := (M.run .text text).1 ++ M.finish (M.run .text text).2

@[simp] theorem run_nil (m : Mode α) : M.run m [] = ([], m) := rfl

theorem run_cons (m : Mode α) (a : α) (rest : List α) :
    M.run m (a :: rest) = ((M.step m a).1 ++ (M.run (M.step m a).2 rest).1, (M.run (M.step m a).2 rest).2) := rfl

theorem run_append (m : Mode α) (text rest : List α) : M.run m (text ++ rest) =
    ((M.run m text).1 ++ (M.run (M.run m text).2 rest).1, (M.run (M.run m text).2 rest).2) := by
  induction text generalizing m with
  | nil => rfl
  | cons a text ih =>
    rw [List.cons_append, run_cons, ih, run_cons]
    simp only [List.append_assoc]

/-- A text without marks is read as it is. -/
theorem run_plain {text : List α} (h : ∀ a ∈ text, a ≠ M.opening ∧ a ≠ M.ampersand) :
    M.run .text text = (text.map .char, .text) := by
  induction text with
  | nil => rfl
  | cons a text ih =>
    obtain ⟨hopening, hampersand⟩ := h a (by simp)
    have hstep : M.step .text a = ([.char a], .text) := by
      rw [step, inText, if_neg hopening, if_neg hampersand]
    rw [run_cons, hstep, ih fun b hb => h b (by simp [hb])]
    rfl

/-- A name is taken in whole. -/
theorem run_name {name text : List α} (h : ∀ a ∈ text, M.inName a = true) :
    M.run (.reference name) text = ([], .reference (name ++ text)) := by
  induction text generalizing name with
  | nil => simp
  | cons a text ih =>
    have hstep : M.step (.reference name) a = ([], .reference (name ++ [a])) := by
      rw [step, if_pos (h a (by simp))]
    rw [run_cons, hstep, ih fun b hb => h b (by simp [hb]), List.append_assoc]
    rfl

end Markup

/-- A markup in which the marks of a text can be told by references. -/
structure Escapes (α : Type*) extends Markup α where
  /-- The name of what a writer tells by a reference. -/
  nameOf : α → Option (List α)
  opening_named : nameOf opening ≠ none
  ampersand_named : nameOf ampersand ≠ none
  opening_ne : ampersand ≠ opening
  semicolon_ends : inName semicolon = false
  letters : ∀ {a name}, nameOf a = some name → ∀ b ∈ name, inName b = true
  stands : ∀ {a name}, nameOf a = some name → named name true = [a]

/-- A part of a template that is filled in. -/
inductive Piece (α : Type*) where
  | fixed (text : List α)
  | shown (text : List α)

/-- A part with its text taken out. -/
def Piece.blank : Piece α → Piece α
  | .fixed text => .fixed text
  | .shown _ => .shown []

namespace Escapes

variable (E : Escapes α)

/-- What a writer puts for a character. -/
def escapeOne (a : α) : List α :=
  match E.nameOf a with
  | some name => E.ampersand :: (name ++ [E.semicolon])
  | none => [a]

/-- What a writer puts for a text. -/
def escape (text : List α) : List α := text.flatMap E.escapeOne

/-- The text of a part. -/
def written : Piece α → List α
  | .fixed text => text
  | .shown text => E.escape text

/-- What a part is to a reader. -/
def items : Piece α → List (Item α)
  | .fixed text => (E.run .text text).1
  | .shown text => text.map .char

/-- A fixed part ends outside of tags and references. -/
def Settled : Piece α → Prop
  | .fixed text => (E.run .text text).2 = .text
  | .shown _ => True

/-- A character that was put for another is read as that one. -/
theorem run_escapeOne (a : α) : E.run .text (E.escapeOne a) = ([.char a], .text) := by
  rw [escapeOne]
  cases hname : E.nameOf a with
  | none =>
    refine E.run_plain fun b hb => ?_
    obtain rfl : b = a := List.mem_singleton.mp hb
    exact ⟨fun h => E.opening_named (h ▸ hname), fun h => E.ampersand_named (h ▸ hname)⟩
  | some name =>
    have hstep : E.step .text E.ampersand = ([], .reference []) := by
      rw [Markup.step, Markup.inText, if_neg E.opening_ne, if_pos rfl]
    have hend : E.step (.reference name) E.semicolon = ([.char a], .text) := by
      rw [Markup.step, E.semicolon_ends, if_neg Bool.false_ne_true, if_pos rfl, E.stands hname]
      rfl
    have hname' : E.run (.reference []) name = ([], .reference name) := E.run_name (E.letters hname)
    have hreference : E.run (.reference []) (name ++ [E.semicolon]) = ([.char a], .text) := by
      rw [Markup.run_append, hname', Markup.run_cons, hend]
      rfl
    show E.run .text (E.ampersand :: (name ++ [E.semicolon])) = ([.char a], .text)
    rw [Markup.run_cons, hstep, hreference]
    rfl

/-- A text that is written is read as it was. -/
theorem run_escape (text : List α) : E.run .text (E.escape text) = (text.map .char, .text) := by
  induction text with
  | nil => rfl
  | cons a text ih =>
    have hcons : E.escape (a :: text) = E.escapeOne a ++ E.escape text := List.flatMap_cons
    rw [hcons, Markup.run_append, run_escapeOne, ih]
    rfl

theorem run_written {part : Piece α} (h : E.Settled part) : E.run .text (E.written part) = (E.items part, .text) := by
  cases part with
  | fixed text => exact Prod.ext rfl h
  | shown text => exact E.run_escape text

/-- A template is read part by part. -/
theorem run_parts {parts : List (Piece α)} (h : ∀ part ∈ parts, E.Settled part) :
    E.run .text (parts.flatMap E.written) = (parts.flatMap E.items, .text) := by
  induction parts with
  | nil => rfl
  | cons part parts ih =>
    rw [List.flatMap_cons, Markup.run_append, E.run_written (h part (by simp)), ih fun p hp => h p (by simp [hp])]
    rfl

/-- All that is read of a template is in its parts. -/
theorem read_parts {parts : List (Piece α)} (h : ∀ part ∈ parts, E.Settled part) :
    E.read (parts.flatMap E.written) = parts.flatMap E.items := by
  rw [Markup.read, E.run_parts h]
  exact List.append_nil _

/-- A fixed part without marks is settled, and read as it is. -/
theorem settled_plain {text : List α} (h : ∀ a ∈ text, a ≠ E.opening ∧ a ≠ E.ampersand) :
    E.Settled (.fixed text) ∧ E.items (.fixed text) = text.map .char :=
  ⟨congrArg Prod.snd (E.run_plain h), congrArg Prod.fst (E.run_plain h)⟩

/-- The tags of a template are there whatever its texts are. -/
theorem tags_read {parts : List (Piece α)} (h : ∀ part ∈ parts, E.Settled part) :
    tags (E.read (parts.flatMap E.written)) = tags (E.read ((parts.map Piece.blank).flatMap E.written)) := by
  have hblank : ∀ part ∈ parts.map Piece.blank, E.Settled part := by
    intro part hpart
    obtain ⟨whole, hwhole, rfl⟩ := List.mem_map.mp hpart
    cases whole with
    | fixed text => exact h _ hwhole
    | shown text => trivial
  have htags : ∀ part, tags (E.items (Piece.blank part)) = tags (E.items part) := by
    intro part
    cases part with
    | fixed text => rfl
    | shown text => exact (tags_chars text).symm
  have hparts : ∀ parts : List (Piece α),
      tags (parts.flatMap E.items) = parts.flatMap fun part => tags (E.items part) :=
    fun _ => List.flatMap_assoc
  rw [E.read_parts h, E.read_parts hblank, hparts, hparts, List.flatMap_map]
  simp only [htags]

end Escapes

end LpPlatform.MarkupTexts
