import LpPlatform.InterferenceLogic
import LpPlatform.SessionTrails
import LpPlatform.TwoStates

/-!
# Programs over part of a store

A program over part of a store runs over the whole store: its statements read
the part off the rows they see, and what they write is written to the whole.
Sequencing, and what a program writes, reads and returns, are those of the
program over the part.
-/

namespace LpPlatform.PartPrograms

open InterferenceLogic RowStore SessionReplays SessionTrails Sessions StatementProgram TwoStates

variable {δ δ' ω ω' κ ι ε α β : Type}

/-- What a statement sees of the part. -/
def partView (φ : δ' → δ) (v : View δ') : View δ := ⟨φ v.committed, φ v.own, v.seq, v.self, v.alive⟩

/-- The program over the whole store. -/
def onPart (φ : δ' → δ) (ψ : ω → ω') : Prog δ ω ι ε α → Prog δ' ω' ι ε α
  | .done a => .done a
  | .throw e => .throw e
  | .begin ser k err => .begin ser (onPart φ ψ k) fun e => onPart φ ψ (err e)
  | .stmt ws k err =>
    .stmt (fun v i => (ws (partView φ v) i).map ψ) (fun v i => onPart φ ψ (k (partView φ v) i))
      fun e => onPart φ ψ (err e)
  | .commit k err => .commit (onPart φ ψ k) fun e => onPart φ ψ (err e)
  | .rollback k => .rollback (onPart φ ψ k)

variable {φ : δ' → δ} {ψ : ω → ω'}

theorem onPart_bind (p : Prog δ ω ι ε α) (f : α → Prog δ ω ι ε β) :
    onPart φ ψ (p.bind f) = (onPart φ ψ p).bind fun a => onPart φ ψ (f a) := by
  induction p with
  | done a => rfl
  | throw e => rfl
  | begin ser k err ihk ihe => simp only [Prog.bind, onPart, ihk, ihe]
  | stmt ws k err ihk ihe => simp only [Prog.bind, onPart, ihk, ihe]
  | commit k err ihk ihe => simp only [Prog.bind, onPart, ihk, ihe]
  | rollback k ihk => simp only [Prog.bind, onPart, ihk]

/-- A program over the part keeps a contract that allows whatever is written to
the part. -/
theorem keeps_onPart {S : KeyedRows δ' ω' κ} {C : Contract S} (hguar : ∀ v (xs : List ω), C.guar v (xs.map ψ))
    {p : Prog δ ω ι ε α} (h : AutoCommits p) (t : ℕ) (d : δ') (n : ℕ) :
    C.Keeps t (onPart φ ψ p) none d n := by
  induction p generalizing d n with
  | done a => trivial
  | throw e => trivial
  | begin ser k err => exact h.elim
  | stmt ws k err ihk ihe =>
    intro d' n' _ _
    refine ⟨fun v i _ _ => ⟨fun _ => hguar v _, ihk _ i (h.1 _ i) _ _⟩, fun e => ihe e (h.2 e) d' n'⟩
  | commit k err => exact h.elim
  | rollback k => exact h.elim

/-- Part of two states is read alike when the parts are. -/
theorem alike_onPart {s₁ s₂ : δ'} {p : Prog δ ω ι ε α} (hp : Alike (φ s₁) (φ s₂) p) :
    Alike s₁ s₂ (onPart φ ψ p) := by
  induction p with
  | done a => trivial
  | throw e => trivial
  | begin ser k err ihk ihe => exact ⟨ihk hp.1, fun e => ihe e (hp.2 e)⟩
  | stmt ws k err ihk ihe =>
    refine ⟨fun i => ⟨?_, ihk _ i (hp.1 i).2⟩, fun e => ihe e (hp.2 e)⟩
    exact congrArg (onPart φ ψ) (hp.1 i).1
  | commit k err ihk ihe => exact ⟨ihk hp.1, fun e => ihe e (hp.2 e)⟩
  | rollback k ihk => exact ihk hp

/-- A program over the part ends over a state as it ends over the part of it. -/
theorem answer_onPart (p : Prog δ ω ι ε α) (s : δ') (is : List (Except ε ι)) :
    answer (onPart φ ψ p) s is = answer p (φ s) is := by
  induction is generalizing p with
  | nil => cases p <;> rfl
  | cons i is ih =>
    cases p with
    | done a => rfl
    | throw e => rfl
    | begin ser k err =>
      cases i with
      | ok i => exact ih k
      | error e => exact ih (err e)
    | stmt ws k err =>
      cases i with
      | ok i => exact ih (k (still (φ s)) i)
      | error e => exact ih (err e)
    | commit k err =>
      cases i with
      | ok i => exact ih k
      | error e => exact ih (err e)
    | rollback k =>
      cases i with
      | ok i => exact ih k
      | error e => rfl

end LpPlatform.PartPrograms
