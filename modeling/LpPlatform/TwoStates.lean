import LpPlatform.SessionReplays

/-!
# Reading two states alike

A program that runs in a state nobody changes is told the same view at every
statement, with an input or an error of its own. It reads two states alike
when every statement that it comes to makes the same of both, and then it ends
in the same way in both.
-/

namespace LpPlatform.TwoStates

open SessionReplays StatementProgram

variable {δ ω ι ε α β : Type}

/-- The view of a state that nobody changes. -/
def still (d : δ) : View δ := ⟨d, d, 0, 0, fun _ => true⟩

/-- What a statement is told in a view: an input, or an error. -/
def tellIn (v : View δ) : Except ε ι → Seen δ ι ε
  | .ok i => .ran v i
  | .error e => .failed e

/-- How a program has ended. -/
def ending : Prog δ ω ι ε α → Option (Except ε α)
  | .done a => some (.ok a)
  | .throw e => some (.error e)
  | _ => none

/-- How a program ends in a state, under some inputs and errors. -/
def answer (p : Prog δ ω ι ε α) (d : δ) (is : List (Except ε ι)) : Option (Except ε α) :=
  (replay p (is.map (tellIn (still d)))).bind ending

section Answers

variable {d : δ} {is : List (Except ε ι)} {b : β}

theorem answer_done {a : β} (h : answer (.done a : Prog δ ω ι ε β) d is = some (.ok b)) : b = a := by
  cases is with
  | nil => exact (Except.ok.inj (Option.some.inj h)).symm
  | cons i is => cases i <;> simp [answer, replay, tellIn, told] at h

/-- What throws answers nothing else. -/
theorem answer_throw {e : ε} : answer (.throw e : Prog δ ω ι ε β) d is ≠ some (.ok b) := by
  cases is with
  | nil => simp [answer, replay, ending]
  | cons i is => cases i <;> simp [answer, replay, tellIn, told]

/-- A query that runs answers what comes after it. -/
theorem answer_query_run (f : View δ → ι → α) (g : α → Prog δ ω ι ε β) (i : ι) :
    answer ((query f).bind g) d (.ok i :: is) = answer (g (f (still d) i)) d is := rfl

/-- A query answers only after it has run. -/
theorem answer_query_bind {f : View δ → ι → α} {g : α → Prog δ ω ι ε β}
    (h : answer ((query f).bind g) d is = some (.ok b)) :
    ∃ i rest, is = .ok i :: rest ∧ answer (g (f (still d) i)) d rest = some (.ok b) := by
  cases is with
  | nil => simp [answer, replay, query, Prog.bind, ending] at h
  | cons i is =>
    cases i with
    | ok i => exact ⟨i, is, rfl, h⟩
    | error e => exact absurd h answer_throw

/-- So does a statement that writes. -/
theorem answer_exec_bind {ws : View δ → ι → List ω} {f : View δ → ι → α} {g : α → Prog δ ω ι ε β}
    (h : answer ((exec ws f).bind g) d is = some (.ok b)) :
    ∃ i rest, is = .ok i :: rest ∧ answer (g (f (still d) i)) d rest = some (.ok b) := by
  cases is with
  | nil => simp [answer, replay, exec, Prog.bind, ending] at h
  | cons i is =>
    cases i with
    | ok i => exact ⟨i, is, rfl, h⟩
    | error e => exact absurd h answer_throw

end Answers

variable (d₁ d₂ : δ)

/-- Every statement that the program comes to makes the same of both states. -/
def Alike : Prog δ ω ι ε α → Prop
  | .done _ => True
  | .throw _ => True
  | .begin _ k err => Alike k ∧ ∀ e, Alike (err e)
  | .stmt _ k err =>
    (∀ i, k (still d₁) i = k (still d₂) i ∧ Alike (k (still d₁) i)) ∧ ∀ e, Alike (err e)
  | .commit k err => Alike k ∧ ∀ e, Alike (err e)
  | .rollback k => Alike k

section Rules

variable {d₁ d₂}

theorem alike_bind {p : Prog δ ω ι ε α} {f : α → Prog δ ω ι ε β} (hp : Alike d₁ d₂ p)
    (hf : ∀ a, Alike d₁ d₂ (f a)) : Alike d₁ d₂ (p.bind f) := by
  induction p with
  | done a => exact hf a
  | throw e => trivial
  | begin ser k err ihk ihe => exact ⟨ihk hp.1, fun e => ihe e (hp.2 e)⟩
  | stmt ws k err ihk ihe =>
    refine ⟨fun i => ⟨?_, ihk _ i (hp.1 i).2⟩, fun e => ihe e (hp.2 e)⟩
    exact congrArg (·.bind f) (hp.1 i).1
  | commit k err ihk ihe => exact ⟨ihk hp.1, fun e => ihe e (hp.2 e)⟩
  | rollback k ihk => exact ihk hp

theorem alike_tryCatch {p : Prog δ ω ι ε α} {h : ε → Prog δ ω ι ε α} (hp : Alike d₁ d₂ p)
    (hh : ∀ e, Alike d₁ d₂ (h e)) : Alike d₁ d₂ (p.tryCatch h) := by
  induction p with
  | done a => trivial
  | throw e => exact hh e
  | begin ser k err ihk ihe => exact ⟨ihk hp.1, fun e => ihe e (hp.2 e)⟩
  | stmt ws k err ihk ihe =>
    refine ⟨fun i => ⟨?_, ihk _ i (hp.1 i).2⟩, fun e => ihe e (hp.2 e)⟩
    exact congrArg (·.tryCatch h) (hp.1 i).1
  | commit k err ihk ihe => exact ⟨ihk hp.1, fun e => ihe e (hp.2 e)⟩
  | rollback k ihk => exact ihk hp

/-- A computed result, and the code that uses it. -/
theorem alike_ofExcept_bind {r : Except ε α} {f : α → Prog δ ω ι ε β}
    (hf : ∀ a, r = .ok a → Alike d₁ d₂ (f a)) : Alike d₁ d₂ ((ofExcept r).bind f) := by
  cases r with
  | ok a => exact hf a rfl
  | error e => trivial

/-- A query that finds the same in both states, and the code that uses it. -/
theorem alike_query_bind {f : View δ → ι → α} {g : α → Prog δ ω ι ε β}
    (hf : ∀ i, f (still d₁) i = f (still d₂) i) (hg : ∀ i, Alike d₁ d₂ (g (f (still d₁) i))) :
    Alike d₁ d₂ ((query f).bind g) :=
  ⟨fun i => ⟨congrArg g (hf i), hg i⟩, fun _ => trivial⟩

theorem alike_query {f : View δ → ι → α} (hf : ∀ i, f (still d₁) i = f (still d₂) i) :
    Alike d₁ d₂ (query f : Prog δ ω ι ε α) :=
  ⟨fun i => ⟨congrArg Prog.done (hf i), trivial⟩, fun _ => trivial⟩

/-- A program that reads two states alike is left with the same in both. -/
theorem replay_alike {p : Prog δ ω ι ε α} (h : Alike d₁ d₂ p) (is : List (Except ε ι)) :
    replay p (is.map (tellIn (still d₁))) = replay p (is.map (tellIn (still d₂))) := by
  induction is generalizing p with
  | nil => rfl
  | cons i is ih =>
    simp only [List.map_cons, replay]
    cases p with
    | done a => rfl
    | throw e => rfl
    | begin ser k err =>
      cases i with
      | ok i => exact ih h.1
      | error e => exact ih (h.2 e)
    | stmt ws k err =>
      cases i with
      | ok i =>
        simp only [tellIn, told, Option.bind_some]
        rw [← (h.1 i).1]
        exact ih (h.1 i).2
      | error e => exact ih (h.2 e)
    | commit k err =>
      cases i with
      | ok i => exact ih h.1
      | error e => exact ih (h.2 e)
    | rollback k =>
      cases i with
      | ok i => exact ih h
      | error e => rfl

/-- So it ends in the same way. -/
theorem answer_alike {p : Prog δ ω ι ε α} (h : Alike d₁ d₂ p) (is : List (Except ε ι)) :
    answer p d₁ is = answer p d₂ is :=
  congrArg (·.bind ending) (replay_alike h is)

end Rules

end LpPlatform.TwoStates
