import LpPlatform.StepRuns

/-!
# Facts that a script keeps and gives

A script is a list of statements, each of which may fail. For every statement
it is said which facts about the state it keeps and which it gives, so the
facts that hold at a point of the script are computed from its text. A script runs as a whole, or one statement after the other while others
act on the state. As long as the others keep every fact, the facts computed for
a point hold whenever the script is there, and what needs only some of them
holds at every moment. Nothing here depends on what the state or the statements
are.
-/

namespace LpPlatform.ScriptFacts

open StepRuns

variable {σ α φ ι : Type}

/-- What the statements of scripts do, and what is said of them. -/
structure Analysis (σ α φ : Type) where
  exec : σ → α → Option σ
  Holds : φ → σ → Prop
  /-- The statement leaves the fact true. -/
  keeps : α → φ → Bool
  /-- The statement makes the fact true. -/
  gives : α → φ → Bool

/-- All statements of a script in order, or none. -/
def perform (D : Analysis σ α φ) : σ → List α → Option σ
  | s, [] => some s
  | s, a :: rest => (D.exec s a).bind fun next => perform D next rest

/-- The facts that hold after a statement. -/
def after (D : Analysis σ α φ) (a : α) (A : φ → Bool) (f : φ) : Bool :=
  D.gives a f || (D.keeps a f && A f)

/-- The facts that hold after a script. -/
def known (D : Analysis σ α φ) (script : List α) (A : φ → Bool) : φ → Bool :=
  script.foldl (fun A a => after D a A) A

/-- The facts that are listed. -/
def listed [DecidableEq φ] (fs : List φ) (f : φ) : Bool := decide (f ∈ fs)

/-- At every point of the script the facts that hold are enough, and after it
all of them hold. -/
def check (D : Analysis σ α φ) (enough : (φ → Bool) → Bool) (full : List φ) : (φ → Bool) → List α → Bool
  | A, [] => enough A && full.all A
  | A, a :: rest => enough A && check D enough full (after D a A) rest

/-- The script takes no fact away for good. -/
def carries [DecidableEq φ] (D : Analysis σ α φ) (full : List φ) (script : List α) : Bool :=
  full.all fun f => known D script (listed [f]) f

/-- The facts hold in the state. -/
def Known (D : Analysis σ α φ) (A : φ → Bool) (s : σ) : Prop := ∀ f, A f = true → D.Holds f s

/-- What is said of the statements is so, as long as they are allowed and start
where the invariant holds. -/
structure Sound (D : Analysis σ α φ) (I : σ → Prop) (allowed : α → Prop) : Prop where
  invariant : ∀ {s a s'}, I s → allowed a → D.exec s a = some s' → I s'
  keeps : ∀ {s a s' f}, I s → allowed a → D.exec s a = some s' → D.keeps a f = true → D.Holds f s →
    D.Holds f s'
  gives : ∀ {s a s' f}, I s → allowed a → D.exec s a = some s' → D.gives a f = true → D.Holds f s'

section Scripts

variable {D : Analysis σ α φ} {I : σ → Prop} {allowed : α → Prop} {A : φ → Bool} {s s' : σ}

theorem known_after (h : Sound D I allowed) {a : α} (hi : I s) (ha : allowed a)
    (hexec : D.exec s a = some s') (hs : Known D A s) : Known D (after D a A) s' := by
  intro f hf
  rcases Bool.or_eq_true_iff.mp hf with hgiven | hkept
  · exact h.gives hi ha hexec hgiven
  · obtain ⟨hkeeps, hheld⟩ := Bool.and_eq_true_iff.mp hkept
    exact h.keeps hi ha hexec hkeeps (hs f hheld)

/-- After a script that was not stopped. -/
theorem known_perform (h : Sound D I allowed) {script : List α} (hallowed : ∀ a ∈ script, allowed a)
    (hi : I s) (hs : Known D A s) (hexec : perform D s script = some s') :
    I s' ∧ Known D (known D script A) s' := by
  induction script generalizing s A with
  | nil =>
    obtain rfl : s = s' := Option.some.inj hexec
    exact ⟨hi, hs⟩
  | cons a script ih =>
    obtain ⟨next, hnext, hrest⟩ := Option.bind_eq_some_iff.mp hexec
    have ha : allowed a := hallowed a (by simp)
    exact ih (fun b hb => hallowed b (by simp [hb])) (h.invariant hi ha hnext)
      (known_after h hi ha hnext hs) hrest

/-- Every fact that holds before a script that carries it holds after it. -/
theorem holds_perform [DecidableEq φ] (h : Sound D I allowed) {script : List α} {full : List φ}
    (hallowed : ∀ a ∈ script, allowed a) (hcarries : carries D full script = true) (hi : I s)
    (hexec : perform D s script = some s') {f : φ} (hmem : f ∈ full) (hf : D.Holds f s) :
    D.Holds f s' := by
  have hone : Known D (listed [f]) s := by
    intro g hg
    obtain rfl : g = f := List.mem_singleton.mp (of_decide_eq_true hg)
    exact hf
  exact (known_perform h hallowed hi hone hexec).2 f (List.all_eq_true.mp hcarries f hmem)

/-- A relation that every allowed statement respects is respected by a
script. -/
theorem perform_respects {R : σ → σ → Prop} (hrefl : ∀ s, R s s)
    (htrans : ∀ {s t u}, R s t → R t u → R s u) (h : Sound D I allowed)
    (hstep : ∀ {s a s'}, I s → allowed a → D.exec s a = some s' → R s s') {script : List α}
    (hallowed : ∀ a ∈ script, allowed a) (hi : I s) (hexec : perform D s script = some s') : R s s' := by
  induction script generalizing s with
  | nil =>
    obtain rfl : s = s' := Option.some.inj hexec
    exact hrefl s
  | cons a script ih =>
    obtain ⟨next, hnext, hrest⟩ := Option.bind_eq_some_iff.mp hexec
    have ha : allowed a := hallowed a (by simp)
    exact htrans (hstep hi ha hnext) (ih (fun b hb => hallowed b (by simp [hb])) (h.invariant hi ha hnext) hrest)

theorem enough_of_check {enough : (φ → Bool) → Bool} {full : List φ} {rest : List α} (h : check D enough full A rest = true) :
    enough A = true := by
  cases rest with
  | nil => exact (Bool.and_eq_true_iff.mp h).1
  | cons a rest => exact (Bool.and_eq_true_iff.mp h).1

end Scripts

/-- Where the one who runs a script statement by statement stands. -/
inductive Session (α : Type) where
  | idle
  | running (rest : List α)
  /-- A statement has failed, and the script was left there. -/
  | stopped

/-- What can happen next. -/
inductive Turn (ι α : Type) where
  | other (i : ι)
  /-- A script as a whole, in one transaction. -/
  | whole (script : List α)
  | start (script : List α)
  | next

/-- One thing that happens. -/
def step (D : Analysis σ α φ) (other : σ → ι → σ) : σ × Session α → Turn ι α → Option (σ × Session α)
  | (s, session), .other i => some (other s i, session)
  | (s, session), .whole script => some ((perform D s script).getD s, session)
  | (s, .idle), .start script => some (s, .running script)
  | (s, .running []), .next => some (s, .idle)
  | (s, .running (a :: rest)), .next =>
    match D.exec s a with
    | some next => some (next, .running rest)
    | none => some (s, .stopped)
  | _, _ => none

/-- The scripts that are run have been looked through. -/
def Approved [DecidableEq φ] (D : Analysis σ α φ) (allowed : α → Prop) (enough : (φ → Bool) → Bool)
    (full : List φ) : Turn ι α → Prop
  | .whole script => (∀ a ∈ script, allowed a) ∧ carries D full script = true
  | .start script => (∀ a ∈ script, allowed a) ∧ check D enough full (listed full) script = true
  | _ => True

/-- What is known where a session stands. -/
def Standing [DecidableEq φ] (D : Analysis σ α φ) (allowed : α → Prop) (enough : (φ → Bool) → Bool)
    (full : List φ) (s : σ) : Session α → Prop
  | .idle => Known D (listed full) s
  | .running rest => (∀ a ∈ rest, allowed a) ∧ ∃ A, Known D A s ∧ check D enough full A rest = true
  | .stopped => ∃ A, Known D A s ∧ enough A = true

section Interleavings

variable [DecidableEq φ] {D : Analysis σ α φ} {I : σ → Prop} {allowed : α → Prop}
variable {enough : (φ → Bool) → Bool} {full : List φ} {other : σ → ι → σ} {R : σ → σ → Prop}
variable {s : σ} {session : Session α}

/-- Wherever a session stands, what is known is enough. -/
theorem standing_enough (hfull : enough (listed full) = true)
    (h : Standing D allowed enough full s session) : ∃ A, Known D A s ∧ enough A = true := by
  cases session with
  | idle => exact ⟨listed full, h, hfull⟩
  | running rest =>
    obtain ⟨-, A, hknown, hcheck⟩ := h
    exact ⟨A, hknown, enough_of_check hcheck⟩
  | stopped => exact h

/-- What keeps the facts leaves a session where it stands. -/
theorem standing_of_facts {s' : σ} (hfacts : ∀ f, D.Holds f s → D.Holds f s')
    (h : Standing D allowed enough full s session) : Standing D allowed enough full s' session := by
  cases session with
  | idle => exact fun f hf => hfacts f (h f hf)
  | running rest =>
    obtain ⟨hallowed, A, hs, hcheck⟩ := h
    exact ⟨hallowed, A, fun f hf => hfacts f (hs f hf), hcheck⟩
  | stopped =>
    obtain ⟨A, hs, henough⟩ := h
    exact ⟨A, fun f hf => hfacts f (hs f hf), henough⟩

/-- A statement of a running script leads to where the script then stands. -/
theorem standing_next (h : Sound D I allowed) {a : α} {rest : List α} {s' : σ} (hi : I s)
    (hs : Standing D allowed enough full s (.running (a :: rest))) (hexec : D.exec s a = some s') :
    Standing D allowed enough full s' (.running rest) := by
  obtain ⟨hallowed, A, hknown, hcheck⟩ := hs
  exact ⟨fun b hb => hallowed b (by simp [hb]), after D a A,
    known_after h hi (hallowed a (by simp)) hexec hknown, (Bool.and_eq_true_iff.mp hcheck).2⟩

/-- A script that has come to its end has given all facts. -/
theorem standing_end (hs : Standing D allowed enough full s (.running [])) :
    Standing D allowed enough full s .idle := by
  obtain ⟨-, A, hknown, hcheck⟩ := hs
  obtain ⟨-, hall⟩ := Bool.and_eq_true_iff.mp hcheck
  intro f hf
  exact hknown f (List.all_eq_true.mp hall f (of_decide_eq_true hf))

/-- Whatever happens between the statements of approved scripts, one after the
other or as a whole, a relation that all respect holds from the start on. -/
theorem respected (h : Sound D I allowed) (hall : ∀ f, f ∈ full) (hfull : enough (listed full) = true)
    (hrefl : ∀ s, R s s) (htrans : ∀ {s t u}, R s t → R t u → R s u)
    (hstep : ∀ {s a s'}, I s → allowed a → D.exec s a = some s' → R s s')
    (hother : ∀ {s A} i, I s → Known D A s → enough A = true →
      I (other s i) ∧ (∀ f, D.Holds f s → D.Holds f (other s i)) ∧ R s (other s i))
    (hi : I s) (hs : ∀ f, D.Holds f s) {turns : List (Turn ι α)}
    (hturns : ∀ t ∈ turns, Approved D allowed enough full t) {w : σ × Session α}
    (hvisit : Visits (step D other) (s, .idle) turns w) :
    I w.1 ∧ R s w.1 ∧ Standing D allowed enough full w.1 w.2 := by
  have hidle : Standing D allowed enough full s .idle := fun f _ => hs f
  refine visits_invariant (C := fun _ t => Approved D allowed enough full t)
    (I := fun w => I w.1 ∧ R s w.1 ∧ Standing D allowed enough full w.1 w.2) ?_ ⟨hi, hrefl s, hidle⟩
    ((along_iff_takes _ _).mpr fun _ t _ htakes => hturns t (takes_mem htakes)) hvisit
  rintro ⟨u, session⟩ turn ⟨u', session'⟩ ⟨hiu, hru, hstand⟩ hok htaken
  cases turn with
  | other i =>
    obtain ⟨rfl, rfl⟩ : other u i = u' ∧ session = session' := by simpa [step] using htaken
    obtain ⟨A, hknown, henough⟩ := standing_enough hfull hstand
    obtain ⟨hi', hfacts, hr⟩ := hother i hiu hknown henough
    exact ⟨hi', htrans hru hr, standing_of_facts hfacts hstand⟩
  | whole script =>
    obtain ⟨rfl, rfl⟩ : (perform D u script).getD u = u' ∧ session = session' := by simpa [step] using htaken
    obtain ⟨hallowed, hcarries⟩ := hok
    cases hexec : perform D u script with
    | none => exact ⟨hiu, hru, hstand⟩
    | some v =>
      have hfacts : ∀ f, D.Holds f u → D.Holds f v := fun f hf =>
        holds_perform h hallowed hcarries hiu hexec (hall f) hf
      have hr : R u v := perform_respects hrefl htrans h hstep hallowed hiu hexec
      have hiv : I v := (known_perform (A := fun _ => false) h hallowed hiu (by simp [Known]) hexec).1
      exact ⟨hiv, htrans hru hr, standing_of_facts hfacts hstand⟩
  | start script =>
    cases session with
    | idle =>
      obtain ⟨rfl, rfl⟩ : u = u' ∧ Session.running script = session' := by simpa [step] using htaken
      exact ⟨hiu, hru, hok.1, listed full, hstand, hok.2⟩
    | running rest => simp [step] at htaken
    | stopped => simp [step] at htaken
  | next =>
    cases session with
    | idle => simp [step] at htaken
    | stopped => simp [step] at htaken
    | running rest =>
      cases rest with
      | nil =>
        obtain ⟨rfl, rfl⟩ : u = u' ∧ Session.idle = session' := by simpa [step] using htaken
        exact ⟨hiu, hru, standing_end hstand⟩
      | cons a rest =>
        have ha : allowed a := hstand.1 a (by simp)
        cases hexec : D.exec u a with
        | none =>
          obtain ⟨rfl, rfl⟩ : u = u' ∧ Session.stopped = session' := by simpa [step, hexec] using htaken
          exact ⟨hiu, hru, standing_enough hfull hstand⟩
        | some v =>
          obtain ⟨rfl, rfl⟩ : v = u' ∧ Session.running rest = session' := by simpa [step, hexec] using htaken
          exact ⟨h.invariant hiu ha hexec, htrans hru (hstep hiu ha hexec), standing_next h hiu hstand hexec⟩

end Interleavings

end LpPlatform.ScriptFacts
