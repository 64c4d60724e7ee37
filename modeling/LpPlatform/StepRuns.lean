import Mathlib.Data.List.Induction

/-!
# Runs of a labelled step function

A partial step function is followed along a list of events. A run stops at
the first event that is not enabled, so every prefix of a run is a run of its
own and the states visited are the ends of the prefixes. Conditions on single
steps are collected along the run, and an invariant kept by every conditioned
step holds in every state visited. Nothing here depends on what the states
or the events are.
-/

namespace LpPlatform.StepRuns

variable {σ ε : Type} {step : σ → ε → Option σ}

/-- Follow the events in order, failing at the first one not enabled. -/
def run (step : σ → ε → Option σ) : σ → List ε → Option σ
  | s, [] => some s
  | s, e :: es => (step s e).bind fun next => run step next es

/-- Every event taken along the run meets the condition in the state it is
taken in. Events after the first one that is not enabled are never taken. -/
def Along (step : σ → ε → Option σ) (C : σ → ε → Prop) : σ → List ε → Prop
  | _, [] => True
  | s, e :: es =>
    match step s e with
    | none => True
    | some next => C s e ∧ Along step C next es

instance decidableAlong (C : σ → ε → Prop) [∀ s e, Decidable (C s e)] (s : σ) (es : List ε) :
    Decidable (Along step C s es) :=
  match es with
  | [] => isTrue trivial
  | e :: es =>
    match hs : step s e with
    | none => isTrue (by simp [Along, hs])
    | some next =>
      match decidableAlong C next es with
      | isTrue hrest => decidable_of_iff (C s e) (by simp [Along, hs, hrest])
      | isFalse hrest => isFalse (by simp [Along, hs, hrest])

/-- The state is reached after some prefix of the events. -/
def Visits (step : σ → ε → Option σ) (s : σ) (es : List ε) (t : σ) : Prop :=
  ∃ front back, es = front ++ back ∧ run step s front = some t

/-- The run takes event e in state t and arrives in u. -/
def Takes (step : σ → ε → Option σ) (s : σ) (es : List ε) (t : σ) (e : ε) (u : σ) : Prop :=
  ∃ front back, es = front ++ e :: back ∧ run step s front = some t ∧ step t e = some u

@[simp] theorem run_nil (s : σ) : run step s [] = some s := rfl

@[simp] theorem run_cons (s : σ) (e : ε) (es : List ε) :
    run step s (e :: es) = (step s e).bind fun next => run step next es := rfl

theorem run_append (s : σ) (front back : List ε) :
    run step s (front ++ back) = (run step s front).bind fun t => run step t back := by
  induction front generalizing s with
  | nil => rfl
  | cons e front ih =>
    cases hs : step s e with
    | none => simp [hs]
    | some next => simpa [hs] using ih next

/-- A run that ends in a state that passes a check. -/
theorem run_reaches (step : σ → ε → Option σ) (s : σ) (es : List ε) (check : σ → Bool)
    (h : (run step s es).any check = true) : ∃ t, run step s es = some t ∧ check t = true := by
  cases hrun : run step s es with
  | none => simp [hrun] at h
  | some t => exact ⟨t, rfl, by simpa [hrun] using h⟩

theorem visits_last {s t : σ} {es : List ε} (h : run step s es = some t) : Visits step s es t :=
  ⟨es, [], by simp, h⟩

theorem takes_before {s t u : σ} {es : List ε} {e : ε} (h : Takes step s es t e u) :
    Visits step s es t := by
  obtain ⟨front, back, he, hf, _⟩ := h
  exact ⟨front, e :: back, he, hf⟩

theorem takes_after {s t u : σ} {es : List ε} {e : ε} (h : Takes step s es t e u) :
    Visits step s es u := by
  obtain ⟨front, back, he, hf, hs⟩ := h
  exact ⟨front ++ [e], back, by simp [he], by simp [run_append, hf, hs]⟩

theorem takes_step {s t u : σ} {es : List ε} {e : ε} (h : Takes step s es t e u) :
    step t e = some u := by
  obtain ⟨_, _, _, _, hs⟩ := h
  exact hs

/-- The steps of a run are steps of every longer run. -/
theorem takes_front {s t u : σ} {front back : List ε} {e : ε} (h : Takes step s front t e u) :
    Takes step s (front ++ back) t e u := by
  obtain ⟨before, after, he, hf, hs⟩ := h
  exact ⟨before, after ++ back, by simp [he], hf, hs⟩

/-- The steps a run takes are events of it. -/
theorem takes_mem {s t u : σ} {es : List ε} {e : ε} (h : Takes step s es t e u) : e ∈ es := by
  obtain ⟨front, back, he, _, _⟩ := h
  simp [he]

/-- A run that is never stopped takes all its events. -/
theorem mem_takes {s t : σ} {es : List ε} {e : ε} (hrun : run step s es = some t) (h : e ∈ es) :
    ∃ u u', Takes step s es u e u' := by
  obtain ⟨front, back, rfl⟩ := List.append_of_mem h
  rw [run_append] at hrun
  obtain ⟨u, hf, hrest⟩ := Option.bind_eq_some_iff.mp hrun
  obtain ⟨u', hs, -⟩ := Option.bind_eq_some_iff.mp hrest
  exact ⟨u, u', front, back, rfl, hf, hs⟩

/-- A visited state is the start, or is entered by a step taken on the way. -/
theorem visits_cons {s t : σ} {e : ε} {es : List ε} (h : Visits step s (e :: es) t) :
    t = s ∨ ∃ next, step s e = some next ∧ Visits step next es t := by
  obtain ⟨front, back, he, hf⟩ := h
  cases front with
  | nil => exact Or.inl (by simpa using hf.symm)
  | cons e' front =>
    obtain ⟨rfl, rfl⟩ := List.cons.inj he
    cases hs : step s e with
    | none => simp [hs] at hf
    | some next => exact Or.inr ⟨next, rfl, front, back, rfl, by simpa [hs] using hf⟩

/-- A step taken along a run is its first step or lies in the rest. -/
theorem takes_cons {s t u : σ} {e a : ε} {es : List ε} (h : Takes step s (e :: es) t a u) :
    (t = s ∧ a = e ∧ step s e = some u) ∨
      ∃ next, step s e = some next ∧ Takes step next es t a u := by
  obtain ⟨front, back, he, hf, hs⟩ := h
  cases front with
  | nil =>
    obtain ⟨rfl, rfl⟩ := List.cons.inj he
    obtain rfl : s = t := by simpa using hf
    exact Or.inl ⟨rfl, rfl, hs⟩
  | cons e' front =>
    obtain ⟨rfl, rfl⟩ := List.cons.inj he
    cases hn : step s e with
    | none => simp [hn] at hf
    | some next => exact Or.inr ⟨next, rfl, front, back, rfl, by simpa [hn] using hf, hs⟩

theorem takes_head {s u : σ} {e : ε} {es : List ε} (h : step s e = some u) :
    Takes step s (e :: es) s e u := ⟨[], es, rfl, rfl, h⟩

theorem takes_tail {s next t u : σ} {e a : ε} {es : List ε} (hs : step s e = some next)
    (h : Takes step next es t a u) : Takes step s (e :: es) t a u := by
  obtain ⟨front, back, he, hf, hu⟩ := h
  exact ⟨e :: front, back, by simp [he], by simpa [hs] using hf, hu⟩

/-- Of two steps taken along a run, one is taken after the other. -/
theorem takes_order {s t u t' u' : σ} {e e' : ε} {es : List ε} (h : Takes step s es t e u)
    (h' : Takes step s es t' e' u') :
    (∃ front back, es = front ++ e :: back ∧ run step s front = some t ∧ Takes step u back t' e' u') ∨
    (t = t' ∧ e = e') ∨
    ∃ front back, es = front ++ e' :: back ∧ run step s front = some t' ∧ Takes step u' back t e u := by
  obtain ⟨front, back, he, hf, hs⟩ := h
  obtain ⟨front', back', he', hf', hs'⟩ := h'
  rcases List.append_eq_append_iff.mp (he.symm.trans he') with ⟨mid, hfront, hmid⟩ | ⟨mid, hfront, hmid⟩
  · cases mid with
    | nil =>
      obtain ⟨rfl, rfl⟩ := List.cons.inj (by simpa using hmid)
      obtain rfl : front' = front := by simpa using hfront
      exact Or.inr (Or.inl ⟨Option.some.inj (hf.symm.trans hf'), rfl⟩)
    | cons a mid =>
      obtain ⟨rfl, hback⟩ := List.cons.inj hmid
      refine Or.inl ⟨front, back, he, hf, mid, back', hback, ?_, hs'⟩
      simpa [hfront, run_append, hf, hs] using hf'
  · cases mid with
    | nil =>
      obtain ⟨rfl, rfl⟩ := List.cons.inj (by simpa using hmid)
      obtain rfl : front = front' := by simpa using hfront
      exact Or.inr (Or.inl ⟨Option.some.inj (hf.symm.trans hf'), rfl⟩)
    | cons a mid =>
      obtain ⟨rfl, hback⟩ := List.cons.inj hmid
      refine Or.inr (Or.inr ⟨front', back', he', hf', mid, back, hback, ?_, hs⟩)
      simpa [hfront, run_append, hf', hs'] using hf

/-- A condition along a run is the condition at every step the run takes. -/
theorem along_iff_takes {C : σ → ε → Prop} (s : σ) (es : List ε) :
    Along step C s es ↔ ∀ t e u, Takes step s es t e u → C t e := by
  induction es generalizing s with
  | nil =>
    refine ⟨fun _ t e u h => ?_, fun _ => trivial⟩
    obtain ⟨front, back, he, _⟩ := h
    simp at he
  | cons e es ih =>
    cases hs : step s e with
    | none =>
      refine ⟨fun _ t a u h => ?_, fun _ => by simp [Along, hs]⟩
      rcases takes_cons h with ⟨_, _, hu⟩ | ⟨next, hn, _⟩
      · simp [hs] at hu
      · simp [hs] at hn
    | some next =>
      simp only [Along, hs, ih]
      constructor
      · rintro ⟨hc, hrest⟩ t a u h
        rcases takes_cons h with ⟨rfl, rfl, _⟩ | ⟨next', hn, ht⟩
        · exact hc
        · obtain rfl : next = next' := by simpa [hs] using hn
          exact hrest t a u ht
      · intro h
        exact ⟨h s e next (takes_head hs), fun t a u ht => h t a u (takes_tail hs ht)⟩

/-- A condition along a run holds along both parts of it. -/
theorem along_append {C : σ → ε → Prop} {s t : σ} {front back : List ε}
    (h : Along step C s (front ++ back)) (hf : run step s front = some t) :
    Along step C s front ∧ Along step C t back := by
  induction front generalizing s with
  | nil =>
    obtain rfl : s = t := by simpa using hf
    exact ⟨trivial, h⟩
  | cons e front ih =>
    cases hs : step s e with
    | none => simp [hs] at hf
    | some next =>
      simp only [List.cons_append, Along, hs] at h ⊢
      have hrest := ih h.2 (by simpa [hs] using hf)
      exact ⟨⟨h.1, hrest.1⟩, hrest.2⟩

/-- An invariant kept by every step that meets the condition holds in every
state visited by a run whose steps all meet it. -/
theorem visits_invariant {I : σ → Prop} {C : σ → ε → Prop}
    (hstep : ∀ s e s', I s → C s e → step s e = some s' → I s')
    {s t : σ} {es : List ε} (hs : I s) (hc : Along step C s es) (h : Visits step s es t) :
    I t := by
  induction es generalizing s with
  | nil =>
    obtain ⟨front, back, he, hf⟩ := h
    obtain ⟨rfl, rfl⟩ : front = [] ∧ back = [] := by simpa using he.symm
    obtain rfl : s = t := by simpa using hf
    exact hs
  | cons e es ih =>
    rcases visits_cons h with rfl | ⟨next, hn, hv⟩
    · exact hs
    · simp only [Along, hn] at hc
      exact ih (hstep _ _ _ hs hc.1 hn) hc.2 hv

/-- An invariant kept by every step holds in every state visited. -/
theorem visits_of_step {I : σ → Prop} (hstep : ∀ s e s', I s → step s e = some s' → I s')
    {s t : σ} {es : List ε} (hs : I s) (h : Visits step s es t) : I t :=
  visits_invariant (C := fun _ _ => True) (fun s e s' hi _ => hstep s e s' hi) hs
    ((along_iff_takes s es).mpr fun _ _ _ _ => trivial) h

/-- A property of a state and the events that led to it, kept by every step a
run takes, holds at the end of the run. -/
theorem run_invariant {I : σ → List ε → Prop} {s t : σ} {es : List ε} (hs : I s [])
    (hstep : ∀ front u e u', run step s front = some u → step u e = some u' →
      (∃ back, es = front ++ e :: back) → I u front → I u' (front ++ [e]))
    (hrun : run step s es = some t) : I t es := by
  have hprefix : ∀ front u, (∃ back, es = front ++ back) → run step s front = some u → I u front := by
    intro front
    induction front using List.reverseRecOn with
    | nil =>
      intro u _ hf
      obtain rfl : s = u := by simpa using hf
      exact hs
    | append_singleton front e ih =>
      rintro u ⟨back, hes⟩ hf
      rw [run_append] at hf
      obtain ⟨mid, hmid, hlast⟩ := Option.bind_eq_some_iff.mp hf
      have hlast : step mid e = some u := by simpa using hlast
      exact hstep front mid e u hmid hlast ⟨back, by simp [hes]⟩
        (ih mid ⟨e :: back, by simp [hes]⟩ hmid)
  exact hprefix es t ⟨[], by simp⟩ hrun

/-- A property that a run makes true is made true by one of its steps. -/
theorem takes_turning {P : σ → Prop} {s t : σ} {es : List ε} (hs : ¬ P s) (ht : P t)
    (h : Visits step s es t) : ∃ u e u', Takes step s es u e u' ∧ ¬ P u ∧ P u' := by
  induction es generalizing s with
  | nil =>
    obtain ⟨front, back, he, hf⟩ := h
    obtain ⟨rfl, rfl⟩ : front = [] ∧ back = [] := by simpa using he.symm
    obtain rfl : s = t := by simpa using hf
    exact absurd ht hs
  | cons e es ih =>
    rcases visits_cons h with rfl | ⟨next, hn, hv⟩
    · exact absurd ht hs
    · by_cases hnext : P next
      · exact ⟨s, e, next, takes_head hn, hs, hnext⟩
      · obtain ⟨u, a, u', htakes, hu, hu'⟩ := ih hnext hv
        exact ⟨u, a, u', takes_tail hn htakes, hu, hu'⟩

end LpPlatform.StepRuns
