import LpPlatform.SessionTrails

/-!
# Replaying what a session has seen

Each step of a session tells its program the view and the input that a
statement ran with, or the error it failed with. A program is determined by
what it is told, so what is left of a session's program is a replay: the
program it was started with, told everything the session has seen. Replaying a
part of a program gives the one result that this part has returned.
-/

namespace LpPlatform.SessionReplays

open RowStore SessionTrails Sessions StatementProgram StatementWrites StepRuns

variable {δ ω κ ι ε α β β' γ : Type}

/-- What one step of a session tells its program. -/
inductive Seen (δ ι ε : Type) where
  | ran (view : View δ) (input : ι)
  | failed (error : ε)

/-- What is left of a program that is told what its next step has seen. -/
def told : Prog δ ω ι ε α → Seen δ ι ε → Option (Prog δ ω ι ε α)
  | .begin _ k _, .ran _ _ => some k
  | .begin _ _ err, .failed e => some (err e)
  | .stmt _ k _, .ran v i => some (k v i)
  | .stmt _ _ err, .failed e => some (err e)
  | .commit k _, .ran _ _ => some k
  | .commit _ err, .failed e => some (err e)
  | .rollback k, .ran _ _ => some k
  | _, _ => none

/-- What is left of a program that is told all of this. -/
def replay (p : Prog δ ω ι ε α) : List (Seen δ ι ε) → Option (Prog δ ω ι ε α)
  | [] => some p
  | o :: os => (told p o).bind fun q => replay q os

/-- The writes of a statement that is told that it has run. -/
def issues : Prog δ ω ι ε α → Seen δ ι ε → List ω
  | .stmt ws _ _, .ran v i => ws v i
  | _, _ => []

/-- The writes that a program issues while it is told all of this. -/
def issued (p : Prog δ ω ι ε α) : List (Seen δ ι ε) → List ω
  | [] => []
  | o :: os => issues p o ++ ((told p o).map fun q => issued q os).getD []

/-- Told some of this, the program has returned the result. -/
def Returns (p : Prog δ ω ι ε α) (os : List (Seen δ ι ε)) (a : α) : Prop :=
  ∃ front back, os = front ++ back ∧ replay p front = some (.done a)

section Programs

variable {p q : Prog δ ω ι ε α} {os : List (Seen δ ι ε)}

theorem replay_append (p : Prog δ ω ι ε α) (front back : List (Seen δ ι ε)) :
    replay p (front ++ back) = (replay p front).bind fun q => replay q back := by
  induction front generalizing p with
  | nil => rfl
  | cons o front ih =>
    simp only [List.cons_append, replay, Option.bind_assoc]
    exact Option.bind_congr fun q _ => ih q

theorem issued_append (h : replay p os = some q) (later : List (Seen δ ι ε)) :
    issued p (os ++ later) = issued p os ++ issued q later := by
  induction os generalizing p with
  | nil =>
    obtain rfl := Option.some.inj h
    rfl
  | cons o os ih =>
    obtain ⟨r, hr, hrest⟩ := Option.bind_eq_some_iff.mp h
    simp only [List.cons_append, issued, hr, Option.map_some, Option.getD_some, ih hrest,
      List.append_assoc]

/-- A result is told nothing more. -/
theorem replay_done {a : α} (h : replay (.done a) os = some q) : os = [] ∧ q = .done a := by
  cases os with
  | nil => exact ⟨rfl, (Option.some.inj h).symm⟩
  | cons o os => simp [replay, told] at h

/-- Neither is an exception. -/
theorem replay_throw {e : ε} (h : replay (.throw e) os = some q) : os = [] ∧ q = .throw e := by
  cases os with
  | nil => exact ⟨rfl, (Option.some.inj h).symm⟩
  | cons o os => simp [replay, told] at h

/-- A program returns once. -/
theorem returns_unique {a b : α} (ha : Returns p os a) (hb : Returns p os b) : a = b := by
  have hlater : ∀ {first mid : List (Seen δ ι ε)} {a b : α}, replay p first = some (.done a) →
      replay p (first ++ mid) = some (.done b) → a = b := by
    intro first mid a b ha hb
    rw [replay_append, ha, Option.bind_some] at hb
    exact (Prog.done.inj (replay_done hb).2).symm
  obtain ⟨first, rest, rfl, ha⟩ := ha
  obtain ⟨first', rest', heq, hb⟩ := hb
  rcases List.append_eq_append_iff.mp heq with ⟨mid, rfl, -⟩ | ⟨mid, rfl, -⟩
  · exact hlater ha hb
  · exact (hlater hb ha).symm

/-- A program and the code that uses its result: it is still running, or it has
returned and the rest was told to the code. -/
theorem replay_bind {p : Prog δ ω ι ε β} {f : β → Prog δ ω ι ε β'} {q : Prog δ ω ι ε β'}
    (h : replay (p.bind f) os = some q) :
    (∃ p', replay p os = some p' ∧ q = p'.bind f) ∨ ∃ b front back, os = front ++ back ∧
      replay p front = some (.done b) ∧ replay (f b) back = some q := by
  induction os generalizing p with
  | nil => exact Or.inl ⟨p, rfl, (Option.some.inj h).symm⟩
  | cons o os ih =>
    have hnext : ∀ {p' : Prog δ ω ι ε β}, told p o = some p' → replay (p'.bind f) os = some q →
        (∃ p', replay p (o :: os) = some p' ∧ q = p'.bind f) ∨ ∃ b front back,
          o :: os = front ++ back ∧ replay p front = some (.done b) ∧ replay (f b) back = some q := by
      intro p' hp' hrest
      rcases ih hrest with ⟨r, hr, hq⟩ | ⟨b, front, back, rfl, hb, hq⟩
      · exact Or.inl ⟨r, by rw [replay, hp', Option.bind_some, hr], hq⟩
      · exact Or.inr ⟨b, o :: front, back, rfl, by rw [replay, hp', Option.bind_some, hb], hq⟩
    cases p with
    | done b => exact Or.inr ⟨b, [], o :: os, rfl, rfl, h⟩
    | throw e => simp [Prog.bind, replay, told] at h
    | begin ser k err => cases o <;> exact hnext rfl h
    | stmt ws k err => cases o <;> exact hnext rfl h
    | commit k err => cases o <;> exact hnext rfl h
    | rollback k =>
      cases o with
      | ran v i => exact hnext rfl h
      | failed e => simp [Prog.bind, replay, told] at h

/-- A program that has returned after another one. -/
theorem replay_bind_done {p : Prog δ ω ι ε β} {f : β → Prog δ ω ι ε β'} {c : β'}
    (h : replay (p.bind f) os = some (.done c)) : ∃ b front back, os = front ++ back ∧
      replay p front = some (.done b) ∧ replay (f b) back = some (.done c) := by
  rcases replay_bind h with ⟨p', hp', heq⟩ | hafter
  · cases p' with
    | done b => exact ⟨b, os, [], (List.append_nil os).symm, hp', by rw [replay, heq]; rfl⟩
    | _ => simp [Prog.bind] at heq
  · exact hafter

/-- A statement of two programs belongs to one of them. -/
theorem replay_bind_stmt {p : Prog δ ω ι ε β} {f : β → Prog δ ω ι ε β'} {ws : View δ → ι → List ω}
    {k : View δ → ι → Prog δ ω ι ε β'} {err : ε → Prog δ ω ι ε β'}
    (h : replay (p.bind f) os = some (.stmt ws k err)) :
    (∃ k' err', replay p os = some (.stmt ws k' err')) ∨ ∃ b front back, os = front ++ back ∧
      replay p front = some (.done b) ∧ replay (f b) back = some (.stmt ws k err) := by
  rcases replay_bind h with ⟨p', hp', heq⟩ | hafter
  · cases p' with
    | done b => exact Or.inr ⟨b, os, [], (List.append_nil os).symm, hp', by rw [replay, heq]; rfl⟩
    | stmt ws' k' err' =>
      obtain ⟨rfl, -, -⟩ := Prog.stmt.inj heq
      exact Or.inl ⟨k', err', hp'⟩
    | _ => simp [Prog.bind] at heq
  · exact Or.inr hafter

/-- A program that returns after a query has used what the query found. -/
theorem replay_query_bind {f : View δ → ι → β} {g : β → Prog δ ω ι ε β'} {c : β'}
    (h : replay ((query f).bind g) os = some (.done c)) :
    ∃ v i rest, replay (g (f v i)) rest = some (.done c) := by
  cases os with
  | nil => simp [replay, query, Prog.bind] at h
  | cons o os =>
    cases o with
    | ran v i => exact ⟨v, i, os, h⟩
    | failed e => exact absurd (replay_throw h).2 (by simp)

/-- What is left of a program writes what the program may write. -/
theorem replay_writes {ok : ω → Prop} (hp : Writes (fun _ => True) ok p)
    (h : replay p os = some q) : Writes (fun _ => True) ok q := by
  induction os generalizing p with
  | nil => exact Option.some.inj h ▸ hp
  | cons o os ih =>
    obtain ⟨r, hr, hrest⟩ := Option.bind_eq_some_iff.mp h
    refine ih ?_ hrest
    cases p with
    | done a => simp [told] at hr
    | throw e => simp [told] at hr
    | begin ser k err =>
      cases o with
      | ran v i => exact Option.some.inj hr ▸ hp.1
      | failed e => exact Option.some.inj hr ▸ hp.2 e
    | stmt ws k err =>
      cases o with
      | ran v i => exact Option.some.inj hr ▸ (hp.1 v i trivial).2
      | failed e => exact Option.some.inj hr ▸ hp.2 e
    | commit k err =>
      cases o with
      | ran v i => exact Option.some.inj hr ▸ hp.1
      | failed e => exact Option.some.inj hr ▸ hp.2 e
    | rollback k =>
      cases o with
      | ran v i => exact Option.some.inj hr ▸ hp
      | failed e => simp [told] at hr

end Programs

variable (S : KeyedRows δ ω κ)

/-- What an event tells the program of a session. -/
def tells (t : ℕ) (w : World δ ω κ ι ε α) : Event γ ι ε → List (Seen δ ι ε)
  | .step u i =>
    if u = t then (w.sessions t).toList.map fun ses => .ran (w.view S t ses.txn) i else []
  | .fail u e => if u = t then [.failed e] else []
  | _ => []

variable [DecidableEq κ]

/-- What a session sees along a run. -/
def seen (program : γ → Prog δ ω ι ε α) (t : ℕ) :
    World δ ω κ ι ε α → List (Event γ ι ε) → List (Seen δ ι ε)
  | _, [] => []
  | w, e :: es =>
    match w.step S program e with
    | none => []
    | some w' => tells S t w e ++ seen program t w' es

/-- Along the run the session was started by the call. -/
def Started (program : γ → Prog δ ω ι ε α) (s : World δ ω κ ι ε α) (es : List (Event γ ι ε))
    (t : ℕ) (call : γ) : Prop :=
  ∃ u u', Takes (World.step S program) s es u (.start t call) u'

section Runs

variable {S}
variable {program : γ → Prog δ ω ι ε α} {s w w' : World δ ω κ ι ε α} {e : Event γ ι ε}
variable {front back es : List (Event γ ι ε)} {t : ℕ} {d : δ} {n : ℕ}

theorem seen_append (hf : run (World.step S program) s front = some w) :
    seen S program t s (front ++ back) = seen S program t s front ++ seen S program t w back := by
  induction front generalizing s with
  | nil =>
    obtain rfl : s = w := by simpa using hf
    rfl
  | cons e front ih =>
    cases hs : World.step S program s e with
    | none => simp [hs] at hf
    | some next =>
      have hrest := ih (s := next) (by simpa [hs] using hf)
      simp only [List.cons_append, seen, hs, hrest, List.append_assoc]

/-- What is seen with one event more. -/
theorem seen_snoc (hf : run (World.step S program) s front = some w)
    (hstep : World.step S program w e = some w') :
    seen S program t s (front ++ [e]) = seen S program t s front ++ tells S t w e := by
  rw [seen_append hf]
  simp [seen, hstep]

/-- An event leaves of a session what it tells its program. -/
theorem replay_step {ses : Session δ ω ι ε α} (hses : w.sessions t = some ses)
    (hstep : World.step S program w e = some w') : ∃ ses', w'.sessions t = some ses' ∧
      replay ses.prog (tells S t w e) = some ses'.prog ∧
      (AutoCommits ses.prog → ses.txn = none → AutoCommits ses'.prog ∧ ses'.txn = none) := by
  obtain ⟨ses', hses', hmove⟩ := session_move hses hstep
  refine ⟨ses', hses', ?_⟩
  generalize writesOf t (committed S w e) = written at hmove
  cases hmove with
  | opened => exact ⟨by simp [tells, hses, replay, told], fun h => h.elim⟩
  | auto => exact ⟨by simp [tells, hses, replay, told], fun h _ => ⟨h.1 _ _, rfl⟩⟩
  | held hrun => exact ⟨by simp [tells, hses, replay, told], fun _ h => by simp at h⟩
  | idle => exact ⟨by simp [tells, hses, replay, told], fun h => h.elim⟩
  | ended habort => exact ⟨by simp [tells, hses, replay, told], fun h => h.elim⟩
  | committed hrun => exact ⟨by simp [tells, hses, replay, told], fun h => h.elim⟩
  | rolledBack => exact ⟨by simp [tells, hses, replay, told], fun h => h.elim⟩
  | beginFailed => exact ⟨by simp [tells, replay, told], fun h => h.elim⟩
  | stmtFailed =>
    refine ⟨by simp [tells, replay, told], fun h htxn => ⟨h.2 _, ?_⟩⟩
    obtain rfl := htxn
    rfl
  | commitFailed => exact ⟨by simp [tells, replay, told], fun h => h.elim⟩
  | died => exact ⟨rfl, fun h _ => ⟨h, rfl⟩⟩
  | other ws hother =>
    have hnone : tells S t w e = [] := by
      cases e with
      | step u i => exact if_neg hother
      | fail u e => exact if_neg hother
      | start u call => rfl
      | crash u => rfl
    rw [hnone]
    refine ⟨rfl, fun h htxn => ⟨h, ?_⟩⟩
    rw [Session.note, htxn]
    rfl

/-- A session without transactions commits what its program issues. -/
theorem issued_step {ses : Session δ ω ι ε α} (hses : w.sessions t = some ses)
    (hstep : World.step S program w e = some w') (hauto : AutoCommits ses.prog)
    (htxn : ses.txn = none) :
    writesOf t (committed S w e) = issued ses.prog (tells S t w e) := by
  obtain ⟨ses', -, hmove⟩ := session_move hses hstep
  generalize writesOf t (committed S w e) = written at hmove
  cases hmove with
  | opened => exact hauto.elim
  | auto => simp [tells, hses, issued, issues, told]
  | held hrun => simp at htxn
  | idle => exact hauto.elim
  | ended habort => exact hauto.elim
  | committed hrun => exact hauto.elim
  | rolledBack => exact hauto.elim
  | beginFailed => exact hauto.elim
  | stmtFailed => simp [tells, issued, issues, told]
  | commitFailed => exact hauto.elim
  | died => rfl
  | other ws hother =>
    have hnone : tells S t w e = [] := by
      cases e with
      | step u i => exact if_neg hother
      | fail u e => exact if_neg hother
      | start u call => rfl
      | crash u => rfl
    rw [hnone]
    rfl

/-- What is known of a session that a call has started: what is left of its
program replays what it has seen. -/
structure Replayed (program : γ → Prog δ ω ι ε α) (s : World δ ω κ ι ε α) (es : List (Event γ ι ε))
    (t : ℕ) (call : γ) (ses : Session δ ω ι ε α) : Prop where
  started : Started S program s es t call
  left : replay (program call) (seen S program t s es) = some ses.prog
  auto : AutoCommits (program call) → AutoCommits ses.prog ∧ ses.txn = none

/-- After every run, what is left of a session replays what it has seen, and a
session without transactions has committed what its program has issued. -/
theorem issued_run (hrun : run (World.step S program) (World.initial d n) es = some w)
    {ses : Session δ ω ι ε α} (hses : w.sessions t = some ses) :
    ∃ call, Replayed (S := S) program (World.initial d n) es t call ses ∧
      (AutoCommits (program call) → writesOf t (history S program (World.initial d n) es) =
        issued (program call) (seen S program t (World.initial d n) es)) := by
  have hall : (w.sessions t = none → seen S program t (World.initial d n) es = [] ∧
        writesOf t (history S program (World.initial d n) es) = []) ∧
      ∀ ses, w.sessions t = some ses →
        ∃ call, Replayed (S := S) program (World.initial d n) es t call ses ∧
          (AutoCommits (program call) → writesOf t (history S program (World.initial d n) es) =
            issued (program call) (seen S program t (World.initial d n) es)) := by
    refine run_invariant (I := fun w front => (w.sessions t = none →
        seen S program t (World.initial d n) front = [] ∧
        writesOf t (history S program (World.initial d n) front) = []) ∧
        ∀ ses, w.sessions t = some ses →
        ∃ call, Replayed (S := S) program (World.initial d n) front t call ses ∧
          (AutoCommits (program call) → writesOf t (history S program (World.initial d n) front) =
            issued (program call) (seen S program t (World.initial d n) front)))
      ⟨fun _ => ⟨rfl, rfl⟩, fun ses h => by simp [World.initial] at h⟩ ?_ hrun
    rintro front u e u' hf hstep - ⟨hnone, hsome⟩
    have hseen := seen_snoc (t := t) hf hstep
    have hhistory := history_snoc hf hstep
    cases hu : u.sessions t with
    | none =>
      have hquiet : tells S t u e = [] := by
        cases step_cases S hstep with
        | start hnew => rfl
        | @step v i ses _ hv halive hadv =>
          refine if_neg ?_
          rintro rfl
          simp [hu] at hv
        | @fail v e ses _ hv halive hraise =>
          refine if_neg ?_
          rintro rfl
          simp [hu] at hv
        | crash hv halive => rfl
      have hunwritten : writesOf t (committed S u e) = [] := by
        cases step_cases S hstep with
        | start hnew => rfl
        | @step v i ses _ hv halive hadv =>
          refine writesOf_other fun hsame => ?_
          obtain rfl : v = t := hsame
          simp [hu] at hv
        | fail hv halive hraise => rfl
        | crash hv halive => rfl
      have hwritten : writesOf t (history S program (World.initial d n) (front ++ [e])) = [] := by
        rw [hhistory, writesOf_append, (hnone hu).2, hunwritten]
        rfl
      rw [hseen, (hnone hu).1, hquiet]
      refine ⟨fun _ => ⟨rfl, hwritten⟩, fun ses hses => ?_⟩
      obtain ⟨call, rfl⟩ := step_unstarted hstep hu (by simp [hses])
      have hnew : u'.sessions t = some ⟨program call, none, true⟩ := by
        cases step_cases S hstep with
        | start hnew => simp
      obtain rfl := Option.some.inj (hses.symm.trans hnew)
      refine ⟨call, ⟨⟨u, u', front, [], rfl, hf, hstep⟩, ?_, fun h => ⟨h, rfl⟩⟩, fun _ => hwritten⟩
      rw [hseen, (hnone hu).1]
      rfl
    | some old =>
      obtain ⟨call, hold, hissued⟩ := hsome old hu
      obtain ⟨ses', hses', hreplay, hauto⟩ := replay_step hu hstep
      refine ⟨fun h => by simp [hses'] at h, fun ses hses => ?_⟩
      obtain rfl := Option.some.inj (hses.symm.trans hses')
      obtain ⟨v, v', hstart⟩ := hold.started
      refine ⟨call, ⟨⟨v, v', takes_front hstart⟩, ?_, fun h => ?_⟩, fun h => ?_⟩
      · rw [hseen, replay_append, hold.left, Option.bind_some, hreplay]
      · exact hauto (hold.auto h).1 (hold.auto h).2
      · rw [hhistory, writesOf_append, hissued h,
          issued_step hu hstep (hold.auto h).1 (hold.auto h).2, hseen, issued_append hold.left]
  exact hall.2 ses hses

/-- After every run, what is left of a session replays what it has seen. -/
theorem replayed_run (hrun : run (World.step S program) (World.initial d n) es = some w)
    {ses : Session δ ω ι ε α} (hses : w.sessions t = some ses) :
    ∃ call, Replayed (S := S) program (World.initial d n) es t call ses := by
  obtain ⟨call, hcall, -⟩ := issued_run hrun hses
  exact ⟨call, hcall⟩

/-- A write of a session without transactions is one of a statement that its
program has come to. -/
theorem written_auto (hrun : run (World.step S program) (World.initial d n) es = some w) {x : ω}
    (hx : (t, x) ∈ history S program (World.initial d n) es) : ∃ call,
      Started S program (World.initial d n) es t call ∧ (AutoCommits (program call) →
        ∃ os later f k err v i, seen S program t (World.initial d n) es = os ++ later ∧
          replay (program call) os = some (.stmt f k err) ∧ x ∈ f v i) := by
  obtain ⟨u, e, u', htakes, hcommitted⟩ := mem_history.mp hx
  obtain ⟨ws, hc, hin⟩ := (mem_committed S).mp hcommitted
  have hwhole := htakes
  obtain ⟨front, back, rfl, hf, hstep⟩ := htakes
  obtain ⟨ses, hses⟩ := Option.isSome_iff_exists.mp (started_of_commit hc)
  obtain ⟨call, hcall⟩ := replayed_run hf hses
  obtain ⟨v, v', hstart⟩ := hcall.started
  refine ⟨call, ⟨v, v', takes_front hstart⟩, fun hauto => ?_⟩
  obtain ⟨i, rfl⟩ := step_of_commit hc
  obtain ⟨f, k, err, hprog, rfl⟩ := commit_auto S hses (hcall.auto hauto).2 hc
  refine ⟨_, seen S program t u (.step t i :: back), f, k, err, _, i, seen_append hf, ?_, hin⟩
  rw [hcall.left, hprog]

/-- A session has seen something once a step of its own has run. -/
theorem seen_split {s : World δ ω κ ι ε α} {es : List (Event γ ι ε)} {front back : List (Seen δ ι ε)}
    {v : View δ} {i : ι} (h : seen S program t s es = front ++ .ran v i :: back) :
    ∃ before u u' after ses, es = before ++ .step t i :: after ∧
      run (World.step S program) s before = some u ∧ u.step S program (.step t i) = some u' ∧
      u.sessions t = some ses ∧ v = u.view S t ses.txn ∧ seen S program t u' after = back := by
  induction es generalizing s front with
  | nil => simp [seen] at h
  | cons e es ih =>
    cases hs : World.step S program s e with
    | none => simp [seen, hs] at h
    | some next =>
      simp only [seen, hs] at h
      have hlater : ∀ {front'}, seen S program t next es = front' ++ .ran v i :: back →
          ∃ before u u' after ses, e :: es = before ++ .step t i :: after ∧
            run (World.step S program) s before = some u ∧ u.step S program (.step t i) = some u' ∧
            u.sessions t = some ses ∧ v = u.view S t ses.txn ∧ seen S program t u' after = back := by
        intro front' hrest
        obtain ⟨before, u, u', after, ses, rfl, hrun, hu⟩ := ih hrest
        exact ⟨e :: before, u, u', after, ses, rfl, by simpa [hs] using hrun, hu⟩
      cases e with
      | start x call => exact hlater h
      | crash x => exact hlater h
      | fail x error =>
        by_cases hx : x = t
        · simp only [tells, hx, if_true, List.singleton_append] at h
          cases front with
          | nil => simp at h
          | cons o front => exact hlater (List.cons.inj h).2
        · simp only [tells, hx, if_false, List.nil_append] at h
          exact hlater h
      | step x j =>
        by_cases hx : x = t
        · subst hx
          cases hses : s.sessions x with
          | none =>
            simp only [tells, if_true, hses, Option.toList_none, List.map_nil, List.nil_append] at h
            exact hlater h
          | some ses =>
            simp only [tells, if_true, hses, Option.toList_some, List.map_singleton,
              List.singleton_append] at h
            cases front with
            | nil =>
              obtain ⟨hhead, hrest⟩ := List.cons.inj h
              obtain ⟨rfl, rfl⟩ := Seen.ran.inj hhead
              exact ⟨[], s, next, es, ses, rfl, rfl, hs, hses, rfl, hrest⟩
            | cons o front => exact hlater (List.cons.inj h).2
        · simp only [tells, hx, if_false, List.nil_append] at h
          exact hlater h

/-- A program that returns after a query: the query has run in a world of the
run, and what follows it has seen the rest of the run. -/
theorem query_reads {s : World δ ω κ ι ε α} {es : List (Event γ ι ε)} {f : View δ → ι → β}
    {g : β → Prog δ ω ι ε β'} {c : β'}
    (h : replay ((query f).bind g) (seen S program t s es) = some (.done c)) :
    ∃ u u' i ses after, Visits (World.step S program) s es u ∧ u.sessions t = some ses ∧
      u.step S program (.step t i) = some u' ∧
      (∀ x, Visits (World.step S program) u' after x → Visits (World.step S program) s es x) ∧
      replay (g (f (u.view S t ses.txn) i)) (seen S program t u' after) = some (.done c) := by
  cases hseen : seen S program t s es with
  | nil =>
    rw [hseen] at h
    simp [replay, query, Prog.bind] at h
  | cons o os =>
    rw [hseen] at h
    cases o with
    | failed e => exact absurd (replay_throw h).2 (by simp)
    | ran v i =>
      have hsplit : seen S program t s es = [] ++ .ran v i :: os := hseen
      obtain ⟨before, u, u', after, ses, rfl, hrun, hstep, hses, rfl, hback⟩ := seen_split hsplit
      refine ⟨u, u', i, ses, after, ⟨before, _, rfl, hrun⟩, hses, hstep, ?_, hback ▸ h⟩
      rintro x ⟨first, rest, rfl, hx⟩
      exact ⟨before ++ .step t i :: first, rest, by simp, by simp [run_append, hrun, hstep, hx]⟩

end Runs

end LpPlatform.SessionReplays
