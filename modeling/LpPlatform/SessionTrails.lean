import LpPlatform.StatementWrites

/-!
# What one session saw and what all of them wrote

The writes committed along a run form its history, and the committed rows are
the initial ones under that history. A session without transactions leaves a
trail: each of its statements ran in some world of the run and saw what was
committed there. What is left of its program is what these views have made of
the program it was started with, so a trail is read backwards, one statement
after the other.
-/

namespace LpPlatform.SessionTrails

open RowStore StatementProgram StatementWrites Sessions StepRuns

variable {δ ω κ ι ε α β β' γ : Type}

/-- A program that opens no transaction. -/
def AutoCommits : Prog δ ω ι ε α → Prop
  | .done _ => True
  | .throw _ => True
  | .begin _ _ _ => False
  | .stmt _ k err => (∀ v i, AutoCommits (k v i)) ∧ ∀ e, AutoCommits (err e)
  | .commit _ _ => False
  | .rollback _ => False

section Rules

theorem auto_bind {p : Prog δ ω ι ε α} {f : α → Prog δ ω ι ε β} (hp : AutoCommits p)
    (hf : ∀ a, AutoCommits (f a)) : AutoCommits (p.bind f) := by
  induction p with
  | done a => exact hf a
  | throw e => trivial
  | begin ser k err ihk ihe => exact hp.elim
  | stmt ws k err ihk ihe => exact ⟨fun v i => ihk v i (hp.1 v i), fun e => ihe e (hp.2 e)⟩
  | commit k err ihk ihe => exact hp.elim
  | rollback k ihk => exact hp.elim

theorem auto_tryCatch {p : Prog δ ω ι ε α} {h : ε → Prog δ ω ι ε α} (hp : AutoCommits p)
    (hh : ∀ e, AutoCommits (h e)) : AutoCommits (p.tryCatch h) := by
  induction p with
  | done a => trivial
  | throw e => exact hh e
  | begin ser k err ihk ihe => exact hp.elim
  | stmt ws k err ihk ihe => exact ⟨fun v i => ihk v i (hp.1 v i), fun e => ihe e (hp.2 e)⟩
  | commit k err ihk ihe => exact hp.elim
  | rollback k ihk => exact hp.elim

theorem auto_query (f : View δ → ι → α) : AutoCommits (query f : Prog δ ω ι ε α) :=
  ⟨fun _ _ => trivial, fun _ => trivial⟩

theorem auto_exec (ws : View δ → ι → List ω) (f : View δ → ι → α) :
    AutoCommits (exec ws f : Prog δ ω ι ε α) := ⟨fun _ _ => trivial, fun _ => trivial⟩

theorem auto_ofExcept (r : Except ε α) : AutoCommits (ofExcept r : Prog δ ω ι ε α) := by
  cases r <;> trivial

/-- A program that opens no transaction and whose statements only issue writes
that pass a check. -/
structure Emits (ok : ω → Prop) (p : Prog δ ω ι ε α) : Prop where
  auto : AutoCommits p
  writes : Writes (fun _ => True) ok p

variable {ok : ω → Prop}

theorem emits_done (a : α) : Emits ok (.done a : Prog δ ω ι ε α) := ⟨trivial, trivial⟩

theorem emits_throw (e : ε) : Emits ok (.throw e : Prog δ ω ι ε α) := ⟨trivial, trivial⟩

theorem emits_bind {p : Prog δ ω ι ε α} {f : α → Prog δ ω ι ε β} (hp : Emits ok p)
    (hf : ∀ a, Emits ok (f a)) : Emits ok (p.bind f) :=
  ⟨auto_bind hp.auto fun a => (hf a).auto, writes_bind hp.writes fun a => (hf a).writes⟩

theorem emits_tryCatch {p : Prog δ ω ι ε α} {h : ε → Prog δ ω ι ε α} (hp : Emits ok p)
    (hh : ∀ e, Emits ok (h e)) : Emits ok (p.tryCatch h) :=
  ⟨auto_tryCatch hp.auto fun e => (hh e).auto, writes_tryCatch hp.writes fun e => (hh e).writes⟩

theorem emits_query (f : View δ → ι → α) : Emits ok (query f : Prog δ ω ι ε α) :=
  ⟨auto_query f, writes_query f⟩

theorem emits_exec {ws : View δ → ι → List ω} {f : View δ → ι → α}
    (h : ∀ v i, ∀ x ∈ ws v i, ok x) : Emits ok (exec ws f : Prog δ ω ι ε α) :=
  ⟨auto_exec ws f, writes_exec fun v i _ => h v i⟩

theorem emits_ofExcept (r : Except ε α) : Emits ok (ofExcept r : Prog δ ω ι ε α) :=
  ⟨auto_ofExcept r, writes_ofExcept r⟩

theorem emits_mono {ok' : ω → Prop} {p : Prog δ ω ι ε α} (hp : Emits ok p)
    (hok : ∀ x, ok x → ok' x) : Emits ok' p := by
  refine ⟨hp.auto, ?_⟩
  obtain ⟨-, hwrites⟩ := hp
  induction p with
  | done a => trivial
  | throw e => trivial
  | begin ser k err ihk ihe => exact ⟨ihk hwrites.1, fun e => ihe e (hwrites.2 e)⟩
  | stmt ws k err ihk ihe =>
    exact ⟨fun v i hv => ⟨fun x hx => hok x ((hwrites.1 v i hv).1 x hx),
      ihk v i (hwrites.1 v i hv).2⟩, fun e => ihe e (hwrites.2 e)⟩
  | commit k err ihk ihe => exact ⟨ihk hwrites.1, fun e => ihe e (hwrites.2 e)⟩
  | rollback k ihk => exact ihk hwrites

end Rules

/-- The session an event is about. -/
def Event.session : Event γ ι ε → ℕ
  | .start t _ => t
  | .step t _ => t
  | .fail t _ => t
  | .crash t => t

variable (S : KeyedRows δ ω κ)

/-- What one event commits, each write with its session. -/
def committed (w : World δ ω κ ι ε α) (e : Event γ ι ε) : List (ℕ × ω) :=
  (w.commit? S e).toList.flatMap fun c => c.2.map (c.1, ·)

theorem mem_committed {w : World δ ω κ ι ε α} {e : Event γ ι ε} {t : ℕ} {x : ω} :
    (t, x) ∈ committed S w e ↔ ∃ ws, w.commit? S e = some (t, ws) ∧ x ∈ ws := by
  cases hc : w.commit? S e with
  | none => simp [committed, hc]
  | some commit =>
    obtain ⟨u, ws⟩ := commit
    simp only [committed, hc, Option.toList_some, List.flatMap_cons, List.flatMap_nil,
      List.append_nil, List.mem_map, Prod.mk.injEq, Option.some.injEq]
    constructor
    · rintro ⟨y, hy, rfl, rfl⟩
      exact ⟨ws, ⟨rfl, rfl⟩, hy⟩
    · rintro ⟨_, ⟨rfl, rfl⟩, hx⟩
      exact ⟨x, hx, rfl, rfl⟩

/-- A session without transactions commits the writes of its statements. -/
theorem commit_auto {w : World δ ω κ ι ε α} {t : ℕ} {i : ι} {ses : Session δ ω ι ε α} {ws : List ω} (hses : w.sessions t = some ses)
    (htxn : ses.txn = none) (hc : w.commit? S (.step t i : Event γ ι ε) = some (t, ws)) :
    ∃ f k err, ses.prog = .stmt f k err ∧ ws = f (w.view S t none) i := by
  simp only [World.commit?, hses, Option.ite_none_left_eq_some, Option.some.injEq,
    Prod.mk.injEq, true_and] at hc
  obtain ⟨hne, rfl⟩ := hc
  obtain ⟨prog, txn, a⟩ := ses
  obtain rfl : txn = none := htxn
  cases prog with
  | stmt f k err => exact ⟨f, k, err, rfl, rfl⟩
  | _ => exact absurd rfl hne

variable [DecidableEq κ]

/-- The writes committed along a run, in order. -/
def history (program : γ → Prog δ ω ι ε α) :
    World δ ω κ ι ε α → List (Event γ ι ε) → List (ℕ × ω)
  | _, [] => []
  | w, e :: es =>
    match w.step S program e with
    | none => []
    | some w' => committed S w e ++ history program w' es

/-- What a session without transactions has made of a program along a run. -/
inductive Trail (program : γ → Prog δ ω ι ε α) (s : World δ ω κ ι ε α) (es : List (Event γ ι ε))
    (t : ℕ) (p : Prog δ ω ι ε β) : Prog δ ω ι ε β → Prop where
  | start : Trail program s es t p p
  | ran {ws k err u u' i k' err' a} (h : Trail program s es t p (.stmt ws k err))
      (htakes : Takes (World.step S program) s es u (.step t i) u')
      (hses : u.sessions t = some ⟨.stmt ws k' err', none, a⟩) :
      Trail program s es t p (k (u.view S t none) i)
  | failed {ws k err} (e : ε) (h : Trail program s es t p (.stmt ws k err)) :
      Trail program s es t p (err e)

section History

variable {S}
variable {program : γ → Prog δ ω ι ε α} {s w w' : World δ ω κ ι ε α} {e : Event γ ι ε}
variable {front back es : List (Event γ ι ε)} {t : ℕ} {x : ω}

theorem history_append (hf : run (World.step S program) s front = some w) :
    history S program s (front ++ back) = history S program s front ++ history S program w back := by
  induction front generalizing s with
  | nil =>
    obtain rfl : s = w := by simpa using hf
    rfl
  | cons e front ih =>
    cases hs : World.step S program s e with
    | none => simp [hs] at hf
    | some next =>
      have hrest := ih (s := next) (by simpa [hs] using hf)
      simp only [List.cons_append, history, hs, hrest, List.append_assoc]

/-- The history of one event more. -/
theorem history_snoc (hf : run (World.step S program) s front = some w)
    (hstep : World.step S program w e = some w') :
    history S program s (front ++ [e]) = history S program s front ++ committed S w e := by
  rw [history_append hf]
  simp [history, hstep]

/-- An event changes the committed rows by what it commits. -/
theorem step_committed (hstep : World.step S program w e = some w') :
    w'.db = S.applyAll w.db ((committed S w e).map Prod.snd) := by
  rw [step_db S hstep]
  cases hc : w.commit? S e with
  | none => simp [committed, hc]
  | some commit => simp [committed, hc, List.map_map, Function.comp_def]

/-- A write of the history was committed by some step of the run. -/
theorem mem_history : (t, x) ∈ history S program s es ↔
    ∃ w e w', Takes (World.step S program) s es w e w' ∧ (t, x) ∈ committed S w e := by
  induction es generalizing s with
  | nil =>
    refine ⟨fun h => by simp [history] at h, fun h => ?_⟩
    obtain ⟨w, e, w', ⟨front, back, he, -⟩, -⟩ := h
    simp at he
  | cons a es ih =>
    cases hs : World.step S program s a with
    | none =>
      refine ⟨fun h => by simp [history, hs] at h, fun h => ?_⟩
      obtain ⟨w, e, w', htakes, -⟩ := h
      rcases takes_cons htakes with ⟨-, -, hu⟩ | ⟨next, hn, -⟩
      · simp [hs] at hu
      · simp [hs] at hn
    | some next =>
      simp only [history, hs, List.mem_append, ih]
      constructor
      · rintro (h | ⟨w, e, w', htakes, h⟩)
        · exact ⟨s, a, next, takes_head hs, h⟩
        · exact ⟨w, e, w', takes_tail hs htakes, h⟩
      · rintro ⟨w, e, w', htakes, h⟩
        rcases takes_cons htakes with ⟨rfl, rfl, -⟩ | ⟨next', hn, htakes⟩
        · exact Or.inl h
        · obtain rfl : next = next' := by simpa [hs] using hn
          exact Or.inr ⟨w, e, w', htakes, h⟩

/-- A property of the committed rows and the history that every step keeps
holds after every run. -/
theorem history_invariant {I : δ → List (ℕ × ω) → Prop} (hs : I s.db [])
    (hstep : ∀ front w e w', run (World.step S program) s front = some w →
      World.step S program w e = some w' → (∃ back, es = front ++ e :: back) →
      I w.db (history S program s front) →
      I w'.db (history S program s front ++ committed S w e))
    (hrun : run (World.step S program) s es = some w) : I w.db (history S program s es) := by
  refine run_invariant (I := fun w front => I w.db (history S program s front)) hs
    (fun front u e u' hf hnext hback hu => ?_) hrun
  rw [history_snoc hf hnext]
  exact hstep front u e u' hf hnext hback hu

/-- The rows after a run are the first rows under its history. -/
theorem history_db (hrun : run (World.step S program) s es = some w) :
    w.db = S.applyAll s.db ((history S program s es).map Prod.snd) := by
  refine history_invariant (I := fun d h => d = S.applyAll s.db (h.map Prod.snd)) rfl
    (fun front u e u' hf hstep _ hu => ?_) hrun
  rw [step_committed hstep, hu, List.map_append, ← applyAll_append]

end History

section Moves

/-- The writes of one session in a history. -/
def writesOf (t : ℕ) (h : List (ℕ × ω)) : List ω := (h.filter (·.1 = t)).map Prod.snd

/-- What an event can make of a session, and what the session commits by it. -/
inductive Move (w : World δ ω κ ι ε α) (t : ℕ) :
    Session δ ω ι ε α → Event γ ι ε → Session δ ω ι ε α → List ω → Prop where
  | opened {i ser k err} :
    Move w t ⟨.begin ser k err, none, true⟩ (.step t i) ⟨k, some (.opened ser w.db), true⟩ []
  | auto {i ws k err} :
    Move w t ⟨.stmt ws k err, none, true⟩ (.step t i) ⟨k (w.view S t none) i, none, true⟩
      (ws (w.view S t none) i)
  | held {i ws k err T} (hrun : T.aborted = false) :
    Move w t ⟨.stmt ws k err, some T, true⟩ (.step t i)
      ⟨k (w.view S t (some T)) i, some (T.add (ws (w.view S t (some T)) i)), true⟩ []
  | idle {i k err} : Move w t ⟨.commit k err, none, true⟩ (.step t i) ⟨k, none, true⟩ []
  | ended {i k err T} (habort : T.aborted = true) :
    Move w t ⟨.commit k err, some T, true⟩ (.step t i) ⟨k, none, true⟩ []
  | committed {i k err T} (hrun : T.aborted = false) :
    Move w t ⟨.commit k err, some T, true⟩ (.step t i) ⟨k, none, true⟩ T.writes
  | rolledBack {i k txn} : Move w t ⟨.rollback k, txn, true⟩ (.step t i) ⟨k, none, true⟩ []
  | beginFailed {e ser k err txn} :
    Move w t ⟨.begin ser k err, txn, true⟩ (.fail t e) ⟨err e, txn, true⟩ []
  | stmtFailed {e ws k err txn} :
    Move w t ⟨.stmt ws k err, txn, true⟩ (.fail t e) ⟨err e, txn.map Txn.abort, true⟩ []
  | commitFailed {e k err txn} :
    Move w t ⟨.commit k err, txn, true⟩ (.fail t e) ⟨err e, none, true⟩ []
  | died {p txn} : Move w t ⟨p, txn, true⟩ (.crash t) ⟨p, none, false⟩ []
  | other {ses e} (ws : List ω) (hother : Event.session e ≠ t) : Move w t ses e (ses.note ws) []

variable {S}
variable {w w' : World δ ω κ ι ε α} {t : ℕ} {e : Event γ ι ε} {ses : Session δ ω ι ε α}

@[simp] theorem writesOf_append (h h' : List (ℕ × ω)) :
    writesOf t (h ++ h') = writesOf t h ++ writesOf t h' := by simp [writesOf]

theorem note_nil (ses : Session δ ω ι ε α) : ses.note [] = ses := by
  obtain ⟨p, txn, a⟩ := ses
  cases txn <;> simp [Session.note]

omit [DecidableEq κ] in
/-- Only its own statements commit writes of a session. -/
theorem writesOf_other (hother : Event.session e ≠ t) : writesOf t (committed S w e) = [] := by
  cases e with
  | step u i =>
    have hu : u ≠ t := hother
    cases hses : w.sessions u with
    | none => simp [committed, World.commit?, hses, writesOf]
    | some ses =>
      by_cases hc : w.commits S u ses i = []
      · simp [committed, World.commit?, hses, hc, writesOf]
      · simp [committed, World.commit?, hses, hc, writesOf, List.filter_map, Function.comp_def, hu]
  | start u call => rfl
  | fail u e => rfl
  | crash u => rfl

omit [DecidableEq κ] in
/-- A step commits the writes of its statement. -/
theorem writesOf_own {i : ι} (hses : w.sessions t = some ses) :
    writesOf t (committed S w (.step t i : Event γ ι ε)) = w.commits S t ses i := by
  by_cases hc : w.commits S t ses i = []
  · simp [committed, World.commit?, hses, hc, writesOf]
  · simp [committed, World.commit?, hses, hc, writesOf, List.filter_map, Function.comp_def]

/-- An event about another session is at most noted. -/
theorem session_other {program : γ → Prog δ ω ι ε α} (hses : w.sessions t = some ses)
    (hother : Event.session e ≠ t) (hstep : World.step S program w e = some w') :
    ∃ ws, w'.sessions t = some (ses.note ws) := by
  have hput : ∀ {u} {x : World δ ω κ ι ε α} {new} (ws : List ω), u ≠ t →
      x.sessions t = some (ses.note ws) → ∃ ws, (x.put u new).sessions t = some (ses.note ws) :=
    fun ws hu hx => ⟨ws, by rw [put_sessions, Function.update_of_ne (Ne.symm hu), hx]⟩
  have hquiet : ∀ {u} {x : World δ ω κ ι ε α} {new}, u ≠ t → x.sessions = w.sessions →
      ∃ ws, (x.put u new).sessions t = some (ses.note ws) :=
    fun hu hx => hput [] hu (by rw [hx, hses, note_nil])
  cases step_cases S hstep with
  | start hnew => exact hquiet hother rfl
  | step hses' halive hadv =>
    cases advance_cases S hadv with
    | auto hvalid hfree => exact hput _ hother (by rw [publish_sessions, hses, Option.map_some])
    | committed =>
      exact hput _ hother (by rw [publish_sessions, release_sessions, hses, Option.map_some])
    | _ => exact hquiet hother rfl
  | fail hses' halive hraise =>
    cases raise_cases hraise with
    | _ => exact hquiet hother rfl
  | crash hses' halive => exact hquiet hother rfl

/-- Every event moves a session and commits what the move says. -/
theorem session_move {program : γ → Prog δ ω ι ε α} (hses : w.sessions t = some ses)
    (hstep : World.step S program w e = some w') :
    ∃ ses', w'.sessions t = some ses' ∧ Move S w t ses e ses' (writesOf t (committed S w e)) := by
  by_cases hother : Event.session e = t
  · cases step_cases S hstep with
    | start hnew =>
      obtain rfl := hother
      exact absurd (hses.symm.trans hnew) (by simp)
    | @step u i ses' _ hses' halive hadv =>
      obtain rfl : u = t := hother
      obtain rfl := Option.some.inj (hses.symm.trans hses')
      rw [writesOf_own hses]
      cases advance_cases S hadv with
      | opened => obtain rfl := halive; exact ⟨_, by simp, .opened⟩
      | auto hvalid hfree => obtain rfl := halive; exact ⟨_, by simp, .auto⟩
      | held hrun hvalid hfree => obtain rfl := halive; exact ⟨_, by simp, .held hrun⟩
      | idle => obtain rfl := halive; exact ⟨_, by simp, .idle⟩
      | @ended k err T a habort =>
        obtain rfl : a = true := halive
        exact ⟨⟨k, none, true⟩, by simp, by simpa [World.commits, habort] using .ended habort⟩
      | @committed k err T a hrun hclash =>
        obtain rfl : a = true := halive
        exact ⟨⟨k, none, true⟩, by simp, by simpa [World.commits, hrun] using .committed hrun⟩
      | rolledBack => obtain rfl := halive; exact ⟨_, by simp, .rolledBack⟩
    | @fail u e ses' _ hses' halive hraise =>
      obtain rfl : u = t := hother
      obtain rfl := Option.some.inj (hses.symm.trans hses')
      cases raise_cases hraise with
      | begin => obtain rfl := halive; exact ⟨_, by simp, .beginFailed⟩
      | stmt => obtain rfl := halive; exact ⟨_, by simp, .stmtFailed⟩
      | commit => obtain rfl := halive; exact ⟨_, by simp, .commitFailed⟩
    | @crash u ses' hses' halive =>
      obtain rfl : u = t := hother
      obtain rfl := Option.some.inj (hses.symm.trans hses')
      obtain ⟨p, txn, a⟩ := ses
      obtain rfl : a = true := halive
      exact ⟨_, by simp, .died⟩
  · obtain ⟨ws, hw'⟩ := session_other hses hother hstep
    rw [writesOf_other hother]
    exact ⟨_, hw', .other ws hother⟩

end Moves

section Trails

variable {S}
variable {program : γ → Prog δ ω ι ε α} {s w w' : World δ ω κ ι ε α}
variable {es : List (Event γ ι ε)} {t : ℕ}

/-- What is known of a session without transactions. -/
structure Left (program : γ → Prog δ ω ι ε α) (s : World δ ω κ ι ε α) (es : List (Event γ ι ε))
    (t : ℕ) (p : Prog δ ω ι ε α) (ses : Session δ ω ι ε α) : Prop where
  /-- It has no transaction open. -/
  txn : ses.txn = none
  /-- It will open none. -/
  auto : AutoCommits ses.prog
  /-- What is left of its program is on its trail. -/
  trail : Trail S program s es t p ses.prog

/-- An event about another session leaves a session without transactions as it
is. -/
theorem sessions_other {e : Event γ ι ε} {p : Prog δ ω ι ε α} {a : Bool}
    (hses : w.sessions t = some ⟨p, none, a⟩) (hother : Event.session e ≠ t)
    (hstep : World.step S program w e = some w') : w'.sessions t = some ⟨p, none, a⟩ := by
  obtain ⟨ws, hw'⟩ := session_other hses hother hstep
  exact hw'

/-- One step of the run takes the session along its trail, or leaves it. -/
theorem left_step {p : Prog δ ω ι ε α} {e : Event γ ι ε} {ses : Session δ ω ι ε α}
    (htakes : Takes (World.step S program) s es w e w') (hses : w.sessions t = some ses)
    (h : Left (S := S) program s es t p ses) :
    ∃ ses', w'.sessions t = some ses' ∧ Left (S := S) program s es t p ses' := by
  have hstep := takes_step htakes
  obtain ⟨prog, txn, alive⟩ := ses
  obtain ⟨rfl, hauto, htrail⟩ := h
  by_cases hother : Event.session e = t
  · cases step_cases S hstep with
    | start hnew =>
      obtain rfl := hother
      exact absurd (hses.symm.trans hnew) (by simp)
    | step hses' halive hadv =>
      obtain rfl := hother
      obtain rfl := Option.some.inj (hses.symm.trans hses')
      cases advance_cases S hadv with
      | opened => exact hauto.elim
      | auto hvalid hfree =>
        exact ⟨⟨_, none, alive⟩, by simp [Event.session], rfl, hauto.1 _ _, htrail.ran htakes hses⟩
      | idle => exact hauto.elim
      | rolledBack => exact hauto.elim
    | @fail u e other _ hses' halive hraise =>
      obtain rfl : u = t := hother
      obtain rfl := Option.some.inj (hses.symm.trans hses')
      cases raise_cases hraise with
      | begin => exact hauto.elim
      | stmt => exact ⟨⟨_, none, alive⟩, by simp, rfl, hauto.2 _, htrail.failed e⟩
      | commit => exact hauto.elim
    | crash hses' halive =>
      obtain rfl := hother
      obtain rfl := Option.some.inj (hses.symm.trans hses')
      exact ⟨⟨prog, none, false⟩, by simp [Event.session], rfl, hauto, htrail⟩
  · exact ⟨_, sessions_other hses hother hstep, rfl, hauto, htrail⟩

/-- In every state visited a session is on its trail. -/
theorem left_visits {p : Prog δ ω ι ε α} {a : Bool} (hauto : AutoCommits p)
    (hses : s.sessions t = some ⟨p, none, a⟩) (hvisits : Visits (World.step S program) s es w) :
    ∃ ses, w.sessions t = some ses ∧ Left (S := S) program s es t p ses := by
  refine visits_invariant (I := fun w : World δ ω κ ι ε α =>
      ∃ ses, w.sessions t = some ses ∧ Left (S := S) program s es t p ses)
    (C := fun w e => ∀ w', World.step S program w e = some w' →
      (∃ ses, w.sessions t = some ses ∧ Left (S := S) program s es t p ses) →
      ∃ ses, w'.sessions t = some ses ∧ Left (S := S) program s es t p ses)
    (fun w e w' hw he hstep => he w' hstep hw) ⟨_, hses, rfl, hauto, .start⟩
    ((along_iff_takes _ _).mpr fun w e w' htakes => ?_) hvisits
  rintro _ hstep ⟨ses, hw, hleft⟩
  obtain rfl := Option.some.inj ((takes_step htakes).symm.trans hstep)
  exact left_step htakes hw hleft

/-- The trail of a program and the code that uses its result: it is still in
the program, or the program has returned. -/
theorem trail_bind {p : Prog δ ω ι ε β} {f : β → Prog δ ω ι ε β'} {q : Prog δ ω ι ε β'}
    (h : Trail S program s es t (p.bind f) q) :
    (∃ p', Trail S program s es t p p' ∧ q = p'.bind f) ∨
      ∃ b, Trail S program s es t p (.done b) ∧ Trail S program s es t (f b) q := by
  induction h with
  | start => exact Or.inl ⟨p, .start, rfl⟩
  | @ran ws k err u u' i k' err' a h htakes hses ih =>
    rcases ih with ⟨p', hp', heq⟩ | ⟨b, hb, hq⟩
    · cases p' with
      | done b =>
        have hf : f b = .stmt ws k err := heq.symm
        have hstart : Trail S program s es t (f b) (.stmt ws k err) := by
          rw [hf]
          exact .start
        exact Or.inr ⟨b, hp', hstart.ran htakes hses⟩
      | stmt ws₀ k₀ err₀ =>
        obtain ⟨rfl, rfl, rfl⟩ := Prog.stmt.inj heq
        exact Or.inl ⟨_, hp'.ran htakes hses, rfl⟩
      | throw e => simp [Prog.bind] at heq
      | begin ser k err => simp [Prog.bind] at heq
      | commit k err => simp [Prog.bind] at heq
      | rollback k => simp [Prog.bind] at heq
    · exact Or.inr ⟨b, hb, hq.ran htakes hses⟩
  | @failed ws k err e h ih =>
    rcases ih with ⟨p', hp', heq⟩ | ⟨b, hb, hq⟩
    · cases p' with
      | done b =>
        have hf : f b = .stmt ws k err := heq.symm
        have hstart : Trail S program s es t (f b) (.stmt ws k err) := by
          rw [hf]
          exact .start
        exact Or.inr ⟨b, hp', hstart.failed e⟩
      | stmt ws₀ k₀ err₀ =>
        obtain ⟨rfl, rfl, rfl⟩ := Prog.stmt.inj heq
        exact Or.inl ⟨_, hp'.failed e, rfl⟩
      | throw e => simp [Prog.bind] at heq
      | begin ser k err => simp [Prog.bind] at heq
      | commit k err => simp [Prog.bind] at heq
      | rollback k => simp [Prog.bind] at heq
    · exact Or.inr ⟨b, hb, hq.failed e⟩

/-- A program that has returned after another one. -/
theorem trail_bind_done {p : Prog δ ω ι ε β} {f : β → Prog δ ω ι ε β'} {c : β'}
    (h : Trail S program s es t (p.bind f) (.done c)) :
    ∃ b, Trail S program s es t p (.done b) ∧ Trail S program s es t (f b) (.done c) := by
  rcases trail_bind h with ⟨p', hp', heq⟩ | hafter
  · cases p' with
    | done b =>
      have hf : f b = .done c := heq.symm
      refine ⟨b, hp', ?_⟩
      rw [hf]
      exact .start
    | _ => simp [Prog.bind] at heq
  · exact hafter

/-- The place has a result, or a statement that may write. -/
def Telling : Prog δ ω ι ε β → Prop
  | .done _ => True
  | .stmt ws _ _ => ∃ v i, ws v i ≠ []
  | _ => False

/-- A result stays where it is. -/
theorem trail_done {b : β} {q : Prog δ ω ι ε β} (h : Trail S program s es t (.done b) q) :
    q = .done b := by
  induction h with
  | start => rfl
  | ran h htakes hses ih => simp at ih
  | failed e h ih => simp at ih

/-- So does an exception. -/
theorem trail_throw {e : ε} {q : Prog δ ω ι ε β} (h : Trail S program s es t (.throw e) q) :
    q = .throw e := by
  induction h with
  | start => rfl
  | ran h htakes hses ih => simp at ih
  | failed e h ih => simp at ih

/-- Once past a statement the session is on the trail of what follows. -/
theorem trail_stmt {ws : View δ → ι → List ω} {k : View δ → ι → Prog δ ω ι ε β}
    {err : ε → Prog δ ω ι ε β} {q : Prog δ ω ι ε β}
    (h : Trail S program s es t (.stmt ws k err) q) :
    q = .stmt ws k err ∨ (∃ e, Trail S program s es t (err e) q) ∨
      ∃ u u' i k' err' a, Takes (World.step S program) s es u (.step t i) u' ∧
        u.sessions t = some ⟨.stmt ws k' err', none, a⟩ ∧
        Trail S program s es t (k (u.view S t none) i) q := by
  induction h with
  | start => exact Or.inl rfl
  | ran h htakes hses ih =>
    rcases ih with heq | ⟨e, hq⟩ | ⟨u, u', i, k', err', a, htakes', hses', hq⟩
    · obtain ⟨rfl, rfl, rfl⟩ := Prog.stmt.inj heq
      exact Or.inr (Or.inr ⟨_, _, _, _, _, _, htakes, hses, .start⟩)
    · exact Or.inr (Or.inl ⟨e, hq.ran htakes hses⟩)
    · exact Or.inr (Or.inr ⟨u, u', i, k', err', a, htakes', hses', hq.ran htakes hses⟩)
  | failed e h ih =>
    rcases ih with heq | ⟨e', hq⟩ | ⟨u, u', i, k', err', a, htakes', hses', hq⟩
    · obtain ⟨rfl, rfl, rfl⟩ := Prog.stmt.inj heq
      exact Or.inr (Or.inl ⟨e, .start⟩)
    · exact Or.inr (Or.inl ⟨e', hq.failed e⟩)
    · exact Or.inr (Or.inr ⟨u, u', i, k', err', a, htakes', hses', hq.failed e⟩)

/-- A telling place after a query is on the trail of what the query found. -/
theorem trail_query {f : View δ → ι → β} {g : β → Prog δ ω ι ε β'} {q : Prog δ ω ι ε β'}
    (h : Trail S program s es t ((query f).bind g) q) (hq : Telling q) :
    ∃ u i u', Takes (World.step S program) s es u (.step t i) u' ∧
      Trail S program s es t (g (f (u.view S t none) i)) q := by
  rcases trail_stmt h with rfl | ⟨e, he⟩ | ⟨u, u', i, k', err', a, htakes, -, hnext⟩
  · obtain ⟨v, i, hne⟩ := hq
    exact absurd rfl hne
  · rw [trail_throw he] at hq
    exact hq.elim
  · exact ⟨u, i, u', htakes, hnext⟩

/-- A telling place after a statement that writes: the session is at the
statement, or the statement has committed. -/
theorem trail_exec {ws : View δ → ι → List ω} {f : View δ → ι → β} {g : β → Prog δ ω ι ε β'}
    {q : Prog δ ω ι ε β'} (h : Trail S program s es t ((exec ws f).bind g) q) (hq : Telling q) :
    q = (exec ws f).bind g ∨ ∃ u i u', Takes (World.step S program) s es u (.step t i) u' ∧
      (∀ x ∈ ws (u.view S t none) i, (t, x) ∈ committed S u (.step t i : Event γ ι ε)) ∧
      Trail S program s es t (g (f (u.view S t none) i)) q := by
  rcases trail_stmt h with rfl | ⟨e, he⟩ | ⟨u, u', i, k', err', a, htakes, hses, hnext⟩
  · exact Or.inl rfl
  · rw [trail_throw he] at hq
    exact hq.elim
  · refine Or.inr ⟨u, i, u', htakes, fun x hx => ?_, hnext⟩
    refine (mem_committed S).mpr ⟨ws (u.view S t none) i, ?_, hx⟩
    have hne : ws (u.view S t none) i ≠ [] := List.ne_nil_of_mem hx
    simp [World.commit?, hses, World.commits, hne]

/-- After a statement that writes, a result means that it has committed. -/
theorem trail_exec_done {ws : View δ → ι → List ω} {f : View δ → ι → β} {g : β → Prog δ ω ι ε β'}
    {c : β'} (h : Trail S program s es t ((exec ws f).bind g) (.done c)) :
    ∃ u i u', Takes (World.step S program) s es u (.step t i) u' ∧
      (∀ x ∈ ws (u.view S t none) i, (t, x) ∈ committed S u (.step t i : Event γ ι ε)) ∧
      Trail S program s es t (g (f (u.view S t none) i)) (.done c) := by
  rcases trail_exec h trivial with heq | hafter
  · simp [exec, Prog.bind] at heq
  · exact hafter

/-- A statement on the trail of two programs belongs to one of them. -/
theorem trail_bind_stmt {p : Prog δ ω ι ε β} {f : β → Prog δ ω ι ε β'} {ws : View δ → ι → List ω}
    {k : View δ → ι → Prog δ ω ι ε β'} {err : ε → Prog δ ω ι ε β'}
    (h : Trail S program s es t (p.bind f) (.stmt ws k err)) :
    (∃ k' err', Trail S program s es t p (.stmt ws k' err')) ∨
      ∃ b, Trail S program s es t p (.done b) ∧ Trail S program s es t (f b) (.stmt ws k err) := by
  rcases trail_bind h with ⟨p', hp', heq⟩ | hafter
  · cases p' with
    | done b =>
      have hf : f b = .stmt ws k err := heq.symm
      refine Or.inr ⟨b, hp', ?_⟩
      rw [hf]
      exact .start
    | stmt ws₀ k₀ err₀ =>
      obtain ⟨rfl, -, -⟩ := Prog.stmt.inj heq
      exact Or.inl ⟨k₀, err₀, hp'⟩
    | _ => simp [Prog.bind] at heq
  · exact Or.inr hafter

/-- A statement outside a transaction leads to the code after it. -/
theorem step_stmt {f : View δ → ι → List ω} {k : View δ → ι → Prog δ ω ι ε α}
    {err : ε → Prog δ ω ι ε α} {a : Bool} {i : ι}
    (hses : w.sessions t = some ⟨.stmt f k err, none, a⟩)
    (hstep : World.step S program w (.step t i) = some w') :
    w'.sessions t = some ⟨k (w.view S t none) i, none, a⟩ := by
  cases step_cases S hstep with
  | step hses' halive hadv =>
    obtain rfl := Option.some.inj (hses.symm.trans hses')
    cases advance_cases S hadv with
    | auto hvalid hfree => simp

/-- A trail along part of a run is a trail along the run. -/
theorem trail_mono {s' : World δ ω κ ι ε α} {es' : List (Event γ ι ε)} {p q : Prog δ ω ι ε β}
    (htakes : ∀ u i u', Takes (World.step S program) s es u (.step t i) u' →
      Takes (World.step S program) s' es' u (.step t i) u')
    (h : Trail S program s es t p q) : Trail S program s' es' t p q := by
  induction h with
  | start => exact .start
  | ran h hran hses ih => exact ih.ran (htakes _ _ _ hran) hses
  | failed e h ih => exact ih.failed e

/-- In the world a run has come to, every session was started by a call and is
on the trail of it. -/
theorem left_run (hauto : ∀ call, AutoCommits (program call)) {d : δ} {n : ℕ}
    {front : List (Event γ ι ε)} {ses : Session δ ω ι ε α}
    (hrun : run (World.step S program) (World.initial d n) front = some w)
    (hses : w.sessions t = some ses) :
    ∃ call u u', Takes (World.step S program) (World.initial d n) front u (.start t call) u' ∧
      Left (S := S) program (World.initial d n) front t (program call) ses := by
  have hsome : (w.sessions t).isSome = true := by simp [hses]
  obtain ⟨u, call, u', hstart⟩ := visits_started hsome (visits_last hrun)
  have hwhole := hstart
  obtain ⟨before, after, rfl, hbefore, hstep⟩ := hstart
  have hafter : run (World.step S program) u' after = some w := by
    simpa [run_append, hbefore, hstep] using hrun
  have hnew : u'.sessions t = some ⟨program call, none, true⟩ := by
    cases step_cases S hstep with
    | start hnone => simp
  obtain ⟨ses', hses', hleft⟩ := left_visits (S := S) (hauto call) hnew (visits_last hafter)
  obtain rfl := Option.some.inj (hses.symm.trans hses')
  refine ⟨call, u, u', hwhole, hleft.txn, hleft.auto, trail_mono (fun v i v' h => ?_) hleft.trail⟩
  obtain ⟨first, rest, rfl, hfirst, hv⟩ := h
  exact ⟨before ++ .start t call :: first, rest, by simp, by simp [run_append, hbefore, hstep, hfirst],
    hv⟩

omit [DecidableEq κ] in
/-- A session commits by a step of its own. -/
theorem step_of_commit {e : Event γ ι ε} {ws : List ω} (hc : w.commit? S e = some (t, ws)) :
    ∃ i, e = .step t i := by
  cases e with
  | step v i =>
    cases hv : w.sessions v with
    | none => simp [World.commit?, hv] at hc
    | some other =>
      simp only [World.commit?, hv, Option.ite_none_left_eq_some, Option.some.injEq,
        Prod.mk.injEq] at hc
      exact ⟨i, by rw [hc.2.1]⟩
  | start v call => simp [World.commit?] at hc
  | fail v e => simp [World.commit?] at hc
  | crash v => simp [World.commit?] at hc

/-- The session that commits, its call, and the statement it commits by. -/
theorem committer (hauto : ∀ call, AutoCommits (program call)) {d : δ} {n : ℕ} {e : Event γ ι ε}
    {front : List (Event γ ι ε)} {ws : List ω}
    (hrun : run (World.step S program) (World.initial d n) front = some w)
    (hc : w.commit? S e = some (t, ws)) :
    ∃ call u u' i f k err a,
      Takes (World.step S program) (World.initial d n) front u (.start t call) u' ∧ e = .step t i ∧
      w.sessions t = some ⟨.stmt f k err, none, a⟩ ∧
      Trail S program (World.initial d n) front t (program call) (.stmt f k err) ∧
      ws = f (w.view S t none) i := by
  cases hses : w.sessions t with
  | none => simpa [hses] using started_of_commit hc
  | some ses =>
    obtain ⟨call, u, u', hstart, hleft⟩ := left_run hauto hrun hses
    obtain ⟨i, rfl⟩ := step_of_commit hc
    obtain ⟨f, k, err, hprog, rfl⟩ := commit_auto S hses hleft.txn hc
    obtain ⟨prog, txn, a⟩ := ses
    obtain rfl : txn = none := hleft.txn
    obtain rfl : prog = .stmt f k err := hprog
    exact ⟨call, u, u', i, f, k, err, a, hstart, rfl, rfl, hleft.trail, rfl⟩

/-- What a session commits is valid where it is applied. -/
theorem commit_valid (hauto : ∀ call, AutoCommits (program call)) {d : δ} {n : ℕ} {e : Event γ ι ε}
    {front : List (Event γ ι ε)} {ws : List ω}
    (hrun : run (World.step S program) (World.initial d n) front = some w)
    (hstep : World.step S program w e = some w') (hc : w.commit? S e = some (t, ws)) :
    S.validAll w.db ws = true := by
  obtain ⟨call, u, u', i, f, k, err, a, -, rfl, hses, -, rfl⟩ := committer hauto hrun hc
  cases step_cases S hstep with
  | step hses' halive hadv =>
    obtain rfl := Option.some.inj (hses.symm.trans hses')
    cases advance_cases S hadv with
    | auto hvalid hfree => exact hvalid

/-- A property that every valid write keeps goes from one world of a run to
every later one. -/
theorem valid_rows {I : δ → Prop} (hauto : ∀ call, AutoCommits (program call))
    (hI : ∀ d x, I d → S.valid d x = true → I (S.apply d x)) {d : δ} {n : ℕ}
    {front later : List (Event γ ι ε)}
    (hf : run (World.step S program) (World.initial d n) front = some w)
    (hlater : run (World.step S program) w later = some w') (hw : I w.db) : I w'.db := by
  refine visits_invariant (I := fun u : World δ ω κ ι ε α => I u.db)
    (C := fun u e => ∀ t ws, u.commit? S e = some (t, ws) → S.validAll u.db ws = true)
    (fun u e u' hu hc hstep => ?_) hw ((along_iff_takes _ _).mpr fun u e u' htakes t ws hc => ?_)
    (visits_last hlater)
  · rw [step_db S hstep]
    cases hcommit : u.commit? S e with
    | none => exact hu
    | some commit =>
      obtain ⟨t, ws⟩ := commit
      exact applyAll_invariant S hI hu (hc t ws hcommit)
  · obtain ⟨before, after, -, hbefore, hstep⟩ := htakes
    have hrun : run (World.step S program) (World.initial d n) (front ++ before) = some u := by
      simp [run_append, hf, hbefore]
    exact commit_valid hauto hrun hstep hc

/-- Whatever a program may write, a statement on its trail may write. -/
theorem trail_emits {ok : ω → Prop} {p : Prog δ ω ι ε β} {ws : View δ → ι → List ω}
    {k : View δ → ι → Prog δ ω ι ε β} {err : ε → Prog δ ω ι ε β} (hp : Emits ok p)
    (h : Trail S program s es t p (.stmt ws k err)) : ∀ v i, ∀ x ∈ ws v i, ok x := by
  have hall : ∀ {q}, Trail S program s es t p q → Writes (fun _ => True) ok q := by
    intro q hq
    induction hq with
    | start => exact hp.writes
    | ran h htakes hses ih => exact (ih.1 _ _ trivial).2
    | failed e h ih => exact ih.2 e
  exact fun v i => ((hall h).1 v i trivial).1

end Trails

end LpPlatform.SessionTrails
