import LpPlatform.Sessions
import LpPlatform.StepRuns

/-!
# What the statements of a call write

A program writes allowed rows only, as long as the rows it reads have some
property. When the property survives every write that is issued at all, and
holds when a call is started, then whatever that call commits is allowed, with
any other calls running around it. Nothing is assumed of the others.
-/

namespace LpPlatform.StatementWrites

open RowStore StatementProgram Sessions StepRuns

variable {δ ω κ ι ε α β γ : Type}

/-- Statements that read rows with a property write allowed rows only. -/
def Writes (P : δ → Prop) (ok : ω → Prop) : Prog δ ω ι ε α → Prop
  | .done _ => True
  | .throw _ => True
  | .begin _ k err => Writes P ok k ∧ ∀ e, Writes P ok (err e)
  | .stmt ws k err =>
    (∀ v i, P v.own → (∀ x ∈ ws v i, ok x) ∧ Writes P ok (k v i)) ∧ ∀ e, Writes P ok (err e)
  | .commit k err => Writes P ok k ∧ ∀ e, Writes P ok (err e)
  | .rollback k => Writes P ok k

section Rules

variable {P : δ → Prop} {ok : ω → Prop}

theorem writes_bind {p : Prog δ ω ι ε α} {f : α → Prog δ ω ι ε β} (hp : Writes P ok p)
    (hf : ∀ a, Writes P ok (f a)) : Writes P ok (p.bind f) := by
  induction p with
  | done a => exact hf a
  | throw e => trivial
  | begin ser k err ihk ihe => exact ⟨ihk hp.1, fun e => ihe e (hp.2 e)⟩
  | stmt ws k err ihk ihe =>
    exact ⟨fun v i hv => ⟨(hp.1 v i hv).1, ihk v i (hp.1 v i hv).2⟩, fun e => ihe e (hp.2 e)⟩
  | commit k err ihk ihe => exact ⟨ihk hp.1, fun e => ihe e (hp.2 e)⟩
  | rollback k ihk => exact ihk hp

theorem writes_tryCatch {p : Prog δ ω ι ε α} {h : ε → Prog δ ω ι ε α} (hp : Writes P ok p)
    (hh : ∀ e, Writes P ok (h e)) : Writes P ok (p.tryCatch h) := by
  induction p with
  | done a => trivial
  | throw e => exact hh e
  | begin ser k err ihk ihe => exact ⟨ihk hp.1, fun e => ihe e (hp.2 e)⟩
  | stmt ws k err ihk ihe =>
    exact ⟨fun v i hv => ⟨(hp.1 v i hv).1, ihk v i (hp.1 v i hv).2⟩, fun e => ihe e (hp.2 e)⟩
  | commit k err ihk ihe => exact ⟨ihk hp.1, fun e => ihe e (hp.2 e)⟩
  | rollback k ihk => exact ihk hp

/-- A query, and the code that uses what it found in rows with the property. -/
theorem writes_query_bind {f : View δ → ι → α} {g : α → Prog δ ω ι ε β}
    (hg : ∀ v i, P v.own → Writes P ok (g (f v i))) : Writes P ok ((query f).bind g) :=
  ⟨fun v i hv => ⟨by simp, hg v i hv⟩, fun _ => trivial⟩

theorem writes_query (f : View δ → ι → α) : Writes P ok (query f : Prog δ ω ι ε α) :=
  ⟨fun _ _ _ => ⟨by simp, trivial⟩, fun _ => trivial⟩

theorem writes_exec {ws : View δ → ι → List ω} {f : View δ → ι → α}
    (hws : ∀ v i, P v.own → ∀ x ∈ ws v i, ok x) : Writes P ok (exec ws f : Prog δ ω ι ε α) :=
  ⟨fun v i hv => ⟨hws v i hv, trivial⟩, fun _ => trivial⟩

theorem writes_row {row : View δ → ι → ω} {f : View δ → ι → α} (hrow : ∀ v i, ok (row v i)) :
    Writes P ok (exec (fun v i => [row v i]) f : Prog δ ω ι ε α) :=
  writes_exec fun v i _ _ hx => List.mem_singleton.mp hx ▸ hrow v i

theorem writes_ofExcept (r : Except ε α) : Writes P ok (ofExcept r : Prog δ ω ι ε α) := by
  cases r <;> trivial

theorem writes_transaction {ser : Bool} {body : Prog δ ω ι ε α} (hbody : Writes P ok body) :
    Writes P ok (transaction ser body) :=
  ⟨writes_tryCatch (writes_bind hbody fun _ => ⟨trivial, fun _ => trivial⟩) fun _ => trivial,
    fun _ => trivial⟩

end Rules

/-- Every statement issues writes that fit the view and the input it runs
with. -/
def Issues (fits : View δ → ι → ω → Prop) : Prog δ ω ι ε α → Prop
  | .done _ => True
  | .throw _ => True
  | .begin _ k err => Issues fits k ∧ ∀ e, Issues fits (err e)
  | .stmt ws k err =>
    (∀ v i, (∀ x ∈ ws v i, fits v i x) ∧ Issues fits (k v i)) ∧ ∀ e, Issues fits (err e)
  | .commit k err => Issues fits k ∧ ∀ e, Issues fits (err e)
  | .rollback k => Issues fits k

section Issuing

variable {fits : View δ → ι → ω → Prop}

theorem issues_bind {p : Prog δ ω ι ε α} {f : α → Prog δ ω ι ε β} (hp : Issues fits p)
    (hf : ∀ a, Issues fits (f a)) : Issues fits (p.bind f) := by
  induction p with
  | done a => exact hf a
  | throw e => trivial
  | begin ser k err ihk ihe => exact ⟨ihk hp.1, fun e => ihe e (hp.2 e)⟩
  | stmt ws k err ihk ihe =>
    exact ⟨fun v i => ⟨(hp.1 v i).1, ihk v i (hp.1 v i).2⟩, fun e => ihe e (hp.2 e)⟩
  | commit k err ihk ihe => exact ⟨ihk hp.1, fun e => ihe e (hp.2 e)⟩
  | rollback k ihk => exact ihk hp

theorem issues_tryCatch {p : Prog δ ω ι ε α} {h : ε → Prog δ ω ι ε α} (hp : Issues fits p)
    (hh : ∀ e, Issues fits (h e)) : Issues fits (p.tryCatch h) := by
  induction p with
  | done a => trivial
  | throw e => exact hh e
  | begin ser k err ihk ihe => exact ⟨ihk hp.1, fun e => ihe e (hp.2 e)⟩
  | stmt ws k err ihk ihe =>
    exact ⟨fun v i => ⟨(hp.1 v i).1, ihk v i (hp.1 v i).2⟩, fun e => ihe e (hp.2 e)⟩
  | commit k err ihk ihe => exact ⟨ihk hp.1, fun e => ihe e (hp.2 e)⟩
  | rollback k ihk => exact ihk hp

theorem issues_query (f : View δ → ι → α) : Issues fits (query f : Prog δ ω ι ε α) :=
  ⟨fun _ _ => ⟨by simp, trivial⟩, fun _ => trivial⟩

theorem issues_exec {ws : View δ → ι → List ω} {f : View δ → ι → α}
    (hws : ∀ v i, ∀ x ∈ ws v i, fits v i x) : Issues fits (exec ws f : Prog δ ω ι ε α) :=
  ⟨fun v i => ⟨hws v i, trivial⟩, fun _ => trivial⟩

theorem issues_row {row : View δ → ι → ω} {f : View δ → ι → α}
    (hrow : ∀ v i, fits v i (row v i)) :
    Issues fits (exec (fun v i => [row v i]) f : Prog δ ω ι ε α) :=
  issues_exec fun v i _ hx => List.mem_singleton.mp hx ▸ hrow v i

theorem issues_ofExcept (r : Except ε α) : Issues fits (ofExcept r : Prog δ ω ι ε α) := by
  cases r <;> trivial

theorem issues_transaction {ser : Bool} {body : Prog δ ω ι ε α} (hbody : Issues fits body) :
    Issues fits (transaction ser body) :=
  ⟨issues_tryCatch (issues_bind hbody fun _ => ⟨trivial, fun _ => trivial⟩) fun _ => trivial,
    fun _ => trivial⟩

end Issuing

variable (S : KeyedRows δ ω κ)

/-- The writes of the statement that the event runs. -/
def issued (w : World δ ω κ ι ε α) : Event γ ι ε → List ω
  | .step t i =>
    match w.sessions t with
    | some ⟨.stmt ws _ _, txn, _⟩ => ws (w.view S t txn) i
    | _ => []
  | _ => []

/-- What is known of a session's pending writes, and of its program when it is
the subject. -/
structure Within (P : δ → Prop) (allow ok : ω → Prop) (subject : Prop)
    (ses : Session δ ω ι ε α) : Prop where
  /-- Its pending writes are of the kind that is issued. -/
  pending : ∀ T, ses.txn = some T → ∀ x ∈ T.writes, allow x
  /-- The rest of the subject's program writes allowed rows. -/
  prog : subject → Writes P ok ses.prog
  /-- Its pending writes are allowed. -/
  own : subject → ∀ T, ses.txn = some T → ∀ x ∈ T.writes, ok x
  /-- Its snapshot has the property. -/
  snapshot : subject → ∀ T d₀, ses.txn = some T → T.snapshot = some d₀ → P d₀

/-- The committed rows have the property and every session is within, the
subjects having been started. -/
structure Bounded (P : δ → Prop) (allow ok : ω → Prop) (subject : ℕ → Prop)
    (w : World δ ω κ ι ε α) : Prop where
  rows : P w.db
  started : ∀ t, subject t → (w.sessions t).isSome = true
  sessions : ∀ u ses, w.sessions u = some ses → Within P allow ok (subject u) ses

section Soundness

variable {S}
variable {P : δ → Prop} {allow ok : ω → Prop} {subject : ℕ → Prop} {t u : ℕ}
variable {w w' : World δ ω κ ι ε α} {ses ses' : Session δ ω ι ε α}

theorem applyAll_keeps (hP : ∀ d x, P d → allow x → P (S.apply d x)) {d : δ} {ws : List ω}
    (hd : P d) (hws : ∀ x ∈ ws, allow x) : P (S.applyAll d ws) :=
  applyAll_stable S (fun d x hx hd => hP d x hd (hws x hx)) hd

/-- A session without a transaction. -/
theorem within_outside {isSubject : Prop} {p : Prog δ ω ι ε α} {a : Bool}
    (hprog : isSubject → Writes P ok p) : Within P allow ok isSubject ⟨p, none, a⟩ :=
  ⟨by simp, hprog, by simp, by simp⟩

theorem within_note {isSubject : Prop} {ws : List ω} (h : Within P allow ok isSubject ses) :
    Within P allow ok isSubject (ses.note ws) := by
  obtain ⟨prog, txn, a⟩ := ses
  cases txn with
  | none => exact within_outside h.prog
  | some T =>
    refine ⟨fun T' hT => ?_, h.prog, fun hsub T' hT => ?_, fun hsub T' d₀ hT => ?_⟩
    · obtain rfl := Option.some.inj hT
      exact h.pending T rfl
    · obtain rfl := Option.some.inj hT
      exact h.own hsub T rfl
    · obtain rfl := Option.some.inj hT
      exact h.snapshot hsub T d₀ rfl

/-- The rows of a session of the subject have the property. -/
theorem view_own (hP : ∀ d x, P d → allow x → P (S.apply d x)) (h : Bounded P allow ok subject w)
    (ht : subject t) (hses : w.sessions t = some ses) : P (w.view S t ses.txn).own := by
  have hin := h.sessions t ses hses
  obtain ⟨prog, txn, a⟩ := ses
  cases txn with
  | none => exact h.rows
  | some T =>
    refine applyAll_keeps hP ?_ (hin.pending T rfl)
    cases hsnap : T.snapshot with
    | none => exact h.rows
    | some d₀ => exact hin.snapshot ht T d₀ rfl hsnap

/-- A step that commits nothing and replaces one session. -/
theorem bounded_quiet (h : Bounded P allow ok subject w) (hdb : w'.db = w.db)
    (hother : ∀ v, v ≠ u → w'.sessions v = w.sessions v) (hnew : w'.sessions u = some ses')
    (hses : Within P allow ok (subject u) ses') : Bounded P allow ok subject w' where
  rows := hdb ▸ h.rows
  started v hv := by
    by_cases hu : v = u
    · rw [hu, hnew, Option.isSome_some]
    · rw [hother v hu]
      exact h.started v hv
  sessions v x hx := by
    by_cases hv : v = u
    · subst hv
      obtain rfl := Option.some.inj (hnew.symm.trans hx)
      exact hses
    · exact h.sessions v x (hother v hv ▸ hx)

/-- A step that commits writes and replaces one session. -/
theorem bounded_commit (hP : ∀ d x, P d → allow x → P (S.apply d x)) (h : Bounded P allow ok subject w)
    {ws : List ω} (hws : ∀ x ∈ ws, allow x) (hdb : w'.db = S.applyAll w.db ws)
    (hother : ∀ v, v ≠ u → w'.sessions v = (w.sessions v).map (Session.note ws))
    (hnew : w'.sessions u = some ses') (hses : Within P allow ok (subject u) ses') :
    Bounded P allow ok subject w' where
  rows := hdb ▸ applyAll_keeps hP h.rows hws
  started v hv := by
    by_cases hu : v = u
    · rw [hu, hnew, Option.isSome_some]
    · rw [hother v hu, Option.isSome_map]
      exact h.started v hv
  sessions v x hx := by
    by_cases hv : v = u
    · subst hv
      obtain rfl := Option.some.inj (hnew.symm.trans hx)
      exact hses
    · obtain ⟨y, hy, rfl⟩ := Option.map_eq_some_iff.mp (hother v hv ▸ hx)
      exact within_note (h.sessions v y hy)

/-- What a subject commits in a bounded world is allowed. -/
theorem bounded_commits (hP : ∀ d x, P d → allow x → P (S.apply d x)) {e : Event γ ι ε}
    {ws : List ω} (h : Bounded P allow ok subject w) (ht : subject t) (hc : w.commit? S e = some (t, ws)) :
    ∀ x ∈ ws, ok x := by
  cases e with
  | start u call => simp [World.commit?] at hc
  | fail u e => simp [World.commit?] at hc
  | crash u => simp [World.commit?] at hc
  | step u i =>
    cases hses : w.sessions u with
    | none => simp [World.commit?, hses] at hc
    | some ses =>
      simp only [World.commit?, hses, Option.ite_none_left_eq_some, Option.some.injEq,
        Prod.mk.injEq] at hc
      obtain ⟨-, rfl, rfl⟩ := hc
      have hin := h.sessions u ses hses
      have hown := view_own hP h ht hses
      obtain ⟨prog, txn, a⟩ := ses
      cases prog with
      | stmt ws k err =>
        cases txn with
        | none => exact ((hin.prog ht).1 _ i hown).1
        | some T => simp [World.commits]
      | commit k err =>
        cases txn with
        | none => simp [World.commits]
        | some T =>
          simp only [World.commits]
          split
          · simp
          · exact hin.own ht T rfl
      | done result => simp [World.commits]
      | throw error => simp [World.commits]
      | begin ser k err => simp [World.commits]
      | rollback k => simp [World.commits]

theorem writes_true (p : Prog δ ω ι ε α) : Writes (fun _ => True) (fun _ => True) p := by
  induction p with
  | done a => trivial
  | throw e => trivial
  | begin ser k err ihk ihe => exact ⟨ihk, ihe⟩
  | stmt ws k err ihk ihe => exact ⟨fun v i _ => ⟨fun _ _ => trivial, ihk v i⟩, ihe⟩
  | commit k err ihk ihe => exact ⟨ihk, ihe⟩
  | rollback k ihk => exact ihk

/-- The pending writes of all sessions are of the kind that is issued. -/
def Pending (allow : ω → Prop) (w : World δ ω κ ι ε α) : Prop :=
  ∀ u ses, w.sessions u = some ses → ∀ T, ses.txn = some T → ∀ x ∈ T.writes, allow x

/-- Nothing more is asked of a session that is bounded by what is true. -/
theorem bounded_pending (h : Pending allow w) (hstarted : ∀ t, subject t → (w.sessions t).isSome) :
    Bounded (fun _ => True) allow (fun _ => True) subject w where
  rows := trivial
  started := hstarted
  sessions u ses hses := ⟨h u ses hses, fun _ => writes_true ses.prog, by simp, by simp⟩

theorem pending_bounded {P : δ → Prop} (h : Bounded P allow ok subject w) : Pending allow w :=
  fun u ses hses => (h.sessions u ses hses).pending

/-- A session with something to commit has been started. -/
theorem started_of_commit {e : Event γ ι ε} {ws : List ω} (hc : w.commit? S e = some (t, ws)) :
    (w.sessions t).isSome = true := by
  cases e with
  | step u i =>
    cases hses : w.sessions u with
    | none => simp [World.commit?, hses] at hc
    | some ses =>
      simp only [World.commit?, hses, Option.ite_none_left_eq_some, Option.some.injEq,
        Prod.mk.injEq] at hc
      rw [← hc.2.1, hses, Option.isSome_some]
  | start u call => simp [World.commit?] at hc
  | fail u e => simp [World.commit?] at hc
  | crash u => simp [World.commit?] at hc

variable [DecidableEq κ]

/-- Running a statement that issues writes of the kind keeps the bounds. -/
theorem bounded_advance (hP : ∀ d x, P d → allow x → P (S.apply d x)) (h : Bounded P allow ok subject w)
    {i : ι} (hses : w.sessions u = some ses) (hissued : ∀ x ∈ issued S w (.step u i : Event γ ι ε), allow x)
    (hstep : w.advance S u ses i = some w') : Bounded P allow ok subject w' := by
  have hin := h.sessions u ses hses
  have hput : ∀ (x : World δ ω κ ι ε α) s v, v ≠ u → (x.put u s).sessions v = x.sessions v :=
    fun x s v hv => by simp [hv]
  have hnew : ∀ (x : World δ ω κ ι ε α) s, (x.put u s).sessions u = some s := fun x s => by simp
  have hown : subject u → P (w.view S u ses.txn).own := fun hsub => view_own hP h hsub hses
  simp only [issued, hses] at hissued
  cases advance_cases S hstep with
  | @opened ser k err a =>
    refine bounded_quiet h rfl (hput _ _) (hnew _ _) ⟨?_, fun hsub => (hin.prog hsub).1, ?_, ?_⟩
    · rintro T hT
      obtain rfl := Option.some.inj hT
      simp [Txn.opened]
    · rintro hsub T hT
      obtain rfl := Option.some.inj hT
      simp [Txn.opened]
    · rintro hsub T d₀ hT hsnap
      obtain rfl := Option.some.inj hT
      simp only [Txn.opened, Option.ite_none_right_eq_some, Option.some.injEq] at hsnap
      exact hsnap.2 ▸ h.rows
  | @auto ws k err a hvalid hfree =>
    refine bounded_commit hP h hissued rfl (fun v hv => by rw [hput _ _ v hv, publish_sessions])
      (hnew _ _) (within_outside fun hsub => ?_)
    exact ((hin.prog hsub).1 _ i (hown hsub)).2
  | @held ws k err T a halive hvalid hfree =>
    refine bounded_quiet h rfl (hput _ _) (hnew _ _) ⟨?_, fun hsub => ?_, ?_, ?_⟩
    · rintro T' hT x hx
      obtain rfl := Option.some.inj hT
      rw [add_writes, List.mem_append] at hx
      exact hx.elim (hin.pending T rfl x) (hissued x)
    · exact ((hin.prog hsub).1 _ i (hown hsub)).2
    · rintro hsub T' hT x hx
      obtain rfl := Option.some.inj hT
      rw [add_writes, List.mem_append] at hx
      exact hx.elim (hin.own hsub T rfl x) (((hin.prog hsub).1 _ i (hown hsub)).1 x)
    · rintro hsub T' d₀ hT hsnap
      obtain rfl := Option.some.inj hT
      exact hin.snapshot hsub T d₀ rfl hsnap
  | idle => exact bounded_quiet h rfl (hput _ _) (hnew _ _) (within_outside fun hsub => (hin.prog hsub).1)
  | ended habort =>
    exact bounded_quiet h rfl (hput _ _) (hnew _ _) (within_outside fun hsub => (hin.prog hsub).1)
  | @committed k err T a halive hclash =>
    exact bounded_commit hP h (hin.pending T rfl) rfl
      (fun v hv => by rw [hput _ _ v hv, publish_sessions, release_sessions]) (hnew _ _)
      (within_outside fun hsub => (hin.prog hsub).1)
  | rolledBack =>
    exact bounded_quiet h rfl (hput _ _) (hnew _ _) (within_outside fun hsub => hin.prog hsub)

/-- So does every other event. -/
theorem bounded_step (hP : ∀ d x, P d → allow x → P (S.apply d x)) {program : γ → Prog δ ω ι ε α}
    {e : Event γ ι ε} (h : Bounded P allow ok subject w) (hissued : ∀ x ∈ issued S w e, allow x)
    (hstep : w.step S program e = some w') : Bounded P allow ok subject w' := by
  have hput : ∀ (x : World δ ω κ ι ε α) u s v, v ≠ u → (x.put u s).sessions v = x.sessions v :=
    fun x u s v hv => by simp [hv]
  have hnew : ∀ (x : World δ ω κ ι ε α) u s, (x.put u s).sessions u = some s := fun x u s => by simp
  cases step_cases S hstep with
  | @start u call hu =>
    refine bounded_quiet h rfl (hput w u _) (hnew w u _) (within_outside fun hsub => ?_)
    have hsome := h.started u hsub
    rw [hu] at hsome
    simp at hsome
  | step hses halive hadv => exact bounded_advance hP h hses hissued hadv
  | @fail u e ses _ hses halive hraise =>
    have hin := h.sessions u ses hses
    cases raise_cases hraise with
    | begin =>
      exact bounded_quiet h rfl (hput _ _ _) (hnew _ _ _)
        ⟨hin.pending, fun hsub => (hin.prog hsub).2 e, hin.own, hin.snapshot⟩
    | @stmt ws k err txn a =>
      refine bounded_quiet h rfl (hput _ _ _) (hnew _ _ _) ?_
      cases txn with
      | none => exact within_outside fun hsub => (hin.prog hsub).2 e
      | some T =>
        refine ⟨fun T' hT => ?_, fun hsub => (hin.prog hsub).2 e, fun hsub T' hT => ?_,
          fun hsub T' d₀ hT => ?_⟩
        · obtain rfl := Option.some.inj hT
          exact hin.pending T rfl
        · obtain rfl := Option.some.inj hT
          exact hin.own hsub T rfl
        · obtain rfl := Option.some.inj hT
          exact hin.snapshot hsub T d₀ rfl
    | commit =>
      exact bounded_quiet h rfl (hput _ _ _) (hnew _ _ _)
        (within_outside fun hsub => (hin.prog hsub).2 e)
  | @crash u ses hses halive =>
    exact bounded_quiet h rfl (hput _ _ _) (hnew _ _ _)
      (within_outside fun hsub => (h.sessions u ses hses).prog hsub)

/-- Every event that issues writes of the kind keeps pending writes of the
kind. -/
theorem pending_visits {program : γ → Prog δ ω ι ε α} {es : List (Event γ ι ε)}
    (hissued : Along (World.step S program) (fun w e => ∀ x ∈ issued S w e, allow x) w es)
    (h : Pending allow w) (hvisits : Visits (World.step S program) w es w') : Pending allow w' := by
  have hall := visits_invariant
    (I := Bounded (fun _ => True) allow (fun _ => True) fun _ => False)
    (fun w e w' hw he hstep => bounded_step (fun _ _ _ _ => trivial) hw he hstep)
    (bounded_pending h fun _ ht => ht.elim) hissued hvisits
  exact pending_bounded hall

/-- A property that every write of the kind keeps holds of the committed rows
in every state. -/
theorem rows_issued (hP : ∀ d x, P d → allow x → P (S.apply d x)) {program : γ → Prog δ ω ι ε α}
    {es : List (Event γ ι ε)} {d : δ} {n : ℕ}
    (hissued : Along (World.step S program) (fun w e => ∀ x ∈ issued S w e, allow x)
      (World.initial d n) es) (hd : P d)
    (hvisits : Visits (World.step S program) (World.initial d n) es w) : P w.db := by
  have hinitial : Bounded P allow (fun _ => True) (fun _ => False)
      (World.initial d n : World δ ω κ ι ε α) :=
    ⟨hd, fun _ h => h.elim, fun u ses hses => by simp [World.initial] at hses⟩
  have hall := visits_invariant (I := Bounded P allow (fun _ => True) fun _ => False)
    (fun w e w' hw he hstep => bounded_step hP hw he hstep) hinitial hissued hvisits
  exact hall.rows

/-- A session that is not there yet is not there until it is started. -/
theorem step_unstarted {program : γ → Prog δ ω ι ε α} {e : Event γ ι ε}
    (hstep : World.step S program w e = some w') (hnone : w.sessions t = none)
    (hnew : (w'.sessions t).isSome = true) : ∃ call, e = .start t call := by
  have hother : ∀ {u ses}, w.sessions u = some ses → t ≠ u := fun hses htu => by
    rw [htu, hses] at hnone
    simp at hnone
  cases step_cases S hstep with
  | @start u call hu =>
    by_cases htu : t = u
    · exact ⟨call, by rw [htu]⟩
    · simp [htu, hnone] at hnew
  | step hses halive hadv =>
    cases advance_cases S hadv <;> simp [hother hses, hnone] at hnew
  | fail hses halive hraise =>
    cases raise_cases hraise <;> simp [hother hses, hnone] at hnew
  | crash hses halive => simp [hother hses, hnone] at hnew

/-- A session that is there was started on the way. -/
theorem visits_started {program : γ → Prog δ ω ι ε α} {es : List (Event γ ι ε)} {d : δ} {n : ℕ}
    (hsome : (w.sessions t).isSome = true)
    (hvisits : Visits (World.step S program) (World.initial d n) es w) : ∃ v call v',
      Takes (World.step S program) (World.initial d n) es v (.start t call) v' := by
  have hinitial : ¬ ((World.initial d n : World δ ω κ ι ε α).sessions t).isSome = true := by
    simp [World.initial]
  obtain ⟨v, e, v', hstart, hbefore, hafter⟩ := takes_turning
    (P := fun u : World δ ω κ ι ε α => (u.sessions t).isSome = true) hinitial hsome hvisits
  obtain ⟨call, rfl⟩ := step_unstarted (takes_step hstart) (by simpa using hbefore) hafter
  exact ⟨v, call, v', hstart⟩

/-- A session that has been started stays started. -/
theorem started_visits {program : γ → Prog δ ω ι ε α} {es : List (Event γ ι ε)}
    (hsome : (w.sessions t).isSome = true) (hvisits : Visits (World.step S program) w es w') :
    (w'.sessions t).isSome = true := by
  refine visits_of_step (I := fun u : World δ ω κ ι ε α => (u.sessions t).isSome = true)
    (fun u e u' hu hstep => ?_) hsome hvisits
  cases step_cases S hstep with
  | @start v call hv =>
    by_cases htv : t = v
    · simp [htv]
    · simpa [htv] using hu
  | @step v i ses _ hses halive hadv =>
    cases advance_cases S hadv <;> by_cases htv : t = v <;> simp [htv, hu]
  | @fail v e ses _ hses halive hraise =>
    cases raise_cases hraise <;> by_cases htv : t = v <;> simp [htv, hu]
  | @crash v ses hses halive => by_cases htv : t = v <;> simp [htv, hu]

/-- A session is started by one call. -/
theorem start_once {program : γ → Prog δ ω ι ε α} {es : List (Event γ ι ε)} {s : World δ ω κ ι ε α}
    {v v' : World δ ω κ ι ε α} {call call' : γ}
    (h : Takes (World.step S program) s es v (.start t call) v')
    (h' : Takes (World.step S program) s es w (.start t call') w') : call = call' := by
  have hstarted : ∀ {c} {x x' y : World δ ω κ ι ε α} {back : List (Event γ ι ε)},
      World.step S program x (.start t c) = some x' → Visits (World.step S program) x' back y →
      ¬ y.sessions t = none := by
    intro c x x' y back hstep hvisits hnone
    have hsome : (x'.sessions t).isSome = true := by
      cases step_cases S hstep with
      | start hnew => simp
    have hlater := started_visits hsome hvisits
    simp [hnone] at hlater
  have hunstarted : ∀ {c} {x x' : World δ ω κ ι ε α},
      World.step S program x (.start t c) = some x' → x.sessions t = none := by
    intro c x x' hstep
    cases step_cases S hstep with
    | start hnew => exact hnew
  rcases takes_order h h' with ⟨front, back, -, -, hlater⟩ | ⟨-, heq⟩ | ⟨front, back, -, -, hlater⟩
  · exact absurd (hunstarted (takes_step h')) (hstarted (takes_step h) (takes_before hlater))
  · obtain ⟨-, rfl⟩ := Event.start.inj heq
    rfl
  · exact absurd (hunstarted (takes_step h)) (hstarted (takes_step h') (takes_before hlater))

/-- Whatever happens while a session is there happens after it was started. -/
theorem start_before {program : γ → Prog δ ω ι ε α} {front back : List (Event γ ι ε)}
    {s v v' : World δ ω κ ι ε α} {call : γ} {e : Event γ ι ε}
    (hf : run (World.step S program) s front = some v)
    (hstep : World.step S program v (.start t call) = some v')
    (htakes : Takes (World.step S program) s (front ++ .start t call :: back) w e w')
    (hsome : (w.sessions t).isSome = true) : Takes (World.step S program) v' back w e w' := by
  have hnone : v.sessions t = none := by
    cases step_cases S hstep with
    | start hnew => exact hnew
  have hlater : ∀ {later}, run (World.step S program) w later ≠ some v := fun hrun => by
    have hstarted := started_visits hsome (visits_last hrun)
    simp [hnone] at hstarted
  obtain ⟨front', back', hes, hf', hstep'⟩ := htakes
  rcases List.append_eq_append_iff.mp hes with ⟨mid, rfl, hmid⟩ | ⟨mid, rfl, hmid⟩
  · have hrest : run (World.step S program) v mid = some w := by
      simpa [run_append, hf] using hf'
    cases mid with
    | nil =>
      obtain rfl : v = w := by simpa using hrest
      exact absurd (run_nil v) hlater
    | cons a mid =>
      obtain ⟨rfl, rfl⟩ := List.cons.inj hmid
      exact ⟨mid, back', rfl, by simpa [hstep] using hrest, hstep'⟩
  · -- a session is started once
    have hrest : run (World.step S program) w mid = some v := by
      simpa [run_append, hf'] using hf
    exact absurd hrest hlater

/-- Whatever a call commits is allowed, when the property held as it was
started. -/
theorem commits_since_start (hP : ∀ d x, P d → allow x → P (S.apply d x))
    {program : γ → Prog δ ω ι ε α} {es : List (Event γ ι ε)} {d : δ} {n : ℕ}
    (hissued : Along (World.step S program) (fun w e => ∀ x ∈ issued S w e, allow x)
      (World.initial d n) es)
    {v v' : World δ ω κ ι ε α} {call : γ} (hcall : Writes P ok (program call))
    (hstart : Takes (World.step S program) (World.initial d n) es v (.start t call) v') (hv : P v.db)
    {e : Event γ ι ε} {ws : List ω} (htakes : Takes (World.step S program) (World.initial d n) es w e w')
    (hc : w.commit? S e = some (t, ws)) : ∀ x ∈ ws, ok x := by
  have hinitial : Pending allow (World.initial d n : World δ ω κ ι ε α) := fun u ses hses => by
    simp [World.initial] at hses
  obtain ⟨front, back, rfl, hf, hstep⟩ := hstart
  have hlater := start_before hf hstep htakes (started_of_commit hc)
  obtain ⟨hfront, hrest⟩ := along_append hissued hf
  have hpending := pending_visits hfront hinitial (visits_last hf)
  simp only [Along, hstep] at hrest
  have hbounded : Bounded P allow ok (fun u => u = t) v' := by
    cases step_cases S hstep with
    | start hnew =>
      refine ⟨hv, fun u hu => by simp [hu], fun u ses hses => ?_⟩
      by_cases hu : u = t
      · obtain rfl : ⟨program call, none, true⟩ = ses := by simpa [hu] using hses
        exact within_outside fun _ => hcall
      · have hold : v.sessions u = some ses := by simpa [hu] using hses
        exact ⟨hpending u ses hold, by simp [hu], by simp [hu], by simp [hu]⟩
  have hw := visits_invariant (I := Bounded P allow ok fun u => u = t)
    (fun w e w' hw he hstep => bounded_step hP hw he hstep) hbounded hrest.2 (takes_before hlater)
  exact bounded_commits hP hw rfl hc

/-- What is left of a session's program issues what the programs do. -/
theorem issues_visits {fits : View δ → ι → ω → Prop} {program : γ → Prog δ ω ι ε α}
    {es : List (Event γ ι ε)} {d : δ} {n : ℕ} (hprogram : ∀ call, Issues fits (program call))
    (hvisits : Visits (World.step S program) (World.initial d n) es w) (hses : w.sessions t = some ses) :
    Issues fits ses.prog := by
  refine visits_of_step (I := fun w : World δ ω κ ι ε α =>
    ∀ u ses, w.sessions u = some ses → Issues fits ses.prog) (fun w e w' hw hstep => ?_)
    (fun u ses hu => by simp [World.initial] at hu) hvisits t ses hses
  have hput : ∀ {x : World δ ω κ ι ε α} {u new},
      (∀ v ses, x.sessions v = some ses → Issues fits ses.prog) → Issues fits new.prog →
      ∀ v ses, (x.put u new).sessions v = some ses → Issues fits ses.prog := by
    intro x u new hx hnew v ses hv
    by_cases hvu : v = u
    · subst hvu
      obtain rfl : new = ses := by simpa using hv
      exact hnew
    · exact hx v ses (by simpa [hvu] using hv)
  have hpublish : ∀ {ws : List ω} v ses, (w.sessions v).map (Session.note ws) = some ses →
      Issues fits ses.prog := by
    intro ws v ses hv
    obtain ⟨old, hold, rfl⟩ := Option.map_eq_some_iff.mp hv
    exact hw v old hold
  cases step_cases S hstep with
  | @start u call hnew => exact hput hw (hprogram call)
  | step hses' halive hadv =>
    have hprog := hw _ _ hses'
    cases advance_cases S hadv with
    | opened => exact hput hw hprog.1
    | auto hvalid hfree => exact hput hpublish (hprog.1 _ _).2
    | held halive hvalid hfree => exact hput hw (hprog.1 _ _).2
    | idle => exact hput hw hprog.1
    | ended habort => exact hput hw hprog.1
    | committed halive hclash => exact hput hpublish hprog.1
    | rolledBack => exact hput hw hprog
  | fail hses' halive hraise =>
    have hprog := hw _ _ hses'
    cases raise_cases hraise with
    | _ => exact hput hw (hprog.2 _)
  | crash hses' halive =>
    have hprog := hw _ _ hses'
    exact hput hw hprog

/-- A write that is issued fits the view and the input it is issued with. -/
theorem issued_fits {fits : View δ → ι → ω → Prop} {program : γ → Prog δ ω ι ε α}
    {es : List (Event γ ι ε)} {d : δ} {n : ℕ} (hprogram : ∀ call, Issues fits (program call))
    (hvisits : Visits (World.step S program) (World.initial d n) es w) {i : ι} {x : ω}
    (hx : x ∈ issued S w (.step t i : Event γ ι ε)) : ∃ ses, w.sessions t = some ses ∧
      fits (w.view S t ses.txn) i x := by
  cases hses : w.sessions t with
  | none => simp [issued, hses] at hx
  | some ses =>
    have hprog := issues_visits hprogram hvisits hses
    obtain ⟨prog, txn, a⟩ := ses
    simp only [issued, hses] at hx
    cases prog with
    | stmt ws k err => exact ⟨_, rfl, (hprog.1 _ _).1 x hx⟩
    | _ => simp at hx

end Soundness

end LpPlatform.StatementWrites
