import LpPlatform.InterferenceLogic
import LpPlatform.SessionTrails

/-!
# Sessions that follow a protocol

A protocol gives a session a stage and says what it may commit in each stage,
and in which stage it is then. The stages are no part of the program: a program
follows the protocol when its statements, whatever they see, are moves of it and
it returns only where the protocol lets it.
Then every run of the sessions is a run of the protocol, whose states are the
committed rows, the sessions that are alive and the stages. So an invariant is
proved for the moves of the protocol, with all that is known of every session at
once, and holds in every state of a run of the programs.
-/

namespace LpPlatform.SessionProtocols

open InterferenceLogic RowStore SessionTrails Sessions StatementProgram StepRuns

variable {δ ω κ ι ε α β γ Q : Type}

/-- The stages of a session, and what it commits on its way. -/
structure Protocol (δ ω Q : Type) where
  /-- Where a session starts. -/
  start : Q
  /-- What a session may commit in a view, and where it is then. -/
  moves : View δ → Q → List ω → Q → Prop
  /-- Where a session may return. -/
  ends : Q → Prop

/-- What a session's open transaction will commit. -/
structure Pending (ω : Type) where
  /-- Its writes so far. -/
  writes : List ω
  /-- A statement of it has failed. -/
  aborted : Bool

/-- The writes of a transaction. -/
def pending (T : Txn δ ω) : Pending ω := ⟨T.writes, T.aborted⟩

/-- A property of the stage and of the open transaction. -/
abbrev Holds (ω Q : Type) := Q → Option (Pending ω) → Prop

/-- What session t commits are moves of the protocol, results meet R and
exceptions meet E. The writes of a transaction are one move, at its commit. -/
def Protocol.Follows (P : Protocol δ ω Q) (t : ℕ) :
    Prog δ ω ι ε α → (α → Holds ω Q) → (ε → Holds ω Q) → Holds ω Q
  | .done a, R, _, q, held => R a q held
  | .throw e, _, E, q, held => E e q held
  | .begin _ k err, R, E, q, held =>
    (held = none → P.Follows t k R E q (some ⟨[], false⟩)) ∧ ∀ e, P.Follows t (err e) R E q held
  | .stmt ws k err, R, E, q, held =>
    (∀ v i, v.self = t → v.alive t = true →
      match held with
      | none => v.own = v.committed → ∃ q', P.moves v q (ws v i) q' ∧ P.Follows t (k v i) R E q' none
      | some h => h.aborted = false → P.Follows t (k v i) R E q (some ⟨h.writes ++ ws v i, false⟩)) ∧
    ∀ e, P.Follows t (err e) R E q (held.map fun h => ⟨h.writes, true⟩)
  | .commit k err, R, E, q, held =>
    (match held with
      | none => P.Follows t k R E q none
      | some h =>
        (h.aborted = true → P.Follows t k R E q none) ∧
        (h.aborted = false → ∀ v, v.self = t → v.alive t = true →
          ∃ q', P.moves v q h.writes q' ∧ P.Follows t k R E q' none)) ∧
    ∀ e, P.Follows t (err e) R E q none
  | .rollback k, R, E, q, _ => P.Follows t k R E q none

section Rules

variable {P : Protocol δ ω Q} {t : ℕ} {R : α → Holds ω Q} {E : ε → Holds ω Q}

/-- A program followed by the code that uses its result. -/
theorem follows_bind (p : Prog δ ω ι ε α) (f : α → Prog δ ω ι ε β) (R : β → Holds ω Q) (E : ε → Holds ω Q) :
    P.Follows t (p.bind f) R E = P.Follows t p (fun a => P.Follows t (f a) R E) E := by
  induction p with
  | done a => rfl
  | throw e => rfl
  | begin ser k err ihk ihe => funext q held; simp only [Prog.bind, Protocol.Follows, ihk, ihe]
  | stmt ws k err ihk ihe => funext q held; simp only [Prog.bind, Protocol.Follows, ihk, ihe]
  | commit k err ihk ihe => funext q held; simp only [Prog.bind, Protocol.Follows, ihk, ihe]
  | rollback k ihk => funext q held; simp only [Prog.bind, Protocol.Follows, ihk]

/-- A program under a handler for its exceptions. -/
theorem follows_tryCatch (p : Prog δ ω ι ε α) (h : ε → Prog δ ω ι ε α) (R : α → Holds ω Q) (E : ε → Holds ω Q) :
    P.Follows t (p.tryCatch h) R E = P.Follows t p R fun e => P.Follows t (h e) R E := by
  induction p with
  | done a => rfl
  | throw e => rfl
  | begin ser k err ihk ihe => funext q held; simp only [Prog.tryCatch, Protocol.Follows, ihk, ihe]
  | stmt ws k err ihk ihe => funext q held; simp only [Prog.tryCatch, Protocol.Follows, ihk, ihe]
  | commit k err ihk ihe => funext q held; simp only [Prog.tryCatch, Protocol.Follows, ihk, ihe]
  | rollback k ihk => funext q held; simp only [Prog.tryCatch, Protocol.Follows, ihk]

/-- Weaker properties are met more easily. -/
theorem follows_mono (p : Prog δ ω ι ε α) {R' : α → Holds ω Q} {E' : ε → Holds ω Q}
    (hR : ∀ a q held, R a q held → R' a q held) (hE : ∀ e q held, E e q held → E' e q held) {q : Q}
    {held : Option (Pending ω)} (h : P.Follows t p R E q held) : P.Follows t p R' E' q held := by
  induction p generalizing q held with
  | done a => exact hR a q held h
  | throw e => exact hE e q held h
  | begin ser k err ihk ihe => exact ⟨fun hnone => ihk (h.1 hnone), fun e => ihe e (h.2 e)⟩
  | stmt ws k err ihk ihe =>
    refine ⟨fun v i hself halive => ?_, fun e => ihe e (h.2 e)⟩
    have hnext := h.1 v i hself halive
    cases held with
    | none =>
      intro hown
      obtain ⟨q', hmove, hrest⟩ := hnext hown
      exact ⟨q', hmove, ihk v i hrest⟩
    | some h => exact fun hrun => ihk v i (hnext hrun)
  | commit k err ihk ihe =>
    refine ⟨?_, fun e => ihe e (h.2 e)⟩
    cases held with
    | none => exact ihk h.1
    | some x =>
      refine ⟨fun habort => ihk (h.1.1 habort), fun hrun v hself halive => ?_⟩
      obtain ⟨q', hmove, hrest⟩ := h.1.2 hrun v hself halive
      exact ⟨q', hmove, ihk hrest⟩
  | rollback k ihk => exact ihk h

/-- A query outside a transaction may move the session too. -/
theorem follows_query {f : View δ → ι → α} {q : Q} (hE : ∀ e, E e q none)
    (hR : ∀ v i, v.self = t → v.alive t = true → v.own = v.committed →
      ∃ q', P.moves v q [] q' ∧ R (f v i) q' none) : P.Follows t (query f) R E q none :=
  ⟨hR, hE⟩

/-- A statement outside a transaction is a move. -/
theorem follows_exec {ws : View δ → ι → List ω} {f : View δ → ι → α} {q : Q} (hE : ∀ e, E e q none)
    (hR : ∀ v i, v.self = t → v.alive t = true → v.own = v.committed →
      ∃ q', P.moves v q (ws v i) q' ∧ R (f v i) q' none) : P.Follows t (exec ws f) R E q none :=
  ⟨hR, hE⟩

/-- A query in a transaction. -/
theorem follows_query_held {f : View δ → ι → α} {q : Q} {us : List ω}
    (hE : ∀ e held, E e q (some held)) (hR : ∀ v i, R (f v i) q (some ⟨us, false⟩)) :
    P.Follows t (query f) R E q (some ⟨us, false⟩) := by
  refine ⟨fun v i _ _ _ => ?_, fun e => hE e _⟩
  have hnext := hR v i
  rw [← List.append_nil us] at hnext
  exact hnext

/-- A statement in a transaction. -/
theorem follows_exec_held {ws : View δ → ι → List ω} {f : View δ → ι → α} {q : Q} {us : List ω}
    (hE : ∀ e held, E e q (some held)) (hR : ∀ v i, R (f v i) q (some ⟨us ++ ws v i, false⟩)) :
    P.Follows t (exec ws f) R E q (some ⟨us, false⟩) :=
  ⟨fun v i _ _ _ => hR v i, fun e => hE e _⟩

theorem follows_ofExcept {r : Except ε α} {q : Q} {held : Option (Pending ω)}
    (hE : ∀ e, r = .error e → E e q held) (hR : ∀ a, r = .ok a → R a q held) :
    P.Follows t (ofExcept r : Prog δ ω ι ε α) R E q held := by
  cases r with
  | ok a => exact hR a rfl
  | error e => exact hE e rfl

/-- A transaction that runs to its end is one move. -/
theorem follows_transaction {ser : Bool} {body : Prog δ ω ι ε α} {q : Q} (hE : ∀ e, E e q none)
    (hbody : P.Follows t body (fun a q' held => q' = q ∧ ∃ us, held = some ⟨us, false⟩ ∧
      ∀ v, v.self = t → v.alive t = true → ∃ q', P.moves v q us q' ∧ R a q' none)
      (fun _ q' _ => q' = q) q (some ⟨[], false⟩)) : P.Follows t (transaction ser body) R E q none := by
  refine ⟨fun _ => ?_, hE⟩
  rw [follows_tryCatch, follows_bind]
  refine follows_mono body ?_ ?_ hbody
  · rintro a q' held ⟨rfl, us, rfl, hmove⟩
    exact ⟨⟨fun habort => by simp at habort, fun _ v hself halive => hmove v hself halive⟩, fun e => hE e⟩
  · rintro e q' held rfl
    exact hE e

/-- A program that opens no transaction and emits what does not move a session
leaves it in its stage. -/
theorem follows_emits (ok : ω → Prop) {p : Prog δ ω ι ε α} {q : Q} (hp : Emits ok p)
    (hok : ∀ v ws, (∀ x ∈ ws, ok x) → P.moves v q ws q) (hR : ∀ a, R a q none) (hE : ∀ e, E e q none) :
    P.Follows t p R E q none := by
  obtain ⟨hauto, hwrites⟩ := hp
  induction p with
  | done a => exact hR a
  | throw e => exact hE e
  | begin ser k err ihk ihe => exact hauto.elim
  | stmt ws k err ihk ihe =>
    refine ⟨fun v i _ _ _ => ?_, fun e => ihe e (hauto.2 e) (hwrites.2 e)⟩
    obtain ⟨hws, hrest⟩ := hwrites.1 v i trivial
    exact ⟨q, hok v _ hws, ihk v i (hauto.1 v i) hrest⟩
  | commit k err ihk ihe => exact hauto.elim
  | rollback k ihk => exact hauto.elim

end Rules

/-- A session follows the protocol to its end. -/
def Protocol.Obeys (P : Protocol δ ω Q) (t : ℕ) (p : Prog δ ω ι ε α) : Holds ω Q :=
  P.Follows t p (fun _ q _ => P.ends q) fun _ _ _ => True

/-- The committed rows, which sessions run, and their stages. -/
structure Phase (δ Q : Type) where
  db : δ
  alive : ℕ → Bool
  stage : ℕ → Q

/-- A world with the stages of its sessions. -/
def phase (w : World δ ω κ ι ε α) (g : ℕ → Q) : Phase δ Q := ⟨w.db, w.alive, g⟩

theorem phase_eq {w : World δ ω κ ι ε α} {d : δ} {alive : ℕ → Bool} (hdb : w.db = d) (halive : w.alive = alive)
    (g : ℕ → Q) : phase w g = ⟨d, alive, g⟩ := by
  rw [phase, hdb, halive]

/-- A step of the protocol, with the writes it commits. -/
inductive Protocol.Step (P : Protocol δ ω Q) (S : KeyedRows δ ω κ) (p : Phase δ Q) :
    Event γ ι ε → List (ℕ × ω) → Phase δ Q → Prop where
  /-- A session starts. -/
  | start {t call} (hnew : p.alive t = false) (hstart : p.stage t = P.start) :
    Step P S p (.start t call) [] ⟨p.db, Function.update p.alive t true, p.stage⟩
  /-- Nothing is committed. -/
  | wait {e} : Step P S p e [] p
  /-- A session that runs moves. -/
  | move {t i v ws q} (hself : v.self = t) (hrun : p.alive t = true) (hdb : v.committed = p.db)
      (halive : v.alive = p.alive) (hvalid : S.validAll p.db ws = true) (hmove : P.moves v (p.stage t) ws q) :
      Step P S p (.step t i) (ws.map (t, ·)) ⟨S.applyAll p.db ws, p.alive, Function.update p.stage t q⟩
  /-- The process of a session dies. -/
  | crash {t} : Step P S p (.crash t) [] ⟨p.db, Function.update p.alive t false, p.stage⟩

/-- The sessions are in these stages of the protocol. -/
structure Tracked (P : Protocol δ ω Q) (w : World δ ω κ ι ε α) (g : ℕ → Q) : Prop where
  /-- A session that is not there yet will start at the start. -/
  coming : ∀ t, w.sessions t = none → g t = P.start
  /-- A running session follows the protocol from its stage. -/
  running : ∀ t ses, w.sessions t = some ses → ses.alive = true → P.Obeys t ses.prog (g t) (ses.txn.map pending)
  /-- A session that has returned did so where it may. -/
  returned : ∀ t ses a, w.sessions t = some ses → ses.prog = .done a → P.ends (g t)

section Soundness

variable {S : KeyedRows δ ω κ} {P : Protocol δ ω Q} {w w' : World δ ω κ ι ε α} {t : ℕ}
variable {ses : Session δ ω ι ε α} {g : ℕ → Q}

/-- Only the session itself is replaced, and it may be in another stage. -/
theorem tracked_put (h : Tracked P w g) (new : Session δ ω ι ε α) (q : Q)
    (hnew : P.Obeys t new.prog q (new.txn.map pending)) : Tracked P (w.put t new) (Function.update g t q) := by
  refine ⟨fun u hu => ?_, fun u x hx halive => ?_, fun u x a hx hdone => ?_⟩
  · by_cases hsame : u = t
    · subst hsame
      simp at hu
    · rw [Function.update_of_ne hsame]
      exact h.coming u (by simpa [hsame] using hu)
  · by_cases hu : u = t
    · subst hu
      obtain rfl : new = x := by simpa using hx
      rw [Function.update_self]
      exact hnew
    · rw [Function.update_of_ne hu]
      exact h.running u x (by simpa [hu] using hx) halive
  · by_cases hu : u = t
    · subst hu
      obtain rfl : new = x := by simpa using hx
      rw [Function.update_self]
      rwa [hdone] at hnew
    · rw [Function.update_of_ne hu]
      exact h.returned u x a (by simpa [hu] using hx) hdone

/-- A session that dies stays where it is. -/
theorem tracked_crash (h : Tracked P w g) (hses : w.sessions t = some ses) :
    Tracked P (w.put t { ses with txn := none, alive := false }) g := by
  refine ⟨fun u hu => ?_, fun u x hx halive => ?_, fun u x a hx hdone => ?_⟩
  · by_cases hsame : u = t
    · subst hsame
      simp at hu
    · exact h.coming u (by simpa [hsame] using hu)
  · by_cases hu : u = t
    · subst hu
      obtain rfl := Option.some.inj ((by simpa using hx) : some { ses with txn := none, alive := false } = some x)
      simp at halive
    · exact h.running u x (by simpa [hu] using hx) halive
  · by_cases hu : u = t
    · subst hu
      obtain rfl := Option.some.inj ((by simpa using hx) : some { ses with txn := none, alive := false } = some x)
      exact h.returned u ses a hses hdone
    · exact h.returned u x a (by simpa [hu] using hx) hdone

/-- What others commit does not matter to a session. -/
theorem tracked_publish (h : Tracked P w g) (ws : List ω) : Tracked P (w.publish S ws) g := by
  refine ⟨fun u hu => h.coming u (by simpa using hu), fun u x hx halive => ?_, fun u x a hx hdone => ?_⟩
  · obtain ⟨old, hold, rfl⟩ := Option.map_eq_some_iff.mp hx
    have hfollows := h.running u old hold halive
    have hsame : (old.note ws).txn.map pending = old.txn.map pending := by
      obtain ⟨prog, txn, a⟩ := old
      cases txn <;> rfl
    rw [hsame]
    exact hfollows
  · obtain ⟨old, hold, rfl⟩ := Option.map_eq_some_iff.mp hx
    exact h.returned u old a hold hdone

theorem alive_put (new : Session δ ω ι ε α) :
    (w.put t new).alive = Function.update w.alive t new.alive := by
  funext u
  by_cases hu : u = t
  · subst hu
    simp [World.alive]
  · simp [World.alive, hu]

theorem alive_publish (ws : List ω) : (w.publish S ws).alive = w.alive := by
  funext u
  simp only [World.alive, publish_sessions]
  cases w.sessions u <;> rfl

/-- A session that goes on is alive as before. -/
theorem alive_put_same (hses : w.sessions t = some ses) {x : World δ ω κ ι ε α} (hx : x.alive = w.alive)
    (new : Session δ ω ι ε α) (hnew : new.alive = ses.alive) : (x.put t new).alive = w.alive := by
  rw [alive_put, hx, hnew]
  funext u
  by_cases hu : u = t
  · subst hu
    simp [World.alive, hses]
  · simp [hu]

variable [DecidableEq κ]

omit [DecidableEq κ] in
/-- What running a statement commits. -/
theorem committed_own {i : ι} (hses : w.sessions t = some ses) :
    committed S w (.step t i : Event γ ι ε) = (w.commits S t ses i).map (t, ·) := by
  by_cases hc : w.commits S t ses i = []
  · simp [committed, World.commit?, hses, hc]
  · simp [committed, World.commit?, hses, hc]

/-- Running a statement is a step of the protocol. -/
theorem tracked_advance {i : ι} (hs : Sound (freeContract S) w) (h : Tracked P w g)
    (hses : w.sessions t = some ses) (hrun : ses.alive = true) (hstep : w.advance S t ses i = some w') :
    ∃ g', Tracked P w' g' ∧ P.Step S (phase w g) (.step t i : Event γ ι ε)
      (committed S w (.step t i : Event γ ι ε)) (phase w' g') := by
  have hfollows := h.running t ses hses hrun
  have ha : w.alive t = true := by simp [World.alive, hses, hrun]
  have hkeep : ∀ {x : World δ ω κ ι ε α}, x.db = w.db → x.alive = w.alive → w.commits S t ses i = [] →
      P.Step S (phase w g) (.step t i : Event γ ι ε) (committed S w (.step t i : Event γ ι ε))
        (phase x (Function.update g t (g t))) := by
    intro x hdb halive hnone
    rw [phase_eq hdb halive, Function.update_eq_self, committed_own hses, hnone]
    exact .wait
  cases advance_cases S hstep with
  | @opened ser k err a =>
    exact ⟨_, tracked_put h _ (g t) (hfollows.1 rfl), hkeep rfl (alive_put_same hses rfl _ rfl) rfl⟩
  | @auto ws k err a hvalid hfree =>
    obtain ⟨q, hmove, hrest⟩ := hfollows.1 (w.view S t none) i rfl ha rfl
    refine ⟨_, tracked_put (tracked_publish h _) _ q hrest, ?_⟩
    have halive : ((w.publish S (ws (w.view S t none) i)).put t ⟨k (w.view S t none) i, none, a⟩).alive = w.alive :=
      alive_put_same hses (alive_publish _) _ rfl
    rw [phase_eq rfl halive, committed_own hses]
    exact .move rfl ha rfl rfl hvalid hmove
  | @held ws k err T a habort hvalid hfree =>
    have hrest := hfollows.1 (w.view S t (some T)) i rfl ha habort
    have hpending : pending (T.add (ws (w.view S t (some T)) i)) =
        ⟨T.writes ++ ws (w.view S t (some T)) i, false⟩ := by
      rw [pending, Txn.add, habort]
    have hacquired : Tracked P { w.acquire t (S.keysOf (ws (w.view S t (some T)) i)) with
        seq := w.seq + (ws (w.view S t (some T)) i).length } g := ⟨h.coming, h.running, h.returned⟩
    refine ⟨_, tracked_put hacquired _ (g t) ?_, hkeep rfl (alive_put_same hses rfl _ rfl) rfl⟩
    rw [Option.map_some, hpending]
    exact hrest
  | @idle k err a =>
    exact ⟨_, tracked_put h _ (g t) hfollows.1, hkeep rfl (alive_put_same hses rfl _ rfl) rfl⟩
  | @ended k err T a habort =>
    have hreleased : Tracked P (w.release t) g := ⟨h.coming, h.running, h.returned⟩
    exact ⟨_, tracked_put hreleased _ (g t) (hfollows.1.1 habort), hkeep rfl (alive_put_same hses rfl _ rfl)
      (by simp [World.commits, habort])⟩
  | @committed k err T a habort hclash =>
    have hreleased : Tracked P (w.release t) g := ⟨h.coming, h.running, h.returned⟩
    obtain ⟨q, hmove, hrest⟩ := hfollows.1.2 habort (w.view S t (some T)) rfl ha
    refine ⟨_, tracked_put (tracked_publish hreleased _) _ q hrest, ?_⟩
    have halive : (((w.release t).publish S T.writes).put t ⟨k, none, a⟩).alive = w.alive :=
      alive_put_same hses (alive_publish (S := S) (w := w.release t) T.writes) _ rfl
    have hcommits : w.commits S t ⟨.commit k err, some T, a⟩ i = T.writes := by simp [World.commits, habort]
    rw [phase_eq rfl halive, committed_own hses, hcommits]
    exact .move rfl ha rfl rfl ((hs.sessions t _ hses).valid T rfl) hmove
  | @rolledBack k txn a =>
    have hreleased : Tracked P (w.release t) g := ⟨h.coming, h.running, h.returned⟩
    exact ⟨_, tracked_put hreleased _ (g t) hfollows, hkeep rfl (alive_put_same hses rfl _ rfl) rfl⟩

/-- Every step of sessions that follow the protocol is a step of it. -/
theorem tracked_step {program : γ → Prog δ ω ι ε α} {e : Event γ ι ε}
    (hprogram : ∀ t call, P.Obeys t (program call) P.start none) (hs : Sound (freeContract S) w)
    (h : Tracked P w g) (hstep : w.step S program e = some w') :
    ∃ g', Tracked P w' g' ∧ P.Step S (phase w g) e (committed S w e) (phase w' g') := by
  cases step_cases S hstep with
  | @start t call hnew =>
    have hstart := h.coming t hnew
    refine ⟨_, tracked_put h _ P.start (hprogram t call), ?_⟩
    rw [phase_eq rfl (alive_put _), ← hstart, Function.update_eq_self]
    exact .start (by simp [phase, World.alive, hnew]) hstart
  | step hses hrun hadvance => exact tracked_advance hs h hses hrun hadvance
  | @fail t e ses _ hses hrun hraise =>
    have hfollows := h.running t ses hses hrun
    have hkeep : ∀ {x : World δ ω κ ι ε α}, x.db = w.db → x.alive = w.alive →
        P.Step S (phase w g) (.fail t e : Event γ ι ε) [] (phase x (Function.update g t (g t))) := by
      intro x hdb halive
      rw [phase_eq hdb halive, Function.update_eq_self]
      exact .wait
    cases raise_cases hraise with
    | begin => exact ⟨_, tracked_put h _ (g t) (hfollows.2 e), hkeep rfl (alive_put_same hses rfl _ rfl)⟩
    | @stmt ws k err txn a =>
      refine ⟨_, tracked_put h _ (g t) ?_, hkeep rfl (alive_put_same hses rfl _ rfl)⟩
      have hrest := hfollows.2 e
      cases txn with
      | none => exact hrest
      | some T => exact hrest
    | commit =>
      have hreleased : Tracked P (w.release t) g := ⟨h.coming, h.running, h.returned⟩
      exact ⟨_, tracked_put hreleased _ (g t) (hfollows.2 e), hkeep rfl (alive_put_same hses rfl _ rfl)⟩
  | @crash t ses hses hrun =>
    have hreleased : Tracked P (w.release t) g := ⟨h.coming, h.running, h.returned⟩
    refine ⟨_, tracked_crash hreleased hses, ?_⟩
    rw [phase_eq rfl (alive_put _)]
    exact .crash

/-- An invariant of the history and the phase that the moves of a protocol keep,
under a condition on the steps, holds after every run of programs that follow
the protocol. -/
theorem protocol_runs {program : γ → Prog δ ω ι ε α} {I : List (ℕ × ω) → Phase δ Q → Prop}
    {K : World δ ω κ ι ε α → Event γ ι ε → Prop} {d : δ} {n : ℕ} {es : List (Event γ ι ε)}
    (hprogram : ∀ t call, P.Obeys t (program call) P.start none)
    (hstep : ∀ w g h e p, K w e → I h (phase w g) → P.Step S (phase w g) e (committed S w e) p →
      I (h ++ committed S w e) p)
    (hI : I [] (phase (World.initial d n : World δ ω κ ι ε α) fun _ => P.start))
    (hK : Along (World.step S program) K (World.initial d n) es)
    (hrun : run (World.step S program) (World.initial d n) es = some w) :
    ∃ g, Tracked P w g ∧ I (history S program (World.initial d n) es) (phase w g) := by
  have hinitial : Tracked P (World.initial d n : World δ ω κ ι ε α) fun _ => P.start :=
    ⟨fun _ _ => rfl, fun t ses hses => by simp [World.initial] at hses,
      fun t ses a hses => by simp [World.initial] at hses⟩
  have hboth := run_invariant (I := fun (x : World δ ω κ ι ε α) front => Sound (freeContract S) x ∧
      ∃ g, Tracked P x g ∧ I (history S program (World.initial d n) front) (phase x g))
    ⟨sound_initial trivial, _, hinitial, hI⟩ (fun front x e x' hfront hx' hback hx => ?_) hrun
  · exact hboth.2
  · obtain ⟨hsound, g, htracked, hinv⟩ := hx
    obtain ⟨g', htracked', hmove⟩ := tracked_step hprogram hsound htracked hx'
    obtain ⟨back, rfl⟩ := hback
    have hcond := (along_iff_takes _ _).mp hK x e x' ⟨front, back, rfl, hfront, hx'⟩
    refine ⟨sound_step (fun t call d n _ => keeps_free t (program call) none d n) hsound hx', g', htracked', ?_⟩
    rw [history_snoc hfront hx']
    exact hstep x g _ e _ hcond hinv hmove

/-- An invariant of the phase alone holds in every state of such a run. -/
theorem protocol_visits {program : γ → Prog δ ω ι ε α} {I : Phase δ Q → Prop}
    {K : World δ ω κ ι ε α → Event γ ι ε → Prop} {d : δ} {n : ℕ} {es : List (Event γ ι ε)}
    (hprogram : ∀ t call, P.Obeys t (program call) P.start none)
    (hstep : ∀ w g e p, K w e → I (phase w g) → P.Step S (phase w g) e (committed S w e) p → I p)
    (hI : I (phase (World.initial d n : World δ ω κ ι ε α) fun _ => P.start))
    (hK : Along (World.step S program) K (World.initial d n) es)
    (h : Visits (World.step S program) (World.initial d n) es w) : ∃ g, Tracked P w g ∧ I (phase w g) := by
  obtain ⟨front, back, rfl, hrun⟩ := h
  exact protocol_runs (I := fun _ p => I p) hprogram (fun w g _ e p => hstep w g e p) hI
    (along_append hK hrun).1 hrun

end Soundness

end LpPlatform.SessionProtocols
