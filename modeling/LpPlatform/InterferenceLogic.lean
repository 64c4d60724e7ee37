import Mathlib.Logic.Relation
import LpPlatform.Sessions
import LpPlatform.StepRuns

/-!
# Reasoning about sessions that interfere

A contract names an invariant of the committed rows and what every commit of
every session guarantees. A session relies on the same guarantee of the
others: between two of its statements they may commit any writes the contract
allows, except on rows whose locks it holds. `wp` is the weakest precondition
of a program under that interference, with one clause for each kind of
statement. When every call a world may start meets its precondition, the
invariant holds in every state reached and every commit keeps the guarantee.
-/

namespace LpPlatform.InterferenceLogic

open RowStore StatementProgram Sessions

variable {δ ω κ ι ε α β γ : Type} {S : KeyedRows δ ω κ}

/-- An invariant of the store and its sequence, and what commits guarantee. -/
structure Contract (S : KeyedRows δ ω κ) where
  /-- Holds of the committed rows and the next identity value. -/
  inv : δ → ℕ → Prop
  /-- What a nonempty list of writes guarantees in the view it is committed in. -/
  guar : View δ → List ω → Prop
  /-- Drawing identity values keeps the invariant. -/
  inv_mono : ∀ {d n m}, inv d n → n ≤ m → inv d m
  /-- A guaranteed commit keeps the invariant. -/
  inv_commit : ∀ {v ws}, inv v.committed v.seq → S.validAll v.committed ws = true →
    guar v ws → inv (S.applyAll v.committed ws) (v.seq + ws.length)

variable (C : Contract S)

/-- One step of the others while session t holds the locks of some rows. -/
inductive Contract.EnvStep (t : ℕ) (held : List κ) : δ × ℕ → δ × ℕ → Prop where
  | wait {d n m} (h : n ≤ m) : EnvStep t held (d, n) (d, m)
  | commit {v : View δ} {ws : List ω} (hself : v.self ≠ t) (halive : v.alive t = true)
      (hheld : ∀ k ∈ S.keysOf ws, k ∉ held) (hinv : C.inv v.committed v.seq)
      (hvalid : S.validAll v.committed ws = true) (hguar : C.guar v ws) :
      EnvStep t held (v.committed, v.seq) (S.applyAll v.committed ws, v.seq + ws.length)

/-- What the others may have done between two statements of session t. -/
def Contract.Env (t : ℕ) (held : List κ) (d : δ) (n : ℕ) (d' : δ) (n' : ℕ) : Prop :=
  Relation.ReflTransGen (C.EnvStep t held) (d, n) (d', n')

/-- Keys of the rows an open transaction has locked. -/
def heldKeys (S : KeyedRows δ ω κ) : Option (Txn δ ω) → List κ
  | none => []
  | some T => S.keysOf T.writes

/-- A property of the open transaction, the committed rows and the sequence. -/
abbrev Assertion (δ ω : Type) := Option (Txn δ ω) → δ → ℕ → Prop

/-- A statement of session t in a view of the committed rows d and sequence n. -/
structure Sees (S : KeyedRows δ ω κ) (t : ℕ) (txn : Option (Txn δ ω)) (d : δ) (n : ℕ)
    (v : View δ) : Prop where
  /-- The committed rows are d. -/
  committed : v.committed = d
  /-- The session reads its snapshot or d, under its own writes. -/
  own : v.own = match txn with | none => d | some T => T.own S d
  /-- The next identity value is n. -/
  seq : v.seq = n
  /-- The statement is the session's own. -/
  self : v.self = t
  /-- Its process runs. -/
  alive : v.alive t = true

theorem Sees.own_some {t : ℕ} {T : Txn δ ω} {d : δ} {n : ℕ} {v : View δ}
    (h : Sees S t (some T) d n v) : v.own = T.own S d := h.own

theorem Sees.own_none {t : ℕ} {d : δ} {n : ℕ} {v : View δ} (h : Sees S t none d n v) :
    v.own = d := h.own

/-- The committed rows extend the snapshot of a serializable transaction by
writes that do not clash with its own. -/
def Unclashed (S : KeyedRows δ ω κ) (T : Txn δ ω) (d : δ) : Prop :=
  ∀ d₀, T.snapshot = some d₀ → ∃ since, d = S.applyAll d₀ since ∧
    ∀ a ∈ since, ∀ b ∈ T.writes, S.clash a b = false

/-- The weakest precondition of a program run by session t: whatever the
others commit between its statements, every commit keeps the guarantee, a
result meets Q and an exception meets E. -/
def wp (t : ℕ) : Prog δ ω ι ε α → (α → Assertion δ ω) → (ε → Assertion δ ω) →
    Assertion δ ω
  | .done a, Q, _, txn, d, n => Q a txn d n
  | .throw e, _, E, txn, d, n => E e txn d n
  | .begin ser k err, Q, E, txn, d, n =>
    ∀ d' n', C.Env t (heldKeys S txn) d n d' n' → C.inv d' n' →
      (txn = none → wp t k Q E (some (.opened ser d')) d' n') ∧
      ∀ e, wp t (err e) Q E txn d' n'
  | .stmt ws k err, Q, E, txn, d, n =>
    ∀ d' n', C.Env t (heldKeys S txn) d n d' n' → C.inv d' n' →
      (∀ v i, Sees S t txn d' n' v →
        match txn with
        | none =>
          S.validAll d' (ws v i) = true →
            (ws v i ≠ [] → C.guar v (ws v i)) ∧
            wp t (k v i) Q E none (S.applyAll d' (ws v i)) (n' + (ws v i).length)
        | some T =>
          T.aborted = false → S.validAll (S.applyAll d' T.writes) (ws v i) = true →
            wp t (k v i) Q E (some (T.add (ws v i))) d' (n' + (ws v i).length)) ∧
      ∀ e, wp t (err e) Q E (txn.map Txn.abort) d' n'
  | .commit k err, Q, E, txn, d, n =>
    ∀ d' n', C.Env t (heldKeys S txn) d n d' n' → C.inv d' n' →
      (match txn with
        | none => wp t k Q E none d' n'
        | some T =>
          (T.aborted = true → wp t k Q E none d' n') ∧
          (T.aborted = false → S.validAll d' T.writes = true → Unclashed S T d' →
            (T.writes ≠ [] → ∀ v, Sees S t txn d' n' v → C.guar v T.writes) ∧
            wp t k Q E none (S.applyAll d' T.writes) (n' + T.writes.length))) ∧
      ∀ e, wp t (err e) Q E none d' n'
  | .rollback k, Q, E, _, d, n => wp t k Q E none d n

section Env

variable {C} {t : ℕ} {held : List κ} {d d' d'' : δ} {n n' n'' : ℕ}

theorem env_refl : C.Env t held d n d n := Relation.ReflTransGen.refl

theorem env_trans (h : C.Env t held d n d' n') (h' : C.Env t held d' n' d'' n'') :
    C.Env t held d n d'' n'' := Relation.ReflTransGen.trans h h'

/-- The sequence may grow while nothing is committed. -/
theorem env_wait (h : C.Env t held d n d' n') (k : ℕ) : C.Env t held d n d' (n' + k) :=
  Relation.ReflTransGen.tail h (.wait (Nat.le_add_right n' k))

/-- A session that holds fewer locks relies on less. -/
theorem env_mono {held' : List κ} (hsub : ∀ k ∈ held', k ∈ held)
    (h : C.Env t held d n d' n') : C.Env t held' d n d' n' := by
  refine Relation.ReflTransGen.mono (fun a b hab => ?_) _ _ h
  cases hab with
  | wait h => exact .wait h
  | commit hself halive hheld hinv hvalid hguar =>
    exact .commit hself halive (fun k hk hm => hheld k hk (hsub k hm)) hinv hvalid hguar

/-- More writes hold more locks. -/
theorem env_add {T : Txn δ ω} {ws : List ω} (h : C.Env t (S.keysOf (T.add ws).writes) d n d' n') :
    C.Env t (S.keysOf T.writes) d n d' n' := by
  refine env_mono (fun k hk => ?_) h
  simp only [add_writes, KeyedRows.keysOf, List.flatMap_append, List.mem_append]
  exact Or.inl hk

/-- A property that waiting and the guaranteed commits of the others keep
still holds at the session's next statement. -/
theorem env_stable (P : δ → ℕ → Prop) (hwait : ∀ d n m, n ≤ m → P d n → P d m)
    (hcommit : ∀ v ws, v.self ≠ t → v.alive t = true → (∀ k ∈ S.keysOf ws, k ∉ held) →
      C.inv v.committed v.seq → S.validAll v.committed ws = true → C.guar v ws →
      P v.committed v.seq → P (S.applyAll v.committed ws) (v.seq + ws.length))
    (h : C.Env t held d n d' n') (hP : P d n) : P d' n' := by
  have hpair : ∀ a b, Relation.ReflTransGen (C.EnvStep t held) a b → P a.1 a.2 → P b.1 b.2 := by
    intro a b hab ha
    induction hab with
    | refl => exact ha
    | tail _ hstep ih =>
      cases hstep with
      | wait hle => exact hwait _ _ _ hle ih
      | commit hself halive hheld hinv hvalid hguar =>
        exact hcommit _ _ hself halive hheld hinv hvalid hguar ih
  exact hpair _ _ h hP

/-- The sequence only grows. -/
theorem env_seq (h : C.Env t held d n d' n') : n ≤ n' :=
  env_stable (fun _ m => n ≤ m) (fun _ _ _ hle hm => Nat.le_trans hm hle)
    (fun _ _ _ _ _ _ _ _ hm => Nat.le_trans hm (Nat.le_add_right _ _)) h (Nat.le_refl n)

/-- The slices of rows whose locks the session holds do not change. -/
theorem env_slice {k : κ} (hk : k ∈ held) (h : C.Env t held d n d' n') :
    S.slice d' k = S.slice d k :=
  env_stable (fun x _ => S.slice x k = S.slice d k) (fun _ _ _ _ hx => hx)
    (fun v ws _ _ hheld _ _ _ hx =>
      (slice_applyAll S ws v.committed fun hm => hheld k hm hk).trans hx) h rfl

end Env

section Rules

variable {C} {t : ℕ} {Q Q' : α → Assertion δ ω} {E E' : ε → Assertion δ ω}

/-- A program followed by the code that uses its result. -/
theorem wp_bind (p : Prog δ ω ι ε α) (f : α → Prog δ ω ι ε β) (R : β → Assertion δ ω)
    (E : ε → Assertion δ ω) :
    wp C t (p.bind f) R E = wp C t p (fun a => wp C t (f a) R E) E := by
  induction p with
  | done a => rfl
  | throw e => rfl
  | begin ser k err ihk ihe => funext txn d n; simp only [Prog.bind, wp, ihk, ihe]
  | stmt ws k err ihk ihe => funext txn d n; simp only [Prog.bind, wp, ihk, ihe]
  | commit k err ihk ihe => funext txn d n; simp only [Prog.bind, wp, ihk, ihe]
  | rollback k ihk => funext txn d n; simp only [Prog.bind, wp, ihk]

/-- A program under a handler for its exceptions. -/
theorem wp_tryCatch (p : Prog δ ω ι ε α) (h : ε → Prog δ ω ι ε α) (Q : α → Assertion δ ω)
    (E : ε → Assertion δ ω) :
    wp C t (p.tryCatch h) Q E = wp C t p Q fun e => wp C t (h e) Q E := by
  induction p with
  | done a => rfl
  | throw e => rfl
  | begin ser k err ihk ihe => funext txn d n; simp only [Prog.tryCatch, wp, ihk, ihe]
  | stmt ws k err ihk ihe => funext txn d n; simp only [Prog.tryCatch, wp, ihk, ihe]
  | commit k err ihk ihe => funext txn d n; simp only [Prog.tryCatch, wp, ihk, ihe]
  | rollback k ihk => funext txn d n; simp only [Prog.tryCatch, wp, ihk]

/-- Weaker postconditions ask for less. -/
theorem wp_mono (p : Prog δ ω ι ε α) (hQ : ∀ a txn d n, Q a txn d n → Q' a txn d n)
    (hE : ∀ e txn d n, E e txn d n → E' e txn d n) {txn : Option (Txn δ ω)} {d : δ} {n : ℕ}
    (h : wp C t p Q E txn d n) : wp C t p Q' E' txn d n := by
  induction p generalizing txn d n with
  | done a => exact hQ a txn d n h
  | throw e => exact hE e txn d n h
  | begin ser k err ihk ihe =>
    intro d' n' henv hinv
    obtain ⟨hk, herr⟩ := h d' n' henv hinv
    exact ⟨fun hnone => ihk (hk hnone), fun e => ihe e (herr e)⟩
  | stmt ws k err ihk ihe =>
    intro d' n' henv hinv
    obtain ⟨hk, herr⟩ := h d' n' henv hinv
    refine ⟨fun v i hv => ?_, fun e => ihe e (herr e)⟩
    have hnext := hk v i hv
    cases txn with
    | none => exact fun hvalid => ⟨(hnext hvalid).1, ihk v i (hnext hvalid).2⟩
    | some T => exact fun halive hvalid => ihk v i (hnext halive hvalid)
  | commit k err ihk ihe =>
    intro d' n' henv hinv
    obtain ⟨hk, herr⟩ := h d' n' henv hinv
    refine ⟨?_, fun e => ihe e (herr e)⟩
    cases txn with
    | none => exact ihk hk
    | some T =>
      refine ⟨fun habort => ihk (hk.1 habort), fun halive hvalid hclash => ?_⟩
      exact ⟨(hk.2 halive hvalid hclash).1, ihk (hk.2 halive hvalid hclash).2⟩
  | rollback k ihk => exact ihk h

/-- A precondition still holds after the others have committed. -/
theorem wp_env (p : Prog δ ω ι ε α)
    (hQ : ∀ a txn d n d' n', C.Env t (heldKeys S txn) d n d' n' → Q a txn d n → Q a txn d' n')
    (hE : ∀ e txn d n d' n', C.Env t (heldKeys S txn) d n d' n' → E e txn d n → E e txn d' n')
    {txn : Option (Txn δ ω)} {d d' : δ} {n n' : ℕ} (henv : C.Env t (heldKeys S txn) d n d' n')
    (h : wp C t p Q E txn d n) : wp C t p Q E txn d' n' := by
  induction p generalizing txn d n d' n' with
  | done a => exact hQ a txn d n d' n' henv h
  | throw e => exact hE e txn d n d' n' henv h
  | begin ser k err ihk ihe => exact fun x m hx hi => h x m (env_trans henv hx) hi
  | stmt ws k err ihk ihe => exact fun x m hx hi => h x m (env_trans henv hx) hi
  | commit k err ihk ihe => exact fun x m hx hi => h x m (env_trans henv hx) hi
  | rollback k ihk =>
    have hweak : C.Env t (heldKeys S none) d n d' n' :=
      env_mono (fun k hk => absurd hk (by simp [heldKeys])) henv
    exact ihk hweak h

/-- What every write keeps may be assumed wherever the program ends. -/
theorem wp_frame (P : δ → Prop) (hP : ∀ d ws, P d → P (S.applyAll d ws)) (p : Prog δ ω ι ε α)
    {txn : Option (Txn δ ω)} {d : δ} {n : ℕ} (hd : P d)
    (h : wp C t p (fun a txn d n => P d → Q a txn d n) (fun e txn d n => P d → E e txn d n) txn d n) :
    wp C t p Q E txn d n := by
  have hstable : ∀ {held d n d' n'}, C.Env t held d n d' n' → P d → P d' := fun henv =>
    env_stable (fun x _ => P x) (fun _ _ _ _ hx => hx) (fun v ws _ _ _ _ _ _ hx => hP _ ws hx) henv
  induction p generalizing txn d n with
  | done a => exact h hd
  | throw e => exact h hd
  | begin ser k err ihk ihe =>
    intro d' n' henv hinv
    obtain ⟨hk, herr⟩ := h d' n' henv hinv
    exact ⟨fun hnone => ihk (hstable henv hd) (hk hnone), fun e => ihe e (hstable henv hd) (herr e)⟩
  | stmt ws k err ihk ihe =>
    intro d' n' henv hinv
    obtain ⟨hk, herr⟩ := h d' n' henv hinv
    refine ⟨fun v i hv => ?_, fun e => ihe e (hstable henv hd) (herr e)⟩
    have hnext := hk v i hv
    cases txn with
    | none =>
      exact fun hvalid => ⟨(hnext hvalid).1, ihk v i (hP _ _ (hstable henv hd)) (hnext hvalid).2⟩
    | some T => exact fun halive hvalid => ihk v i (hstable henv hd) (hnext halive hvalid)
  | commit k err ihk ihe =>
    intro d' n' henv hinv
    obtain ⟨hk, herr⟩ := h d' n' henv hinv
    refine ⟨?_, fun e => ihe e (hstable henv hd) (herr e)⟩
    cases txn with
    | none => exact ihk (hstable henv hd) hk
    | some T =>
      refine ⟨fun habort => ihk (hstable henv hd) (hk.1 habort), fun halive hvalid hclash => ?_⟩
      exact ⟨(hk.2 halive hvalid hclash).1,
        ihk (hP _ _ (hstable henv hd)) (hk.2 halive hvalid hclash).2⟩
  | rollback k ihk => exact ihk hd h

/-- A program whose exceptions roll back meets its precondition when its body
does, from the snapshot the transaction opens with. -/
theorem wp_transaction (ser : Bool) (body : Prog δ ω ι ε α) {d : δ} {n : ℕ}
    (hE : ∀ e d n, E e none d n)
    (hbody : ∀ d' n', C.Env t [] d n d' n' → C.inv d' n' →
      wp C t body (fun a => wp C t (.commit (.done a) .throw : Prog δ ω ι ε α) Q E)
        (fun _ _ _ _ => True) (some (.opened ser d')) d' n') :
    wp C t (transaction ser body) Q E none d n := by
  intro d' n' henv hinv
  refine ⟨fun _ => ?_, fun e => hE e d' n'⟩
  rw [wp_tryCatch, wp_bind]
  refine wp_mono body (fun a txn x m h => ?_) (fun e txn x m _ => hE e x m) (hbody d' n' henv hinv)
  refine wp_mono (.commit (.done a) .throw) (fun _ _ _ _ h => h) (fun e _ x m _ => ?_) h
  exact hE e x m

/-- Committing an open transaction. -/
theorem wp_commit {a : α} {T : Txn δ ω} {d : δ} {n : ℕ} (hrun : T.aborted = false)
    (hE : ∀ e d n, E e none d n)
    (hQ : ∀ d' n', C.Env t (S.keysOf T.writes) d n d' n' → C.inv d' n' →
      S.validAll d' T.writes = true → Unclashed S T d' →
      (∀ v, Sees S t (some T) d' n' v → C.guar v T.writes) ∧
        Q a none (S.applyAll d' T.writes) (n' + T.writes.length)) :
    wp C t (.commit (.done a) .throw : Prog δ ω ι ε α) Q E (some T) d n := by
  intro d' n' henv hinv
  refine ⟨⟨fun habort => ?_, fun _ hvalid hclash => ?_⟩, fun e => hE e d' n'⟩
  · simp [hrun] at habort
  · obtain ⟨hguar, hdone⟩ := hQ d' n' henv hinv hvalid hclash
    exact ⟨fun _ => hguar, hdone⟩

/-- A query inside a transaction. -/
theorem wp_query {f : View δ → ι → α} {T : Txn δ ω} {d : δ} {n : ℕ}
    (hE : ∀ e T d n, E e (some T) d n)
    (hQ : ∀ v i d' n', C.Env t (S.keysOf T.writes) d n d' n' → C.inv d' n' →
      Sees S t (some T) d' n' v → Q (f v i) (some T) d' n') :
    wp C t (query f) Q E (some T) d n := by
  intro d' n' henv hinv
  refine ⟨fun v i hv _ _ => ?_, fun e => hE e _ d' n'⟩
  rw [add_nil]
  exact hQ v i d' n' henv hinv hv

/-- A statement that writes inside a transaction. -/
theorem wp_exec {ws : View δ → ι → List ω} {f : View δ → ι → α} {T : Txn δ ω} {d : δ} {n : ℕ}
    (hE : ∀ e T d n, E e (some T) d n)
    (hQ : ∀ v i d' n', C.Env t (S.keysOf T.writes) d n d' n' → C.inv d' n' →
      Sees S t (some T) d' n' v → S.validAll (S.applyAll d' T.writes) (ws v i) = true →
      Q (f v i) (some (T.add (ws v i))) d' (n' + (ws v i).length)) :
    wp C t (exec ws f) Q E (some T) d n := by
  intro d' n' henv hinv
  exact ⟨fun v i hv _ hvalid => hQ v i d' n' henv hinv hv hvalid, fun e => hE e _ d' n'⟩

/-- A query outside a transaction. -/
theorem wp_query_auto {f : View δ → ι → α} {d : δ} {n : ℕ} (hE : ∀ e d n, E e none d n)
    (hQ : ∀ v i d' n', C.Env t [] d n d' n' → C.inv d' n' → Sees S t none d' n' v →
      Q (f v i) none d' n') :
    wp C t (query f) Q E none d n := by
  intro d' n' henv hinv
  refine ⟨fun v i hv _ => ⟨fun hne => absurd rfl hne, hQ v i d' n' henv hinv hv⟩, ?_⟩
  exact fun e => hE e d' n'

/-- A statement outside a transaction commits its own writes. -/
theorem wp_exec_auto {ws : View δ → ι → List ω} {f : View δ → ι → α} {d : δ} {n : ℕ}
    (hE : ∀ e d n, E e none d n)
    (hguar : ∀ v i d' n', C.Env t [] d n d' n' → C.inv d' n' → Sees S t none d' n' v →
      S.validAll d' (ws v i) = true → ws v i ≠ [] → C.guar v (ws v i))
    (hQ : ∀ v i d' n', C.Env t [] d n d' n' → C.inv d' n' → Sees S t none d' n' v →
      S.validAll d' (ws v i) = true →
      Q (f v i) none (S.applyAll d' (ws v i)) (n' + (ws v i).length)) :
    wp C t (exec ws f) Q E none d n := by
  intro d' n' henv hinv
  refine ⟨fun v i hv hvalid => ⟨fun hne => ?_, ?_⟩, fun e => hE e d' n'⟩
  · exact hguar v i d' n' henv hinv hv hvalid hne
  · exact hQ v i d' n' henv hinv hv hvalid

/-- A computed result or its error. -/
theorem wp_ofExcept {r : Except ε α} {txn : Option (Txn δ ω)} {d : δ} {n : ℕ}
    (hE : ∀ e, r = .error e → E e txn d n) (hQ : ∀ a, r = .ok a → Q a txn d n) :
    wp C t (ofExcept r : Prog δ ω ι ε α) Q E txn d n := by
  cases r with
  | ok a => exact hQ a rfl
  | error e => exact hE e rfl

end Rules

/-- A program that keeps the contract, whatever it returns. -/
def Contract.Keeps (t : ℕ) (p : Prog δ ω ι ε α) : Assertion δ ω :=
  wp C t p (fun _ _ _ _ => True) fun _ _ _ _ => True

/-- What is known of a session between two of its statements. -/
structure SessionOk (w : World δ ω κ ι ε α) (t : ℕ) (ses : Session δ ω ι ε α) : Prop where
  /-- It holds the lock of every row its transaction wrote. -/
  locked : ∀ k ∈ heldKeys S ses.txn, w.locks k = some t
  /-- Its writes violate no constraint on the committed rows. -/
  valid : ∀ T, ses.txn = some T → S.validAll w.db T.writes = true
  /-- The committed rows are its snapshot and what the others committed since. -/
  since : ∀ T d₀, ses.txn = some T → T.snapshot = some d₀ → w.db = S.applyAll d₀ T.since
  /-- The rest of its program keeps the contract. -/
  keeps : ses.alive = true → C.Keeps t ses.prog ses.txn w.db w.seq
  /-- A dead process has no transaction. -/
  dead : ses.alive = false → ses.txn = none

/-- The invariant of a world whose sessions all keep the contract. -/
structure Sound (w : World δ ω κ ι ε α) : Prop where
  /-- The invariant holds of the committed rows. -/
  inv : C.inv w.db w.seq
  /-- Every session is in order. -/
  sessions : ∀ t ses, w.sessions t = some ses → SessionOk C w t ses

section Soundness

variable {C} {w w' : World δ ω κ ι ε α} {t u : ℕ} {ses : Session δ ω ι ε α}

theorem keeps_env {p : Prog δ ω ι ε α} {txn : Option (Txn δ ω)} {d d' : δ} {n n' : ℕ}
    (henv : C.Env t (heldKeys S txn) d n d' n') (h : C.Keeps t p txn d n) :
    C.Keeps t p txn d' n' :=
  wp_env p (fun _ _ _ _ _ _ _ _ => trivial) (fun _ _ _ _ _ _ _ _ => trivial) henv h

/-- What the others have committed since a transaction opened does not matter
to the rest of its program. -/
theorem keeps_since {p : Prog δ ω ι ε α} {T : Txn δ ω} {d : δ} {n : ℕ} (since : List ω)
    (h : C.Keeps t p (some T) d n) : C.Keeps t p (some { T with since := since }) d n := by
  induction p generalizing T d n with
  | done a => trivial
  | throw e => trivial
  | begin ser k err ihk ihe =>
    intro d' n' henv hinv
    exact ⟨fun hnone => by simp at hnone, fun e => ihe e ((h d' n' henv hinv).2 e)⟩
  | stmt ws k err ihk ihe =>
    intro d' n' henv hinv
    obtain ⟨hk, herr⟩ := h d' n' henv hinv
    refine ⟨fun v i hv halive hvalid => ?_, fun e => ihe e (herr e)⟩
    exact ihk v i (hk v i ⟨hv.committed, hv.own, hv.seq, hv.self, hv.alive⟩ halive hvalid)
  | commit k err ihk ihe =>
    intro d' n' henv hinv
    obtain ⟨⟨habort, hk⟩, herr⟩ := h d' n' henv hinv
    refine ⟨⟨habort, fun halive hvalid hclash => ?_⟩, herr⟩
    obtain ⟨hguar, hnext⟩ := hk halive hvalid hclash
    exact ⟨fun hne v hv => hguar hne v ⟨hv.committed, hv.own, hv.seq, hv.self, hv.alive⟩, hnext⟩
  | rollback k ihk => exact h

/-- A session is not disturbed by a step that commits nothing and takes none
of its locks. -/
theorem ok_quiet (h : SessionOk C w t ses) (hdb : w'.db = w.db) (hseq : w.seq ≤ w'.seq)
    (hlocks : ∀ k, w.locks k = some t → w'.locks k = some t) : SessionOk C w' t ses where
  locked k hk := hlocks k (h.locked k hk)
  valid T hT := hdb ▸ h.valid T hT
  since T d₀ hT hd := hdb ▸ h.since T d₀ hT hd
  keeps hrun := by
    rw [hdb]
    exact keeps_env (Relation.ReflTransGen.single (.wait hseq)) (h.keeps hrun)
  dead := h.dead

/-- A session is not disturbed by what another session commits, on rows it
has not locked and within the contract. -/
theorem ok_commit {v : View δ} {ws : List ω} (h : SessionOk C w t ses)
    (hses : w.sessions t = some ses) (hinv : C.inv w.db w.seq) (hd : v.committed = w.db)
    (hn : v.seq = w.seq) (ha : v.alive = w.alive) (hself : v.self ≠ t)
    (hfree : ∀ k ∈ S.keysOf ws, w.locks k ≠ some t) (hvalid : S.validAll w.db ws = true)
    (hguar : C.guar v ws) (hdb : w'.db = S.applyAll w.db ws) (hseq : w'.seq = w.seq + ws.length)
    (hlocks : ∀ k, w.locks k = some t → w'.locks k = some t) :
    SessionOk C w' t (ses.note ws) := by
  have hheld : ∀ k ∈ S.keysOf ws, k ∉ heldKeys S ses.txn := fun k hk hm =>
    hfree k hk (h.locked k hm)
  have hkeys : heldKeys S (ses.note ws).txn = heldKeys S ses.txn := by
    simp only [Session.note]
    cases ses.txn <;> rfl
  refine ⟨fun k hk => hlocks k (h.locked k (hkeys ▸ hk)), ?_, ?_, ?_, ?_⟩
  · intro T hT
    obtain ⟨T₀, hT₀, rfl⟩ := Option.map_eq_some_iff.mp hT
    rw [hdb, validAll_apart S w.db fun k hk hm => hheld k hk (by simpa [hT₀, heldKeys] using hm)]
    exact h.valid T₀ hT₀
  · intro T d₀ hT hd₀
    obtain ⟨T₀, hT₀, rfl⟩ := Option.map_eq_some_iff.mp hT
    rw [hdb, h.since T₀ d₀ hT₀ hd₀, applyAll_append]
  · intro hrun
    have hwatch : v.alive t = true := by simp [ha, World.alive, hses, show ses.alive = true from hrun]
    have henv : C.Env t (heldKeys S ses.txn) w.db w.seq w'.db w'.seq := by
      rw [hdb, hseq, ← hd, ← hn]
      exact Relation.ReflTransGen.single
        (.commit hself hwatch hheld (hd ▸ hn ▸ hinv) (hd ▸ hvalid) hguar)
    have hkeep := keeps_env henv (h.keeps hrun)
    obtain ⟨p, txn, a⟩ := ses
    cases txn with
    | none => exact hkeep
    | some T => exact keeps_since (T.since ++ ws) hkeep
  · intro hdead
    simpa [Session.note] using h.dead hdead

/-- A step of session t that commits nothing. -/
theorem sound_quiet (hs : Sound C w) (hdb : w'.db = w.db) (hseq : w.seq ≤ w'.seq)
    (hother : ∀ u, u ≠ t → w'.sessions u = w.sessions u)
    (hlocks : ∀ u k, u ≠ t → w.locks k = some u → w'.locks k = some u)
    (hself : ∀ ses, w'.sessions t = some ses → SessionOk C w' t ses) : Sound C w' where
  inv := hdb ▸ C.inv_mono hs.inv hseq
  sessions u ses hu := by
    by_cases hut : u = t
    · subst hut
      exact hself ses hu
    · rw [hother u hut] at hu
      exact ok_quiet (hs.sessions u ses hu) hdb hseq fun k hk => hlocks u k hut hk

/-- A step of session t that commits some writes. -/
theorem sound_commit {v : View δ} {ws : List ω} (hs : Sound C w) (hd : v.committed = w.db)
    (hn : v.seq = w.seq) (ha : v.alive = w.alive) (hv : v.self = t)
    (hfree : ∀ u, u ≠ t → ∀ k ∈ S.keysOf ws, w.locks k ≠ some u)
    (hvalid : S.validAll w.db ws = true) (hguar : ws ≠ [] → C.guar v ws)
    (hdb : w'.db = S.applyAll w.db ws) (hseq : w'.seq = w.seq + ws.length)
    (hother : ∀ u, u ≠ t → w'.sessions u = (w.sessions u).map (Session.note ws))
    (hlocks : ∀ u k, u ≠ t → w.locks k = some u → w'.locks k = some u)
    (hself : ∀ ses, w'.sessions t = some ses → SessionOk C w' t ses) : Sound C w' := by
  by_cases hws : ws = []
  · subst hws
    refine sound_quiet hs hdb (by simp [hseq]) (fun u hu => ?_) hlocks hself
    rw [hother u hu]
    cases w.sessions u with
    | none => rfl
    | some ses => cases ses with | mk p txn a => cases txn <;> simp [Session.note]
  · have hg := hguar hws
    refine ⟨?_, fun u ses hu => ?_⟩
    · rw [hdb, hseq, ← hd, ← hn]
      exact C.inv_commit (hd ▸ hn ▸ hs.inv) (hd ▸ hvalid) hg
    · by_cases hut : u = t
      · subst hut
        exact hself ses hu
      · rw [hother u hut] at hu
        obtain ⟨ses₀, hses₀, rfl⟩ := Option.map_eq_some_iff.mp hu
        exact ok_commit (hs.sessions u ses₀ hses₀) hses₀ hs.inv hd hn ha
          (fun h => hut (h.symm.trans hv)) (hfree u hut) hvalid hg hdb hseq
          fun k hk => hlocks u k hut hk

theorem release_lock {k : κ} (hut : u ≠ t) (hk : w.locks k = some u) :
    (w.release t).locks k = some u := by
  have hne : w.locks k ≠ some t := by
    rw [hk]
    exact fun h => hut (Option.some.inj h)
  simpa [World.release, hne] using hk

/-- A session outside a transaction is in order when its program keeps the
contract. -/
theorem ok_outside {p : Prog δ ω ι ε α} {a : Bool} (h : a = true → C.Keeps t p none w.db w.seq) :
    SessionOk C w t ⟨p, none, a⟩ where
  locked k hk := absurd hk (by simp [heldKeys])
  valid T hT := by simp at hT
  since T d₀ hT := by simp at hT
  keeps := h
  dead _ := rfl

/-- The view of a statement of a running session. -/
theorem sees_view (S : KeyedRows δ ω κ) {txn : Option (Txn δ ω)} (ha : w.alive t = true) :
    Sees S t txn w.db w.seq (w.view S t txn) :=
  ⟨rfl, rfl, rfl, rfl, ha⟩

/-- A serializable transaction that may commit does not clash with anything
committed since its snapshot. -/
theorem unclashed_of_since {T : Txn δ ω} {d : δ}
    (hsince : ∀ d₀, T.snapshot = some d₀ → d = S.applyAll d₀ T.since)
    (hclash : T.clashes S = false) : Unclashed S T d := by
  intro d₀ hd₀
  refine ⟨T.since, hsince d₀ hd₀, fun a ha b hb => ?_⟩
  have hnone := hclash
  simp only [Txn.clashes, hd₀, Option.isSome_some, Bool.true_and, List.any_eq_false,
    Bool.not_eq_true] at hnone
  exact hnone a ha b hb

theorem free_lock {ks : List κ} {k : κ} (h : w.free t ks = true) (hk : k ∈ ks) (hut : u ≠ t) :
    w.locks k ≠ some u := by
  have hfree := List.all_eq_true.mp h k hk
  intro hu
  rw [hu] at hfree
  simp [hut] at hfree

theorem sound_initial {d : δ} {n : ℕ} (hd : C.inv d n) :
    Sound C (World.initial d n : World δ ω κ ι ε α) :=
  ⟨hd, fun t ses h => by simp [World.initial] at h⟩

/-- Failing a statement keeps a sound world sound. -/
theorem sound_raise {e : ε} (hs : Sound C w) (hses : w.sessions t = some ses)
    (hrun : ses.alive = true) (h : w.raise t ses e = some w') : Sound C w' := by
  have hok := hs.sessions t ses hses
  have hkeep := hok.keeps hrun
  have hput : ∀ (x : World δ ω κ ι ε α) ses' u, u ≠ t →
      (x.put t ses').sessions u = x.sessions u := fun x ses' u hu => by simp [hu]
  cases raise_cases h with
  | @begin ser k err txn a =>
    obtain ⟨-, herr⟩ := hkeep w.db w.seq env_refl hs.inv
    refine sound_quiet hs rfl (Nat.le_refl _) (hput w _) (fun _ _ _ hk => hk) fun ses' hses' => ?_
    obtain rfl : ⟨err e, txn, a⟩ = ses' := by simpa using hses'
    exact ⟨hok.locked, hok.valid, hok.since, fun _ => herr e, hok.dead⟩
  | @stmt ws k err txn a =>
    obtain ⟨-, herr⟩ := hkeep w.db w.seq env_refl hs.inv
    refine sound_quiet hs rfl (Nat.le_refl _) (hput w _) (fun _ _ _ hk => hk) fun ses' hses' => ?_
    obtain rfl : ⟨err e, txn.map Txn.abort, a⟩ = ses' := by simpa using hses'
    cases txn with
    | none => exact ok_outside fun _ => herr e
    | some T =>
      refine ⟨hok.locked, fun T' hT => ?_, fun T' d₀ hT hd₀ => ?_, fun _ => herr e, fun hdead => ?_⟩
      · obtain rfl := Option.some.inj hT
        exact hok.valid T rfl
      · obtain rfl := Option.some.inj hT
        exact hok.since T d₀ rfl hd₀
      · simp [show a = true from hrun] at hdead
  | @commit k err txn a =>
    obtain ⟨-, herr⟩ := hkeep w.db w.seq env_refl hs.inv
    refine sound_quiet hs rfl (Nat.le_refl _) (hput _ _) (fun u k hu hk => release_lock hu hk)
      fun ses' hses' => ?_
    obtain rfl : ⟨err e, none, a⟩ = ses' := by simpa using hses'
    exact ok_outside fun _ => herr e

variable [DecidableEq κ]

/-- Running a statement keeps a sound world sound. -/
theorem sound_advance {i : ι} (hs : Sound C w) (hses : w.sessions t = some ses)
    (hrun : ses.alive = true) (h : w.advance S t ses i = some w') : Sound C w' := by
  have hok := hs.sessions t ses hses
  have hkeep := hok.keeps hrun
  have ha : w.alive t = true := by simp [World.alive, hses, hrun]
  have hput : ∀ (x : World δ ω κ ι ε α) ses' u, u ≠ t →
      (x.put t ses').sessions u = x.sessions u := fun x ses' u hu => by simp [hu]
  cases advance_cases S h with
  | @opened ser k err a =>
    obtain ⟨hnext, -⟩ := hkeep w.db w.seq env_refl hs.inv
    refine sound_quiet hs rfl (Nat.le_refl _) (hput w _) (fun _ _ _ hk => hk) fun ses' hses' => ?_
    obtain rfl : ⟨k, some (Txn.opened ser w.db), a⟩ = ses' := by simpa using hses'
    refine ⟨fun k hk => ?_, fun T hT => ?_, fun T d₀ hT hd₀ => ?_, fun _ => hnext rfl, ?_⟩
    · simp [heldKeys, Txn.opened, KeyedRows.keysOf] at hk
    · obtain rfl := Option.some.inj hT
      rfl
    · obtain rfl := Option.some.inj hT
      simp only [Txn.opened, put_db, applyAll_nil, Option.ite_none_right_eq_some,
        Option.some.injEq] at hd₀ ⊢
      exact hd₀.2
    · intro hdead
      simp [show a = true from hrun] at hdead
  | @auto ws k err a hvalid hfree =>
    obtain ⟨hnext, -⟩ := hkeep w.db w.seq env_refl hs.inv
    obtain ⟨hguar, hrest⟩ := hnext (w.view S t none) i (sees_view S ha) hvalid
    refine sound_commit (t := t) (v := w.view S t none) hs rfl rfl rfl rfl
      (fun u hu k hk => free_lock hfree hk hu) hvalid hguar rfl rfl
      (fun u hu => by rw [hput _ _ u hu, publish_sessions]) (fun _ _ _ hk => hk) ?_
    intro ses' hses'
    obtain rfl : ⟨k (w.view S t none) i, none, a⟩ = ses' := by simpa using hses'
    exact ok_outside fun _ => hrest
  | @held ws k err T a halive hvalid hfree =>
    obtain ⟨hnext, -⟩ := hkeep w.db w.seq env_refl hs.inv
    have hrest := hnext (w.view S t (some T)) i (sees_view S ha) halive hvalid
    refine sound_quiet hs rfl (Nat.le_add_right _ _) (hput _ _) (fun u k hu hk => ?_) ?_
    · have hm : k ∉ S.keysOf (ws (w.view S t (some T)) i) := fun hm => free_lock hfree hm hu hk
      simpa [World.acquire, hm] using hk
    · intro ses' hses'
      obtain rfl : ⟨k (w.view S t (some T)) i, some (T.add (ws (w.view S t (some T)) i)), a⟩ =
        ses' := by simpa using hses'
      refine ⟨fun k hk => ?_, fun T' hT => ?_, fun T' d₀ hT hd₀ => ?_, fun _ => hrest, ?_⟩
      · by_cases hm : k ∈ S.keysOf (ws (w.view S t (some T)) i)
        · simp [World.acquire, hm]
        · have hk' : k ∈ heldKeys S (some T) := by
            simp only [heldKeys, Txn.add, KeyedRows.keysOf, List.flatMap_append,
              List.mem_append] at hk
            exact hk.resolve_right hm
          simpa [World.acquire, hm] using hok.locked k hk'
      · obtain rfl := Option.some.inj hT
        have hw := hok.valid T rfl
        simp only [put_db, Txn.add, validAll_append, Bool.and_eq_true]
        exact ⟨hw, hvalid⟩
      · obtain rfl := Option.some.inj hT
        exact hok.since T d₀ rfl hd₀
      · intro hdead
        simp [show a = true from hrun] at hdead
  | @idle k err a =>
    obtain ⟨hnext, -⟩ := hkeep w.db w.seq env_refl hs.inv
    refine sound_quiet hs rfl (Nat.le_refl _) (hput w _) (fun _ _ _ hk => hk) fun ses' hses' => ?_
    obtain rfl : ⟨k, none, a⟩ = ses' := by simpa using hses'
    exact ok_outside fun _ => hnext
  | @ended k err T a habort =>
    obtain ⟨⟨hnext, -⟩, -⟩ := hkeep w.db w.seq env_refl hs.inv
    refine sound_quiet hs rfl (Nat.le_refl _) (hput _ _) (fun u k hu hk => release_lock hu hk)
      fun ses' hses' => ?_
    obtain rfl : ⟨k, none, a⟩ = ses' := by simpa using hses'
    exact ok_outside fun _ => hnext habort
  | @committed k err T a halive hclash =>
    obtain ⟨⟨-, hnext⟩, -⟩ := hkeep w.db w.seq env_refl hs.inv
    have hun := unclashed_of_since (fun d₀ hd₀ => hok.since T d₀ rfl hd₀) hclash
    obtain ⟨hguar, hrest⟩ := hnext halive (hok.valid T rfl) hun
    refine sound_commit (t := t) (v := w.view S t (some T)) hs rfl rfl rfl rfl (fun u hu k hk hlock => ?_)
      (hok.valid T rfl) (fun hne => hguar hne _ (sees_view S ha)) rfl rfl
      (fun u hu => by rw [hput _ _ u hu, publish_sessions, release_sessions])
      (fun u k hu hk => release_lock hu hk) ?_
    · rw [hok.locked k hk] at hlock
      exact hu (Option.some.inj hlock).symm
    · intro ses' hses'
      obtain rfl : ⟨k, none, a⟩ = ses' := by simpa using hses'
      exact ok_outside fun _ => hrest
  | @rolledBack k txn a =>
    refine sound_quiet hs rfl (Nat.le_refl _) (hput _ _) (fun u k hu hk => release_lock hu hk)
      fun ses' hses' => ?_
    obtain rfl : ⟨k, none, a⟩ = ses' := by simpa using hses'
    exact ok_outside fun _ => hkeep

/-- Every event keeps a sound world sound, when every call keeps the contract
from any committed rows that meet the invariant. -/
theorem sound_step {program : γ → Prog δ ω ι ε α} {e : Event γ ι ε}
    (hprogram : ∀ t call d n, C.inv d n → C.Keeps t (program call) none d n)
    (hs : Sound C w) (h : w.step S program e = some w') : Sound C w' := by
  cases step_cases S h with
  | @start t call hnew =>
    refine sound_quiet (t := t) hs rfl (Nat.le_refl _) (fun u hu => by simp [hu])
      (fun _ _ _ hk => hk) fun ses hses => ?_
    obtain rfl : ⟨program call, none, true⟩ = ses := by simpa using hses
    exact ok_outside fun _ => hprogram t call w.db w.seq hs.inv
  | step hses halive h => exact sound_advance hs hses halive h
  | fail hses halive h => exact sound_raise hs hses halive h
  | @crash t ses hses halive =>
    refine sound_quiet (t := t) hs rfl (Nat.le_refl _) (fun u hu => by simp [hu])
      (fun u k hu hk => release_lock hu hk) fun ses' hses' => ?_
    obtain rfl : { ses with txn := none, alive := false } = ses' := by simpa using hses'
    exact ok_outside fun hrun => by simp at hrun

/-- A world is sound in every state of a run whose calls keep the contract. -/
theorem sound_visits {program : γ → Prog δ ω ι ε α} {es : List (Event γ ι ε)}
    (hprogram : ∀ t call d n, C.inv d n → C.Keeps t (program call) none d n)
    (hs : Sound C w) (h : StepRuns.Visits (World.step S program) w es w') : Sound C w' :=
  StepRuns.visits_of_step (fun _ _ _ hi hstep => sound_step hprogram hi hstep) hs h

/-- A commit and the view it is made in. -/
structure Committed (C : Contract S) (w : World δ ω κ ι ε α) (t : ℕ) (ws : List ω)
    (v : View δ) : Prop where
  /-- The view shows the committed rows. -/
  committed : v.committed = w.db
  /-- The view shows the sequence. -/
  seq : v.seq = w.seq
  /-- The commit is the session's own. -/
  self : v.self = t
  /-- The view shows which processes run. -/
  alive : v.alive = w.alive
  /-- No constraint is violated. -/
  valid : S.validAll w.db ws = true
  /-- The commit keeps the guarantee. -/
  guar : C.guar v ws

/-- Every commit of a sound world keeps the guarantee. -/
theorem committed_of_step {program : γ → Prog δ ω ι ε α} {e : Event γ ι ε} {ws : List ω}
    (hs : Sound C w) (h : w.step S program e = some w') (hc : w.commit? S e = some (t, ws)) :
    ∃ v, Committed C w t ws v := by
  cases e with
  | start t call => simp [World.commit?] at hc
  | fail t e => simp [World.commit?] at hc
  | crash t => simp [World.commit?] at hc
  | step u i =>
    cases step_cases S h with
    | @step _ _ ses _ hses halive h =>
      have hok := hs.sessions u ses hses
      have hkeep := hok.keeps halive
      have ha : w.alive u = true := by simp [World.alive, hses, halive]
      simp only [World.commit?, hses, Option.ite_none_left_eq_some, Option.some.injEq,
        Prod.mk.injEq] at hc
      obtain ⟨hne, rfl, rfl⟩ := hc
      cases advance_cases S h with
      | @auto ws k err a hvalid hfree =>
        obtain ⟨hnext, -⟩ := hkeep w.db w.seq env_refl hs.inv
        obtain ⟨hguar, -⟩ := hnext (w.view S u none) i (sees_view S ha) hvalid
        exact ⟨w.view S u none, rfl, rfl, rfl, rfl, hvalid, hguar hne⟩
      | @committed k err T a hrun hclash =>
        obtain ⟨⟨-, hnext⟩, -⟩ := hkeep w.db w.seq env_refl hs.inv
        have hws : w.commits S u ⟨.commit k err, some T, a⟩ i = T.writes := by
          simp [World.commits, hrun]
        rw [hws] at hne ⊢
        have hun := unclashed_of_since (fun d₀ hd₀ => hok.since T d₀ rfl hd₀) hclash
        obtain ⟨hguar, -⟩ := hnext hrun (hok.valid T rfl) hun
        exact ⟨w.view S u (some T), rfl, rfl, rfl, rfl, hok.valid T rfl,
          hguar hne _ (sees_view S ha)⟩
      | opened => exact absurd rfl hne
      | held halive hvalid hfree => exact absurd rfl hne
      | idle => exact absurd rfl hne
      | ended habort => simp [World.commits, habort] at hne
      | rolledBack => exact absurd rfl hne

/-- A property of the rows that every guaranteed commit keeps holds after any
step of a sound world. -/
theorem rows_step {program : γ → Prog δ ω ι ε α} {e : Event γ ι ε} {P : δ → Prop}
    (hP : ∀ v ws, C.inv v.committed v.seq → S.validAll v.committed ws = true → C.guar v ws →
      P v.committed → P (S.applyAll v.committed ws))
    (hs : Sound C w) (h : w.step S program e = some w') (hw : P w.db) : P w'.db := by
  have hdb := step_db S h
  cases hc : w.commit? S e with
  | none =>
    rw [hc] at hdb
    exact hdb ▸ hw
  | some commit =>
    obtain ⟨t, ws⟩ := commit
    rw [hc] at hdb
    obtain ⟨v, hv⟩ := committed_of_step hs h hc
    rw [hdb, ← hv.committed]
    exact hP v ws (by rw [hv.committed, hv.seq]; exact hs.inv) (by rw [hv.committed]; exact hv.valid)
      hv.guar (by rw [hv.committed]; exact hw)

/-- Such a property holds in every state of a run. -/
theorem rows_visits {program : γ → Prog δ ω ι ε α} {es : List (Event γ ι ε)} {P : δ → Prop}
    (hprogram : ∀ t call d n, C.inv d n → C.Keeps t (program call) none d n)
    (hP : ∀ v ws, C.inv v.committed v.seq → S.validAll v.committed ws = true → C.guar v ws →
      P v.committed → P (S.applyAll v.committed ws))
    (hs : Sound C w) (hw : P w.db) (h : StepRuns.Visits (World.step S program) w es w') :
    P w'.db := by
  have hboth := StepRuns.visits_of_step (I := fun x => Sound C x ∧ P x.db)
    (fun x e x' hx hstep => ⟨sound_step hprogram hx.1 hstep, rows_step hP hx.1 hstep hx.2⟩)
    ⟨hs, hw⟩ h
  exact hboth.2

end Soundness

/-- Nothing is asked of any session. -/
def freeContract (S : KeyedRows δ ω κ) : Contract S where
  inv _ _ := True
  guar _ _ := True
  inv_mono h _ := h
  inv_commit _ _ _ := trivial

/-- Every program keeps it. -/
theorem keeps_free (t : ℕ) (p : Prog δ ω ι ε α) (txn : Option (Txn δ ω)) (d : δ) (n : ℕ) :
    (freeContract S).Keeps t p txn d n := by
  induction p generalizing txn d n with
  | done a => trivial
  | throw e => trivial
  | begin ser k err ihk ihe => exact fun d' n' _ _ => ⟨fun _ => ihk _ d' n', fun e => ihe e _ d' n'⟩
  | stmt ws k err ihk ihe =>
    intro d' n' _ _
    refine ⟨fun v i _ => ?_, fun e => ihe e _ d' n'⟩
    cases txn with
    | none => exact fun _ => ⟨fun _ => trivial, ihk v i _ _ _⟩
    | some T => exact fun _ _ => ihk v i _ d' _
  | commit k err ihk ihe =>
    intro d' n' _ _
    refine ⟨?_, fun e => ihe e _ d' n'⟩
    cases txn with
    | none => exact ihk _ d' n'
    | some T => exact ⟨fun _ => ihk _ d' n', fun _ _ _ => ⟨fun _ _ _ => trivial, ihk _ _ _⟩⟩
  | rollback k ihk => exact ihk _ d n

/-- What every valid write keeps holds in every state visited. -/
theorem valid_visits [DecidableEq κ] {program : γ → Prog δ ω ι ε α} {P : δ → Prop}
    (hstep : ∀ d x, P d → S.valid d x = true → P (S.apply d x)) {d : δ} {n : ℕ} (hd : P d)
    {es : List (Event γ ι ε)} {w : World δ ω κ ι ε α}
    (h : StepRuns.Visits (World.step S program) (World.initial d n) es w) : P w.db :=
  rows_visits (C := freeContract S) (fun t call d n _ => keeps_free t (program call) none d n)
    (fun _ _ _ hvalid _ hP => applyAll_invariant S hstep hP hvalid) (sound_initial trivial) hd h

/-- The contract of a session that runs alone: nobody else commits. -/
def soloContract (S : KeyedRows δ ω κ) : Contract S where
  inv _ _ := True
  guar v _ := v.self = 0
  inv_mono h _ := h
  inv_commit _ _ _ := trivial

section Solo

/-- Nothing happens around a session that runs alone. -/
theorem env_solo {held : List κ} {d d' : δ} {n n' : ℕ}
    (h : (soloContract S).Env 0 held d n d' n') : d' = d :=
  env_stable (fun x _ => x = d) (fun _ _ _ _ hx => hx)
    (fun _ _ hself _ _ _ _ hguar _ => absurd hguar hself) h rfl

/-- The transaction a program run alone has open. -/
inductive AloneIn (d : δ) : Option (List ω) → Option (Txn δ ω) → Prop where
  | outside : AloneIn d none none
  | inside {T : Txn δ ω} (hrun : T.aborted = false)
      (hsnap : ∀ d₀, T.snapshot = some d₀ → d₀ = d) : AloneIn d (some T.writes) (some T)

/-- A result, or an exception, meets its postcondition. -/
def Ends (Q : α → Assertion δ ω) (E : ε → Assertion δ ω) (d : δ) (n : ℕ) : Except ε α → Prop
  | .ok a => ∃ txn, Q a txn d n
  | .error e => ∃ txn, E e txn d n

/-- Preconditions are sound for programs run alone. -/
theorem solo_of_wp (p : Prog δ ω ι ε α) {Q : α → Assertion δ ω} {E : ε → Assertion δ ω}
    {is : List ι} {d d' : δ} {n n' : ℕ} {held : Option (List ω)} {txn : Option (Txn δ ω)}
    {r : Except ε α} (halone : AloneIn d held txn)
    (hvalid : S.validAll d (held.getD []) = true)
    (hwp : wp (soloContract S) 0 p Q E txn d n)
    (hrun : p.solo S is d n held = some (r, d', n')) : Ends Q E d' n' r := by
  induction p generalizing is d n held txn with
  | done a =>
    obtain ⟨rfl, rfl, rfl⟩ : Except.ok a = r ∧ d = d' ∧ n = n' := by
      simpa [Prog.solo] using hrun
    exact ⟨txn, hwp⟩
  | throw e =>
    obtain ⟨rfl, rfl, rfl⟩ : Except.error e = r ∧ d = d' ∧ n = n' := by
      simpa [Prog.solo] using hrun
    exact ⟨txn, hwp⟩
  | begin ser k err ihk ihe =>
    obtain ⟨hnext, -⟩ := hwp d n env_refl trivial
    cases halone with
    | inside habort hsnap => simp [Prog.solo] at hrun
    | outside =>
      refine ihk (.inside rfl fun d₀ hd₀ => ?_) rfl (hnext rfl) hrun
      cases ser with
      | false => simp [Txn.opened] at hd₀
      | true => exact (Option.some.inj hd₀).symm
  | stmt ws k err ihk ihe =>
    obtain ⟨hnext, -⟩ := hwp d n env_refl trivial
    cases is with
    | nil => simp [Prog.solo] at hrun
    | cons i is =>
      simp only [Prog.solo, Option.ite_none_right_eq_some] at hrun
      obtain ⟨hok, hrun⟩ := hrun
      cases halone with
      | outside =>
        have hrest := hnext ⟨d, d, n, 0, fun t => t = 0⟩ i ⟨rfl, rfl, rfl, rfl, by simp⟩ hok
        exact ihk _ i .outside rfl hrest.2 hrun
      | @inside T habort hsnap =>
        have hown : T.own S d = S.applyAll d T.writes := by
          cases hs : T.snapshot with
          | none => simp [Txn.own, hs]
          | some d₀ => simp [Txn.own, hs, hsnap d₀ hs]
        have hsees : Sees S 0 (some T) d n ⟨d, S.applyAll d T.writes, n, 0, fun t => t = 0⟩ :=
          ⟨rfl, hown.symm, rfl, rfl, by simp⟩
        have hrest := hnext _ i hsees habort hok
        have hall : S.validAll d (T.writes ++ ws ⟨d, S.applyAll d T.writes, n, 0,
            fun t => t = 0⟩ i) = true := by
          rw [validAll_append, Bool.and_eq_true]
          exact ⟨hvalid, hok⟩
        have hinside : AloneIn d _ (some (T.add (ws ⟨d, S.applyAll d T.writes, n, 0,
            fun t => t = 0⟩ i))) := .inside habort hsnap
        exact ihk _ i hinside hall hrest hrun
  | commit k err ihk ihe =>
    obtain ⟨hnext, -⟩ := hwp d n env_refl trivial
    cases halone with
    | outside => exact ihk .outside rfl hnext hrun
    | inside habort hsnap =>
      have hclash : Unclashed S _ d := fun d₀ hd₀ =>
        ⟨[], by rw [hsnap d₀ hd₀, applyAll_nil], by simp⟩
      exact ihk .outside rfl (hnext.2 habort hvalid hclash).2 hrun
  | rollback k ihk => exact ihk .outside rfl hwp hrun

end Solo

end LpPlatform.InterferenceLogic
