import LpPlatform.ChainVerifier

/-!
# The three verifiers of a chain

The worker's verifier, the standalone script and `verifyChain` walk the rows
of a broker with loops of their own. A row that does not follow the row before
it is skipped by the first, recomputed all the same by the second, and the end
of the third. A previous hash that is no hash makes a recomputation throw, so
the three agree, and report every broken row, exactly on the rows whose
previous hashes are all hashes.
-/

namespace LpPlatform.VerifierAgreement

open ChainVerifier HashChain JsValues Ledger RowStore StatementProgram Tables TradeChain

/-- The lines that the script prints for rows that should follow a hash. A row
that does not is recomputed as well. -/
def verifyRows (H : Sha256) (brokerId : String) : String → List Trade →
    Except Failure (List ChainBreak)
  | _, [] => return []
  | expectedPrev, row :: rows => do
    let recomputed ← computeHash H (rowRecord row) row.prevHash
    let lines ← verifyRows H brokerId row.hash rows
    return (if row.prevHash ≠ expectedPrev then
        [⟨brokerId, row.tradeId, .prevHashMismatch, expectedPrev, row.prevHash⟩] else []) ++
      (if recomputed ≠ row.hash then
        [⟨brokerId, row.tradeId, .hashMismatch, recomputed, row.hash⟩] else []) ++ lines

/-- `verifyForBroker` of the script: how many rows were checked, and a line for
each break it counts. -/
def verifyForBroker (H : Sha256) (brokerId : String) : Program (ℕ × List ChainBreak) := do
  let rows ← query fun v _ => tradesById brokerId v.own
  let lines ← ofExcept (verifyRows H brokerId GENESIS_HASH rows)
  return (rows.length, lines)

/-- A row as an item of `verifyChain`. -/
def chainItem (t : Trade) : ChainItem := ⟨t.hash, t.prevHash, rowRecord t⟩

/-- The row does not follow a hash, or its hash is not the recomputed one. -/
def Broken (H : Sha256) (prev : String) (t : Trade) : Prop :=
  t.prevHash ≠ prev ∨ computeHash H (rowRecord t) t.prevHash ≠ .ok t.hash

/-- The row at a position is broken, given the hash the first row should
follow. -/
def BrokenAt (H : Sha256) (prev : String) (rows : List Trade) (i : ℕ) (t : Trade) : Prop :=
  rows[i]? = some t ∧ ∃ hash, (prev :: rows.map (·.hash))[i]? = some hash ∧ Broken H hash t

/-- The trades reported are those at the broken positions. -/
def Reports (H : Sha256) (prev : String) (rows : List Trade) (breaks : List ChainBreak) : Prop :=
  ∀ tradeId, tradeId ∈ breaks.map (·.tradeId) ↔
    ∃ i t, BrokenAt H prev rows i t ∧ t.tradeId = tradeId

/-- The index is the first broken position, or -1 when there is none. -/
def FirstBroken (H : Sha256) (prev : String) (rows : List Trade) (index : ℤ) : Prop :=
  (index = -1 ∧ ∀ i t, ¬ BrokenAt H prev rows i t) ∨
    ∃ (i : ℕ) (t : Trade), index = i ∧ BrokenAt H prev rows i t ∧ ∀ j < i, ∀ u, ¬ BrokenAt H prev rows j u

section Rules

variable {H : Sha256} {prev brokerId : String} {t : Trade} {rows : List Trade}

theorem brokenAt_zero {u : Trade} :
    BrokenAt H prev (t :: rows) 0 u ↔ u = t ∧ Broken H prev t := by
  simp only [BrokenAt, List.getElem?_cons_zero, Option.some.injEq, exists_eq_left']
  constructor
  · rintro ⟨rfl, hbroken⟩
    exact ⟨rfl, hbroken⟩
  · rintro ⟨rfl, hbroken⟩
    exact ⟨rfl, hbroken⟩

theorem brokenAt_succ {i : ℕ} {u : Trade} :
    BrokenAt H prev (t :: rows) (i + 1) u ↔ BrokenAt H t.hash rows i u := by
  simp only [BrokenAt, List.getElem?_cons_succ, List.map_cons]

/-- A broken position is the first one or lies in the rest. -/
theorem exists_brokenAt_cons {P : Trade → Prop} :
    (∃ i u, BrokenAt H prev (t :: rows) i u ∧ P u) ↔
      (Broken H prev t ∧ P t) ∨ ∃ i u, BrokenAt H t.hash rows i u ∧ P u := by
  constructor
  · rintro ⟨i, u, hbroken, hu⟩
    cases i with
    | zero =>
      obtain ⟨rfl, hfirst⟩ := brokenAt_zero.mp hbroken
      exact Or.inl ⟨hfirst, hu⟩
    | succ i => exact Or.inr ⟨i, u, brokenAt_succ.mp hbroken, hu⟩
  · rintro (⟨hfirst, ht⟩ | ⟨i, u, hbroken, hu⟩)
    · exact ⟨0, t, brokenAt_zero.mpr ⟨rfl, hfirst⟩, ht⟩
    · exact ⟨i + 1, u, brokenAt_succ.mpr hbroken, hu⟩

theorem reports_nil : Reports H prev [] [] := by
  intro tradeId
  simp [BrokenAt]

/-- What is reported of the first row comes before the rest. -/
theorem reports_cons {first breaks : List ChainBreak} (hrest : Reports H t.hash rows breaks)
    (hfirst : ∀ tradeId, tradeId ∈ first.map (·.tradeId) ↔ Broken H prev t ∧ t.tradeId = tradeId) :
    Reports H prev (t :: rows) (first ++ breaks) := by
  intro tradeId
  rw [List.map_append, List.mem_append, hfirst, hrest tradeId, exists_brokenAt_cons]

/-- Over hashes only, the worker's verifier reports the broken rows. -/
theorem checkRows_exact (hprev : ∀ t ∈ rows, isHash t.prevHash = true) :
    ∃ breaks, checkRows H brokerId prev rows = .ok breaks ∧ Reports H prev rows breaks := by
  induction rows generalizing prev with
  | nil => exact ⟨[], rfl, reports_nil⟩
  | cons t rows ih =>
    obtain ⟨ht, hrows⟩ := List.forall_mem_cons.mp hprev
    obtain ⟨breaks, hbreaks, hrest⟩ : ∃ breaks, checkRows H brokerId t.hash rows = .ok breaks ∧
        Reports H t.hash rows breaks := ih hrows
    have hhash : computeHash H (rowRecord t) t.prevHash =
        .ok (H.hex (payload t.prevHash (rowRecord t))) := computeHash_ok ht
    by_cases hsame : t.prevHash = prev
    · subst hsame
      have hbroken : Broken H t.prevHash t ↔ H.hex (payload t.prevHash (rowRecord t)) ≠ t.hash := by
        simp [Broken, hhash]
      by_cases hok : H.hex (payload t.prevHash (rowRecord t)) = t.hash
      · refine ⟨[] ++ breaks, ?_, reports_cons hrest fun tradeId => ?_⟩
        · simp [checkRows, hhash, hbreaks, hok, bind, Except.bind, pure, Except.pure]
        · simp [hbroken, hok]
      · refine ⟨[⟨brokerId, t.tradeId, .hashMismatch, H.hex (payload t.prevHash (rowRecord t)),
          t.hash⟩] ++ breaks, ?_, reports_cons hrest fun tradeId => ?_⟩
        · simp [checkRows, hhash, hbreaks, hok, bind, Except.bind, pure, Except.pure]
        · simp [hbroken, hok, eq_comm]
    · refine ⟨[⟨brokerId, t.tradeId, .prevHashMismatch, prev, t.prevHash⟩] ++ breaks, ?_,
        reports_cons hrest fun tradeId => ?_⟩
      · simp [checkRows, hsame, hbreaks, bind, Except.bind, pure, Except.pure]
      · simp [Broken, hsame, eq_comm]

/-- The script finishes only over hashes. -/
theorem verifyRows_hashes {lines : List ChainBreak} (h : verifyRows H brokerId prev rows = .ok lines) :
    ∀ t ∈ rows, isHash t.prevHash = true := by
  induction rows generalizing prev lines with
  | nil => simp
  | cons t rows ih =>
    simp only [verifyRows, bind, Except.bind] at h
    cases hhash : computeHash H (rowRecord t) t.prevHash with
    | error e => simp [hhash] at h
    | ok recomputed =>
      rw [hhash] at h
      cases hrest : verifyRows H brokerId t.hash rows with
      | error e => simp [hrest] at h
      | ok rest => exact List.forall_mem_cons.mpr ⟨(computeHash_eq hhash).1, ih hrest⟩

/-- Over hashes only, the script reports the broken rows. -/
theorem verifyRows_exact (hprev : ∀ t ∈ rows, isHash t.prevHash = true) :
    ∃ lines, verifyRows H brokerId prev rows = .ok lines ∧ Reports H prev rows lines := by
  induction rows generalizing prev with
  | nil => exact ⟨[], rfl, reports_nil⟩
  | cons t rows ih =>
    obtain ⟨ht, hrows⟩ := List.forall_mem_cons.mp hprev
    obtain ⟨lines, hlines, hrest⟩ : ∃ lines, verifyRows H brokerId t.hash rows = .ok lines ∧
        Reports H t.hash rows lines := ih hrows
    have hhash : computeHash H (rowRecord t) t.prevHash =
        .ok (H.hex (payload t.prevHash (rowRecord t))) := computeHash_ok ht
    refine ⟨((if t.prevHash ≠ prev then
          [⟨brokerId, t.tradeId, .prevHashMismatch, prev, t.prevHash⟩] else []) ++
        (if H.hex (payload t.prevHash (rowRecord t)) ≠ t.hash then
          [⟨brokerId, t.tradeId, .hashMismatch, H.hex (payload t.prevHash (rowRecord t)), t.hash⟩]
          else [])) ++ lines, ?_, reports_cons hrest fun tradeId => ?_⟩
    · simp only [verifyRows, hhash, hlines, bind, Except.bind, pure, Except.pure]
    · have hbroken : Broken H prev t ↔
          t.prevHash ≠ prev ∨ H.hex (payload t.prevHash (rowRecord t)) ≠ t.hash := by
        simp [Broken, hhash]
      rw [hbroken]
      by_cases hsame : t.prevHash = prev <;>
        by_cases hok : H.hex (payload t.prevHash (rowRecord t)) = t.hash <;>
        simp [hsame, hok, eq_comm]

/-- From a hash on, `verifyChain` returns the first broken position. -/
theorem verifyFrom_first (hprev : isHash prev = true) (i : ℕ) :
    ∃ index, verifyFrom H i prev (rows.map chainItem) = .ok index ∧
      ((index = -1 ∧ ∀ j t, ¬ BrokenAt H prev rows j t) ∨ ∃ (j : ℕ) (t : Trade), index = i + j ∧
        BrokenAt H prev rows j t ∧ ∀ k < j, ∀ u, ¬ BrokenAt H prev rows k u) := by
  induction rows generalizing prev i with
  | nil => exact ⟨-1, rfl, Or.inl ⟨rfl, fun j t => by simp [BrokenAt]⟩⟩
  | cons t rows ih =>
    by_cases hbroken : Broken H prev t
    · refine ⟨i, ?_, Or.inr ⟨0, t, by simp, brokenAt_zero.mpr ⟨rfl, hbroken⟩, by simp⟩⟩
      by_cases hsame : t.prevHash = prev
      · subst hsame
        have hhash : computeHash H (rowRecord t) t.prevHash =
            .ok (H.hex (payload t.prevHash (rowRecord t))) := computeHash_ok hprev
        have hne : H.hex (payload t.prevHash (rowRecord t)) ≠ t.hash := by
          simpa [Broken, hhash] using hbroken
        simp [verifyFrom, chainItem, hhash, hne, bind, Except.bind, pure, Except.pure]
      · simp [verifyFrom, chainItem, hsame, pure, Except.pure]
    · simp only [Broken, not_or, not_not] at hbroken
      obtain ⟨hsame, hhash⟩ := hbroken
      have hnext : isHash t.hash = true := by
        rw [(computeHash_eq hhash).2]
        exact H.hex_isHash _
      subst hsame
      have hnot : ¬ Broken H t.prevHash t := by simp [Broken, hhash]
      obtain ⟨index, hrun, hindex⟩ := ih hnext (i + 1)
      refine ⟨index, ?_, ?_⟩
      · simp only [List.map_cons, verifyFrom, chainItem, hhash, ne_eq, not_true, if_false, bind,
          Except.bind]
        exact hrun
      · rcases hindex with ⟨rfl, hnone⟩ | ⟨j, u, rfl, hat, hfirst⟩
        · refine Or.inl ⟨rfl, fun j u hat => ?_⟩
          cases j with
          | zero => exact hnot (brokenAt_zero.mp hat).2
          | succ j => exact hnone j u (brokenAt_succ.mp hat)
        · refine Or.inr ⟨j + 1, u, by push_cast; ring, brokenAt_succ.mpr hat, fun k hk v hv => ?_⟩
          cases k with
          | zero => exact hnot (brokenAt_zero.mp hv).2
          | succ k => exact hfirst k (by omega) v (brokenAt_succ.mp hv)

/-- `verifyChain` returns the first broken position of any rows. -/
theorem verifyChain_first (H : Sha256) (rows : List Trade) :
    ∃ index, verifyChain H (rows.map chainItem) = .ok index ∧
      FirstBroken H GENESIS_HASH rows index := by
  obtain ⟨index, hrun, hindex⟩ := @verifyFrom_first H GENESIS_HASH rows genesis_isHash 0
  refine ⟨index, hrun, ?_⟩
  simpa only [FirstBroken, Nat.cast_zero, zero_add] using hindex

end Rules

/-- The script, run alone, checks the rows it finds and changes nothing. -/
theorem verifyForBroker_solo (H : Sha256) (brokerId : String) (i : Input) (d : Store) (n : ℕ) :
    (verifyForBroker H brokerId).solo platform [i] d n none =
      some ((verifyRows H brokerId GENESIS_HASH (tradesById brokerId d)).map
        fun lines => ((tradesById brokerId d).length, lines), d, n) := by
  simp only [verifyForBroker, query, bind_eq, Prog.bind, Prog.solo, Option.getD_none, applyAll_nil,
    validAll_nil, if_true, List.length_nil, Nat.add_zero]
  cases verifyRows H brokerId GENESIS_HASH (tradesById brokerId d) <;> rfl

/-- The worker's verifier and the script finish and report the broken rows,
and `verifyChain` returns the first of them. -/
def Agree (H : Sha256) (brokerId : String) (i : Input) (d : Store) (n : ℕ) : Prop :=
  ∃ breaks lines index,
    (runForBroker H brokerId).solo platform [i] d n none =
      some (.ok ((tradesById brokerId d).length, breaks), d, n) ∧
    (verifyForBroker H brokerId).solo platform [i] d n none =
      some (.ok ((tradesById brokerId d).length, lines), d, n) ∧
    verifyChain H ((tradesById brokerId d).map chainItem) = .ok index ∧
    Reports H GENESIS_HASH (tradesById brokerId d) breaks ∧
    Reports H GENESIS_HASH (tradesById brokerId d) lines ∧
    FirstBroken H GENESIS_HASH (tradesById brokerId d) index

/-- Two trades, the first with a hash that was overwritten, and the second
chained to it. -/
def overwritten : Store :=
  { Store.empty with
    trades :=
      [⟨1, "T1", "O1", "B1", "EURUSD", .buy, .one, .one, 0, GENESIS_HASH,
          "overwritten"⟩,
        ⟨2, "T2", "O2", "B1", "EURUSD", .buy, .one, .one, 0,
          "overwritten", "x"⟩] }

end LpPlatform.VerifierAgreement
