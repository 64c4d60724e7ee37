import LpPlatform.TradeChain

/-!
# Verifying the chain of a broker

The verifier reads the broker's rows back by id, follows the previous hashes
and recomputes every hash from the columns. The columns print amounts with
four decimals, while the writers hash canonical text without trailing zeros,
so the two hashes are of one text exactly when the canonical amounts have four
decimals themselves.
-/

namespace LpPlatform.ChainVerifier

open Amounts DecimalText HashChain InterferenceLogic JsValues Ledger RowStore Sessions
open StatementProgram StepRuns Tables TradeChain

/-- Why a row breaks the chain. -/
inductive BreakReason where
  | prevHashMismatch
  | hashMismatch
  deriving DecidableEq, Repr

/-- A row that breaks the chain. -/
structure ChainBreak where
  brokerId : String
  tradeId : String
  reason : BreakReason
  expected : String
  actual : String
  deriving DecidableEq

/-- The record of a stored row, as its columns print. -/
def rowRecord (t : Trade) : Json :=
  tradeRecord t.tradeId t.orderId t.brokerId t.symbol t.side t.quantity.text t.price.text
    (toISOString t.executedAt) t.prevHash

/-- The breaks among some rows that should follow a hash. A row that does not
is reported, and the check goes on from its own hash. -/
def checkRows (H : Sha256) (brokerId : String) : String → List Trade →
    Except Failure (List ChainBreak)
  | _, [] => return []
  | expectedPrev, row :: rows => do
    if row.prevHash ≠ expectedPrev then
      let breaks ← checkRows H brokerId row.hash rows
      return ⟨brokerId, row.tradeId, .prevHashMismatch, expectedPrev, row.prevHash⟩ :: breaks
    else
      let recomputed ← computeHash H (rowRecord row) row.prevHash
      let breaks ← checkRows H brokerId row.hash rows
      return if recomputed ≠ row.hash then
        ⟨brokerId, row.tradeId, .hashMismatch, recomputed, row.hash⟩ :: breaks
      else breaks

/-- `ChainVerifier.runForBroker`: how many rows were checked, and the breaks. -/
def runForBroker (H : Sha256) (brokerId : String) : Program (ℕ × List ChainBreak) := do
  let rows ← query fun v _ => tradesById brokerId v.own
  let breaks ← ofExcept (checkRows H brokerId GENESIS_HASH rows)
  return (rows.length, breaks)

/-- Recording calls one after the other, each of them committed. -/
def serially (H : Sha256) (lot : String) : List (TradeCall × List Input) → Store → ℕ →
    Option (Store × ℕ)
  | [], d, n => some (d, n)
  | (call, inputs) :: calls, d, n =>
    match (recording H lot call).solo platform inputs d n none with
    | some (.ok _, d', n') => serially H lot calls d' n'
    | _ => none

/-- The broker of a recording call. -/
def callBroker : TradeCall → String
  | .recordFill order _ => order.brokerId
  | .recordTrade input => input.brokerId

/-- The quantity and the price a recording call is given. -/
def callAmounts : TradeCall → String × String
  | .recordFill order fillPrice => (order.quantity, fillPrice)
  | .recordTrade input => (input.quantity, input.price)

/-- The text is a decimal that keeps four decimals when trailing zeros are
dropped. -/
def fourDecimals (text : String) : Bool :=
  match Money.new text with
  | .ok m => m.scale = 4
  | .error _ => false

/-- The canonical text of a decimal. -/
def canonical (text : String) : String :=
  match Money.new text with
  | .ok m => m.toString
  | .error _ => text

/-- The record that was hashed for a row by the call that recorded it. -/
def hashedRecord (call : TradeCall) (t : Trade) : Json :=
  tradeRecord t.tradeId t.orderId t.brokerId t.symbol t.side (canonical (callAmounts call).1)
    (canonical (callAmounts call).2) (toISOString t.executedAt) t.prevHash

/-- A stored row and the call that recorded it. -/
structure RecordedBy (H : Sha256) (call : TradeCall) (t : Trade) : Prop where
  broker : t.brokerId = callBroker call
  prevHash : isHash t.prevHash = true
  hash : t.hash = H.hex (payload t.prevHash (hashedRecord call t))
  quantity : ∃ m, Money.new (callAmounts call).1 = .ok m ∧ Numeric.insert m.toString = .ok t.quantity
  price : ∃ m, Money.new (callAmounts call).2 = .ok m ∧ Numeric.insert m.toString = .ok t.price

/-- Canonical text is what the column prints when it has four decimals. -/
theorem text_iff_scale {m : Money} {x : Numeric} (h : Numeric.insert m.toString = .ok x) :
    m.toString = x.text ↔ m.scale = 4 := by
  constructor
  · intro htext
    have hread := literal?_toString m
    rw [htext, Numeric.text, String.toList_ofList, literal?_fixed] at hread
    exact (congrArg Literal.scale (Option.some.inj hread)).symm
  · intro hscale
    have hround : roundUnits ⟨m.isNegative, m.coefficient, 4⟩ = m.coefficient := by simp [roundUnits]
    simp only [Numeric.insert, literal?_toString, hscale, hround] at h
    split at h
    · obtain rfl := Except.ok.inj h
      have hneg : decide (signed m.isNegative m.coefficient < 0) = m.isNegative := by
        cases hn : m.isNegative with
        | false => simp [signed]
        | true =>
          have hpos : m.coefficient ≠ 0 := by
            simp only [Money.isNegative, Money.isZero, Bool.and_eq_true, Bool.not_eq_true',
              decide_eq_false_iff_not] at hn
            exact hn.2
          simp only [signed, if_true, decide_eq_true_eq]
          omega
      simp only [Money.toString, Numeric.text, hneg, natAbs_signed, hscale]
    · simp at h

/-- The keys of a trade record in order. -/
theorem sort_tradeFields (tradeId orderId brokerId symbol side quantity price executedAt
    prevHash : String) :
    List.insertionSort keyLe [("tradeId", tradeId), ("orderId", orderId), ("brokerId", brokerId),
      ("symbol", symbol), ("side", side), ("quantity", quantity), ("price", price),
      ("executedAt", executedAt), ("prevHash", prevHash)] =
    [("brokerId", brokerId), ("executedAt", executedAt), ("orderId", orderId),
      ("prevHash", prevHash), ("price", price), ("quantity", quantity), ("side", side),
      ("symbol", symbol), ("tradeId", tradeId)] := by
  simp [keyLe, keyUnits, unitsLe, List.orderedInsert]

theorem sideText_inj {side side' : OrderSide} (h : sideText side = sideText side') :
    side = side' := by
  cases side <;> cases side' <;> simp [sideText] at h ⊢

/-- Every field can be read off the canonical JSON of a trade record. -/
theorem tradeRecord_inj {tradeId orderId brokerId symbol quantity price executedAt prevHash : String}
    {tradeId' orderId' brokerId' symbol' quantity' price' executedAt' prevHash' : String}
    {side side' : OrderSide}
    (h : canonicalize (tradeRecord tradeId orderId brokerId symbol side quantity price executedAt
        prevHash) =
      canonicalize (tradeRecord tradeId' orderId' brokerId' symbol' side' quantity' price' executedAt'
        prevHash')) :
    (tradeId = tradeId' ∧ orderId = orderId' ∧ brokerId = brokerId' ∧ symbol = symbol' ∧
      side = side') ∧ quantity = quantity' ∧ price = price' ∧ executedAt = executedAt' := by
  simp only [tradeRecord, canonicalize, canonicalFields, sort_tradeFields, List.map_cons,
    List.map_nil, commas, String.append_assoc, String.append_right_inj] at h
  obtain ⟨hbroker, h₁⟩ := quote_append_inj h
  simp only [String.append_right_inj] at h₁
  obtain ⟨hexecuted, h₂⟩ := quote_append_inj h₁
  simp only [String.append_right_inj] at h₂
  obtain ⟨horder, h₃⟩ := quote_append_inj h₂
  simp only [String.append_right_inj] at h₃
  obtain ⟨-, h₄⟩ := quote_append_inj h₃
  simp only [String.append_right_inj] at h₄
  obtain ⟨hprice, h₅⟩ := quote_append_inj h₄
  simp only [String.append_right_inj] at h₅
  obtain ⟨hquantity, h₆⟩ := quote_append_inj h₅
  simp only [String.append_right_inj] at h₆
  obtain ⟨hside, h₇⟩ := quote_append_inj h₆
  simp only [String.append_right_inj] at h₇
  obtain ⟨hsymbol, h₈⟩ := quote_append_inj h₇
  simp only [String.append_right_inj] at h₈
  obtain ⟨htrade, -⟩ := quote_append_inj h₈
  exact ⟨⟨htrade, horder, hbroker, hsymbol, sideText_inj hside⟩, hquantity, hprice, hexecuted⟩

/-- Recorder and verifier hash one text exactly when both amounts have four
decimals. -/
theorem payload_iff {H : Sha256} {call : TradeCall} {t : Trade} (h : RecordedBy H call t) :
    payload t.prevHash (hashedRecord call t) = payload t.prevHash (rowRecord t) ↔
      fourDecimals (callAmounts call).1 = true ∧ fourDecimals (callAmounts call).2 = true := by
  obtain ⟨q, hq, hqi⟩ := h.quantity
  obtain ⟨p, hp, hpi⟩ := h.price
  have htexts : q.toString = t.quantity.text ∧ p.toString = t.price.text ↔
      fourDecimals (callAmounts call).1 = true ∧ fourDecimals (callAmounts call).2 = true := by
    rw [text_iff_scale hqi, text_iff_scale hpi]
    simp [fourDecimals, hq, hp]
  rw [← htexts]
  have hqc : canonical (callAmounts call).1 = q.toString := by simp [canonical, hq]
  have hpc : canonical (callAmounts call).2 = p.toString := by simp [canonical, hp]
  rw [hashedRecord, hqc, hpc]
  constructor
  · intro hpayload
    simp only [payload, String.append_right_inj] at hpayload
    obtain ⟨-, hquantity, hprice, -⟩ := tradeRecord_inj hpayload
    exact ⟨hquantity, hprice⟩
  · rintro ⟨hqt, hpt⟩
    rw [hqt, hpt, rowRecord]

/-- On a chain that is linked only wrong hashes are reported. -/
theorem checkRows_linked {H : Sha256} {brokerId prev : String} {rows : List Trade}
    (hlinked : Linked prev rows) (hprev : ∀ t ∈ rows, isHash t.prevHash = true) :
    checkRows H brokerId prev rows = .ok [] ↔
      ∀ t ∈ rows, t.hash = H.hex (payload t.prevHash (rowRecord t)) := by
  induction rows generalizing prev with
  | nil => simp [checkRows, pure, Except.pure]
  | cons row rows ih =>
    have hrest := ih hlinked.2 fun t ht => hprev t (List.mem_cons_of_mem row ht)
    have hsame : ¬ row.prevHash ≠ prev := fun hne => hne hlinked.1
    simp only [checkRows, if_neg hsame, computeHash_ok (hprev row (List.mem_cons_self ..)),
      List.forall_mem_cons, ← hrest, bind, Except.bind, pure, Except.pure]
    cases checkRows H brokerId row.hash rows with
    | error e => simp
    | ok breaks =>
      by_cases hhash : H.hex (payload row.prevHash (rowRecord row)) = row.hash
      · simp [hhash]
      · have hne : ¬ row.hash = H.hex (payload row.prevHash (rowRecord row)) := fun h => hhash h.symm
        simp [hhash, hne]

/-- A hash that was computed is of the record, and follows a hash. -/
theorem computeHash_eq {H : Sha256} {record : Json} {prevHash hash : String}
    (h : computeHash H record prevHash = .ok hash) :
    isHash prevHash = true ∧ hash = H.hex (payload prevHash record) := by
  unfold computeHash at h
  split at h
  case isTrue hprev => exact ⟨hprev, (Except.ok.inj h).symm⟩
  case isFalse hprev => simp at h

theorem recordedBy_of_chained {H : Sha256} {f : Fill} {call : TradeCall} {trades : List Trade}
    {t : Trade} (h : Chained H f trades t) (hbroker : callBroker call = f.brokerId)
    (hamounts : callAmounts call = (f.quantity, f.price)) : RecordedBy H call t := by
  obtain ⟨q, p, hq, hp, hqi, hpi, hhash⟩ := h.amounts
  have hcq : Money.new (callAmounts call).1 = .ok q := by rw [hamounts, hq]
  have hcp : Money.new (callAmounts call).2 = .ok p := by rw [hamounts, hp]
  obtain ⟨hprev, heq⟩ := computeHash_eq hhash
  have hrecord : hashedRecord call t = f.record q p t.prevHash := by
    simp only [hashedRecord, canonical, hcq, hcp, Fill.record, h.tradeId, h.orderId, h.brokerId,
      h.symbol, h.side, h.executedAt]
  exact ⟨h.brokerId.trans hbroker.symm, hprev, by rw [heq, hrecord], ⟨q, hcq, hqi⟩, ⟨p, hcp, hpi⟩⟩

/-- What a recording call that is run alone has committed. -/
theorem appended_of_commit {H : Sha256} {f : Fill} {call : TradeCall} {d d₀ d' : Store}
    {n n₀ n' : ℕ} {trade : Trade} {rest : List Write} (hd : Chains d n)
    (hat : AtCommit (soloContract platform) 0 d n d₀ n₀ (.insertTrade trade :: rest) d' n')
    (h : ChainCommit H f d₀ n₀ n' trade) (hrest : rest.filterMap Write.trade? = [])
    (hbroker : callBroker call = f.brokerId)
    (hamounts : callAmounts call = (f.quantity, f.price)) :
    ∃ t, (platform.applyAll d' (.insertTrade trade :: rest)).trades = d.trades ++ [t] ∧
      RecordedBy H call t ∧
      Chains (platform.applyAll d' (.insertTrade trade :: rest)) (n' + (rest.length + 1)) := by
  obtain rfl : d₀ = d := env_solo hat.before
  obtain rfl : d' = d₀ := env_solo hat.since
  have hle : n ≤ n' := Nat.le_trans (env_seq hat.before) (env_seq hat.since)
  have hchains : Chains d' n' := chainContract.inv_mono hd hle
  have hlast : ∀ u ∈ tradesOf trade.brokerId d'.trades, u.id < trade.id := fun u hu => by
    have hdrawn := hd.drawn u (List.mem_filter.mp hu).1
    have hseq := env_seq hat.before
    have hfresh := h.fresh
    omega
  have hext : Extends d' n' trade := ⟨h.drawn, hlast, by
    rw [h.chained.prevHash, h.chained.brokerId]⟩
  have hrows := tradeRows.applyAll d' (.insertTrade trade :: rest)
  have hone : (Write.insertTrade trade :: rest).filterMap tradeRows.row? = [trade] := by
    have hsome : tradeRows.row? (.insertTrade trade) = some trade := rfl
    rw [List.filterMap_cons_some hsome]
    exact congrArg _ hrest
  rw [hone] at hrows
  exact ⟨trade, hrows, recordedBy_of_chained h.chained hbroker hamounts,
    chains_extend hchains hrest hat.valid hext (Nat.le_add_right _ _)⟩

/-- A recording call that is run alone appends one trade to its chain. -/
theorem recording_run {H : Sha256} {lot : String} {call : TradeCall} {inputs : List Input}
    {d d' : Store} {n n' : ℕ} (hd : Chains d n)
    (hrun : (recording H lot call).solo platform inputs d n none = some (.ok (), d', n')) :
    ∃ trade, d'.trades = d.trades ++ [trade] ∧ RecordedBy H call trade ∧ Chains d' n' := by
  have hwp : wp (soloContract platform) 0 (recording H lot call)
      (fun _ _ d' n' => ∃ trade, d'.trades = d.trades ++ [trade] ∧ RecordedBy H call trade ∧
        Chains d' n') (fun _ _ _ _ => True) none d n := by
    cases call with
    | recordFill order fillPrice =>
      exact wp_recordFill (fun _ _ _ => trivial) fun _ _ _ _ _ _ _ _ _ hat hcommit _ hrest =>
        ⟨fun v hv => hv.self, appended_of_commit hd hat hcommit (commission_trade? hrest) rfl rfl⟩
    | recordTrade input =>
      rw [recording, bind_eq, wp_bind]
      exact wp_recordTrade (fun _ _ _ => trivial) fun _ _ _ _ _ _ _ _ hat hcommit hrest =>
        ⟨fun v hv => hv.self, appended_of_commit hd hat hcommit (charges_trade? hrest) rfl rfl⟩
  obtain ⟨_, h⟩ := solo_of_wp _ .outside rfl hwp hrun
  exact h

/-- Serial recording calls append one trade each. -/
theorem serially_run {H : Sha256} {lot : String} {calls : List (TradeCall × List Input)}
    {d d' : Store} {n n' : ℕ} (hd : Chains d n)
    (hrun : serially H lot calls d n = some (d', n')) :
    ∃ recorded, d'.trades = d.trades ++ recorded ∧
      List.Forall₂ (fun c t => RecordedBy H c.1 t) calls recorded ∧ Chains d' n' := by
  induction calls generalizing d n with
  | nil =>
    obtain ⟨rfl, rfl⟩ : d = d' ∧ n = n' := by simpa [serially] using hrun
    exact ⟨[], by simp, .nil, hd⟩
  | cons c calls ih =>
    obtain ⟨call, inputs⟩ := c
    simp only [serially] at hrun
    split at hrun
    · rename_i d₁ n₁ hone
      obtain ⟨trade, htrades, hby, hchains⟩ := recording_run hd hone
      obtain ⟨recorded, hrest, hall, hend⟩ := ih hchains hrun
      refine ⟨trade :: recorded, ?_, .cons hby hall, hend⟩
      rw [hrest, htrades, List.append_assoc, List.singleton_append]
    · simp at hrun

/-- Corresponding elements that agree on a property agree on all. -/
theorem forall_iff_of_forall₂ {ρ θ : Type} {R : ρ → θ → Prop} {P : ρ → Prop} {Q : θ → Prop}
    {as : List ρ} {bs : List θ} (h : List.Forall₂ R as bs)
    (hiff : ∀ a b, a ∈ as → b ∈ bs → R a b → (P a ↔ Q b)) :
    (∀ a ∈ as, P a) ↔ ∀ b ∈ bs, Q b := by
  induction h with
  | nil => simp
  | cons hab _ ih =>
    rw [List.forall_mem_cons, List.forall_mem_cons,
      hiff _ _ (List.mem_cons_self ..) (List.mem_cons_self ..) hab,
      ih fun a b ha hb => hiff a b (List.mem_cons_of_mem _ ha) (List.mem_cons_of_mem _ hb)]

/-- The verifier, run alone, checks the rows it finds and changes nothing. -/
theorem runForBroker_solo (H : Sha256) (brokerId : String) (i : Input) (d : Store) (n : ℕ) :
    (runForBroker H brokerId).solo platform [i] d n none =
      some ((checkRows H brokerId GENESIS_HASH (tradesById brokerId d)).map
        fun breaks => ((tradesById brokerId d).length, breaks), d, n) := by
  simp only [runForBroker, query, bind_eq, Prog.bind, Prog.solo, Option.getD_none, applyAll_nil,
    validAll_nil, if_true, List.length_nil, Nat.add_zero]
  cases checkRows H brokerId GENESIS_HASH (tradesById brokerId d) <;> rfl

/-- It reports no break exactly when its rows pass. -/
theorem runForBroker_run {H : Sha256} {brokerId : String} {i : Input} {d : Store} {n : ℕ} :
    (∃ checked, (runForBroker H brokerId).solo platform [i] d n none =
      some (.ok (checked, []), d, n)) ↔
      checkRows H brokerId GENESIS_HASH (tradesById brokerId d) = .ok [] := by
  rw [runForBroker_solo]
  cases checkRows H brokerId GENESIS_HASH (tradesById brokerId d) with
  | error e => simp [Except.map]
  | ok breaks => simp [Except.map]

/-- The statements of a fill that is not charged. -/
def fillInputs : List Input := [⟨1730000000000, ["T1"], 0⟩, ⟨0, [], 0⟩, ⟨0, [], 0⟩]

/-- A market order that closes a position. -/
def closeLot (quantity : String) : OrderRow :=
  ⟨"O1", some "C1-C", "B1", "AAPL", .buy, .market, quantity, none, .pending⟩

/-- One lot at ten is recorded, and the trade is reported. -/
theorem honest_fill_reported : ∃ d' n',
    serially firstDigests "4" [(.recordFill (closeLot "1.0000") "10.0000", fillInputs)]
      Store.empty 0 = some (d', n') ∧
    checkRows firstDigests "B1" GENESIS_HASH (tradesById "B1" d') = .ok [⟨"B1", "T1", .hashMismatch,
      "5a8b42941de33ed259a129ffb2302603aa4f7a3b350e495dd11e06e305567522",
      "798644a769f0243a43418c37b455ae10ea9904aed9c6f045d461d0c75aad8851"⟩] ∧
    ¬ ∃ checked, (runForBroker firstDigests "B1").solo platform [⟨0, [], 0⟩] d' n' none =
      some (.ok (checked, []), d', n') := by
  have hreport : (serially firstDigests "4"
      [(.recordFill (closeLot "1.0000") "10.0000", fillInputs)] Store.empty 0).any (fun r =>
        checkRows firstDigests "B1" GENESIS_HASH (tradesById "B1" r.1) = .ok [⟨"B1", "T1",
          .hashMismatch, "5a8b42941de33ed259a129ffb2302603aa4f7a3b350e495dd11e06e305567522",
          "798644a769f0243a43418c37b455ae10ea9904aed9c6f045d461d0c75aad8851"⟩]) = true := by
    decide +kernel
  obtain ⟨⟨d', n'⟩, hrun, hrows⟩ := (Option.any_eq_true ..).mp hreport
  have hrows := of_decide_eq_true hrows
  refine ⟨d', n', hrun, hrows, fun hnone => ?_⟩
  rw [runForBroker_run, hrows] at hnone
  simp at hnone

/-- After any calls from empty chains, unless two of the texts that occur have
one digest, the verifier reports no break of a broker exactly when every
amount recorded for it has four decimals. -/
theorem verified_iff {H : Sha256} {lot : String} {calls : List (TradeCall × List Input)}
    {d d' : Store} {n n' : ℕ} (hd : d.trades = [])
    (hrun : serially H lot calls d n = some (d', n'))
    (hdigest : ∀ c ∈ calls, ∀ t ∈ d'.trades,
      H.hex (payload t.prevHash (hashedRecord c.1 t)) = H.hex (payload t.prevHash (rowRecord t)) →
        payload t.prevHash (hashedRecord c.1 t) = payload t.prevHash (rowRecord t))
    (brokerId : String) (i : Input) :
    (∃ checked, (runForBroker H brokerId).solo platform [i] d' n' none =
      some (.ok (checked, []), d', n')) ↔
      ∀ c ∈ calls, callBroker c.1 = brokerId →
        fourDecimals (callAmounts c.1).1 = true ∧ fourDecimals (callAmounts c.1).2 = true := by
  have hstart : Chains d n := by
    refine ⟨?_, ?_, ?_, ?_⟩ <;> simp [hd, tradesOf, Linked]
  obtain ⟨recorded, htrades, hall, hend⟩ := serially_run hstart hrun
  rw [hd, List.nil_append] at htrades
  have hprev : ∀ t ∈ tradesOf brokerId d'.trades, isHash t.prevHash = true := by
    have hrecorded : ∀ t ∈ recorded, isHash t.prevHash = true :=
      (forall_iff_of_forall₂ (P := fun _ => True) hall fun c t _ _ h => by
        simp [h.prevHash]).mp fun _ _ => trivial
    intro t ht
    exact hrecorded t (htrades ▸ (List.mem_filter.mp ht).1)
  rw [runForBroker_run, tradesById_of_ordered (hend.ordered brokerId),
    checkRows_linked (hend.linked brokerId) hprev]
  have hrows : (∀ t ∈ tradesOf brokerId d'.trades,
      t.hash = H.hex (payload t.prevHash (rowRecord t))) ↔
      ∀ t ∈ recorded, t.brokerId = brokerId → t.hash = H.hex (payload t.prevHash (rowRecord t)) := by
    simp [tradesOf, htrades]
  rw [hrows]
  refine (forall_iff_of_forall₂ hall fun c t hc ht h => ?_).symm
  rw [h.broker, h.hash, ← payload_iff h]
  refine imp_congr_right fun _ => ⟨fun hsame => by rw [hsame], hdigest c hc t (htrades ▸ ht)⟩

/-- A fill whose amounts have four decimals. -/
def exactCalls : List (TradeCall × List Input) :=
  [(.recordFill (closeLot "1.0001") "10.0001", fillInputs)]

theorem verified_exact : ∃ d' n' checked,
    serially firstDigests "4" exactCalls Store.empty 0 = some (d', n') ∧
    (tradesById "B1" d').length = 1 ∧
    (runForBroker firstDigests "B1").solo platform [⟨0, [], 0⟩] d' n' none =
      some (.ok (checked, []), d', n') := by
  have hcheck : (serially firstDigests "4" exactCalls Store.empty 0).any (fun r =>
      (tradesById "B1" r.1).length = 1 && r.1.trades.all fun t => exactCalls.all fun c =>
        payload t.prevHash (hashedRecord c.1 t) = payload t.prevHash (rowRecord t)) = true := by
    decide +kernel
  obtain ⟨⟨d', n'⟩, hrun, hrows⟩ := (Option.any_eq_true ..).mp hcheck
  simp only [Bool.and_eq_true, decide_eq_true_eq, List.all_eq_true] at hrows
  obtain ⟨checked, hreport⟩ := (verified_iff (d := Store.empty) rfl hrun
    (fun c hc t ht _ => hrows.2 t ht c hc) "B1" ⟨0, [], 0⟩).mpr (by decide)
  exact ⟨d', n', checked, hrun, hrows.1, hreport⟩

end LpPlatform.ChainVerifier
