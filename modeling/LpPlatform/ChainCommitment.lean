import LpPlatform.InstantText
import LpPlatform.VerifierAgreement

/-!
# The last hash commits to the chain

As long as the texts that occur have different digests, none of them the hash
of genesis, the last hash of a list of rows that verifies determines the rows
before it, column by column. Going back from equal last hashes, the texts that
were hashed are equal, the previous hashes are read off them, and the argument
repeats.
-/

namespace LpPlatform.ChainCommitment

open Amounts ChainVerifier HashChain JsValues Ledger RowStore StatementProgram Tables TradeChain
open VerifierAgreement

/-- The text that is hashed for a stored row. -/
def rowPayload (t : Trade) : String := payload t.prevHash (rowRecord t)

/-- No break is found in the rows, by the worker's verifier on a store that
holds them or by `verifyChain`. -/
def Verifies (H : Sha256) (brokerId : String) (rows : List Trade) : Prop :=
  (∃ d i n checked, tradesById brokerId d = rows ∧
    (runForBroker H brokerId).solo platform [i] d n none = some (.ok (checked, []), d, n)) ∨
  verifyChain H (rows.map chainItem) = .ok (-1)

/-- The rows agree on every column that is hashed, and on their hashes. -/
structure SameRow (t u : Trade) : Prop where
  tradeId : t.tradeId = u.tradeId
  orderId : t.orderId = u.orderId
  brokerId : t.brokerId = u.brokerId
  symbol : t.symbol = u.symbol
  side : t.side = u.side
  quantity : t.quantity.text = u.quantity.text
  price : t.price.text = u.price.text
  executedAt : t.executedAt = u.executedAt
  prevHash : t.prevHash = u.prevHash
  hash : t.hash = u.hash

/-- The hash that the next row would follow. -/
def tailHash (prev : String) (rows : List Trade) : String := (rows.getLast?.map (·.hash)).getD prev

/-- The rows follow each other from a hash on, and every hash is that of its
row. -/
structure Intact (H : Sha256) (prev : String) (rows : List Trade) : Prop where
  linked : Linked prev rows
  hashes : ∀ t ∈ rows, computeHash H (rowRecord t) t.prevHash = .ok t.hash

/-- The texts that occur have different digests, none of them genesis. -/
structure Distinct (H : Sha256) (rows : List Trade) : Prop where
  injective : ∀ t ∈ rows, ∀ u ∈ rows, H.hex (rowPayload t) = H.hex (rowPayload u) →
    rowPayload t = rowPayload u
  genesis : ∀ t ∈ rows, H.hex (rowPayload t) ≠ GENESIS_HASH

section Rules

variable {H : Sha256} {prev brokerId : String} {rows rows' : List Trade} {t u : Trade}

/-- Rows without a broken one are intact. -/
theorem intact_iff : Intact H prev rows ↔ ∀ i t, ¬ BrokenAt H prev rows i t := by
  induction rows generalizing prev with
  | nil => exact ⟨fun _ i t => by simp [BrokenAt], fun _ => ⟨trivial, by simp⟩⟩
  | cons row rows ih =>
    have hcons : Intact H prev (row :: rows) ↔ ¬ Broken H prev row ∧ Intact H row.hash rows := by
      simp only [Broken, not_or, not_not]
      constructor
      · rintro ⟨⟨hprev, hlinked⟩, hhashes⟩
        obtain ⟨hhash, hrest⟩ := List.forall_mem_cons.mp hhashes
        exact ⟨⟨hprev, hhash⟩, hlinked, hrest⟩
      · rintro ⟨⟨hprev, hhash⟩, hlinked, hrest⟩
        exact ⟨⟨hprev, hlinked⟩, List.forall_mem_cons.mpr ⟨hhash, hrest⟩⟩
    rw [hcons, ih]
    constructor
    · rintro ⟨hfirst, hrest⟩ i u hbroken
      cases i with
      | zero => exact hfirst (brokenAt_zero.mp hbroken).2
      | succ i => exact hrest i u (brokenAt_succ.mp hbroken)
    · intro hnone
      exact ⟨fun hfirst => hnone 0 row (brokenAt_zero.mpr ⟨rfl, hfirst⟩),
        fun i u hbroken => hnone (i + 1) u (brokenAt_succ.mpr hbroken)⟩

/-- The worker's verifier finds no break only in intact rows. -/
theorem intact_of_checkRows (h : checkRows H brokerId prev rows = .ok []) : Intact H prev rows := by
  induction rows generalizing prev with
  | nil => exact ⟨trivial, by simp⟩
  | cons row rows ih =>
    by_cases hsame : row.prevHash = prev
    · simp only [checkRows, hsame, ne_eq, not_true, if_false, bind, Except.bind, pure,
        Except.pure] at h
      cases hhash : computeHash H (rowRecord row) prev with
      | error e => simp [hhash] at h
      | ok recomputed =>
        rw [hhash] at h
        cases hrest : checkRows H brokerId row.hash rows with
        | error e => simp [hrest] at h
        | ok breaks =>
          by_cases heq : recomputed = row.hash
          · have hnone : breaks = [] := by simpa [hrest, heq] using h
            have hintact := ih (hnone ▸ hrest)
            have hfirst : computeHash H (rowRecord row) row.prevHash = .ok row.hash := by
              rw [hsame, hhash, heq]
            exact ⟨⟨hsame, hintact.linked⟩, List.forall_mem_cons.mpr ⟨hfirst, hintact.hashes⟩⟩
          · simp [hrest, heq] at h
    · simp only [checkRows, ne_eq, hsame, not_false_eq_true, if_true, bind, Except.bind, pure,
        Except.pure] at h
      cases hrest : checkRows H brokerId row.hash rows with
      | error e => simp [hrest] at h
      | ok breaks => simp [hrest] at h

/-- `verifyChain` finds no mismatch exactly in intact rows. -/
theorem verifyChain_iff : verifyChain H (rows.map chainItem) = .ok (-1) ↔
    Intact H GENESIS_HASH rows := by
  obtain ⟨index, hrun, hfirst⟩ := verifyChain_first H rows
  rw [hrun, intact_iff]
  rcases hfirst with ⟨rfl, hnone⟩ | ⟨i, t, rfl, hbroken, -⟩
  · exact iff_of_true rfl hnone
  · refine iff_of_false (fun hnone => ?_) fun hnone => hnone i t hbroken
    have hindex : (i : ℤ) = -1 := Except.ok.inj hnone
    omega

/-- Rows verify exactly when they are intact. -/
theorem verifies_iff : Verifies H brokerId rows ↔ Intact H GENESIS_HASH rows := by
  constructor
  · rintro (⟨d, i, n, checked, rfl, hrun⟩ | hchain)
    · exact intact_of_checkRows (runForBroker_run.mp ⟨checked, hrun⟩)
    · exact verifyChain_iff.mp hchain
  · exact fun hintact => Or.inr (verifyChain_iff.mpr hintact)

theorem intact_concat : Intact H prev (rows ++ [t]) ↔ Intact H prev rows ∧
    t.prevHash = tailHash prev rows ∧ computeHash H (rowRecord t) t.prevHash = .ok t.hash := by
  constructor
  · rintro ⟨hlinked, hhashes⟩
    obtain ⟨hrest, hlast⟩ := linked_concat.mp hlinked
    exact ⟨⟨hrest, fun u hu => hhashes u (List.mem_append_left _ hu)⟩, hlast,
      hhashes t (List.mem_append_right _ (List.mem_singleton_self t))⟩
  · rintro ⟨⟨hlinked, hhashes⟩, hlast, hhash⟩
    refine ⟨linked_concat.mpr ⟨hlinked, hlast⟩, fun u hu => ?_⟩
    rw [List.mem_append, List.mem_singleton] at hu
    rcases hu with hu | rfl
    · exact hhashes u hu
    · exact hhash

/-- Two hashes of the same length end at the same place. -/
theorem payload_inj {p q : String} {r s : Json} (hp : isHash p = true) (hq : isHash q = true)
    (h : payload p r = payload q s) : p = q ∧ canonicalize r = canonicalize s := by
  have hlength : ∀ {x : String}, isHash x = true → x.toList.length = 64 := fun hx => by
    simp only [isHash, Bool.and_eq_true, decide_eq_true_eq] at hx
    exact hx.1
  have hlist := congrArg String.toList h
  simp only [payload, String.toList_append, List.append_assoc] at hlist
  obtain ⟨hprev, hrest⟩ := List.append_inj hlist ((hlength hp).trans (hlength hq).symm)
  exact ⟨String.toList_inj.mp hprev, String.toList_inj.mp (List.append_cancel_left hrest)⟩

/-- Rows with one text and one hash are the same. -/
theorem sameRow_of_payload (ht : isHash t.prevHash = true) (hu : isHash u.prevHash = true)
    (h : rowPayload t = rowPayload u) (hhash : t.hash = u.hash) : SameRow t u := by
  obtain ⟨hprev, hrecord⟩ := payload_inj ht hu h
  obtain ⟨⟨htrade, horder, hbroker, hsymbol, hside⟩, hquantity, hprice, hexecuted⟩ :=
    tradeRecord_inj hrecord
  exact ⟨htrade, horder, hbroker, hsymbol, hside, hquantity, hprice, toISOString_inj hexecuted,
    hprev, hhash⟩

theorem tailHash_concat (prev : String) (rows : List Trade) (t : Trade) :
    tailHash prev (rows ++ [t]) = t.hash := by
  simp [tailHash]

/-- A hash of intact rows is not genesis. -/
theorem hash_ne_genesis (hdistinct : Distinct H rows) (ht : t ∈ rows)
    (h : computeHash H (rowRecord t) t.prevHash = .ok t.hash) : t.hash ≠ GENESIS_HASH := by
  rw [(computeHash_eq h).2]
  exact hdistinct.genesis t ht

/-- Intact rows with one last hash are the same, going back from the end. -/
theorem sameRows_of_tail {all : List Trade} (hdistinct : Distinct H all)
    (hsub : ∀ t ∈ rows, t ∈ all) (hsub' : ∀ t ∈ rows', t ∈ all)
    (hintact : Intact H GENESIS_HASH rows) (hintact' : Intact H GENESIS_HASH rows')
    (htail : tailHash GENESIS_HASH rows = tailHash GENESIS_HASH rows') :
    List.Forall₂ SameRow rows rows' := by
  induction rows using List.reverseRecOn generalizing rows' with
  | nil =>
    cases rows' using List.reverseRecOn with
    | nil => exact .nil
    | append_singleton rows' u =>
      rw [tailHash_concat] at htail
      have hu : u ∈ rows' ++ [u] := List.mem_append_right _ (List.mem_singleton_self u)
      have hhash := hintact'.hashes u hu
      exact absurd htail.symm (hash_ne_genesis hdistinct (hsub' u hu) hhash)
  | append_singleton rows t ih =>
    have ht : t ∈ rows ++ [t] := List.mem_append_right _ (List.mem_singleton_self t)
    obtain ⟨hrest, hprev, hhash⟩ := intact_concat.mp hintact
    cases rows' using List.reverseRecOn with
    | nil =>
      rw [tailHash_concat] at htail
      exact absurd htail (hash_ne_genesis hdistinct (hsub t ht) hhash)
    | append_singleton rows' u =>
      have hu : u ∈ rows' ++ [u] := List.mem_append_right _ (List.mem_singleton_self u)
      obtain ⟨hrest', hprev', hhash'⟩ := intact_concat.mp hintact'
      rw [tailHash_concat, tailHash_concat] at htail
      obtain ⟨hhex, hthash⟩ := computeHash_eq hhash
      obtain ⟨hhex', huhash⟩ := computeHash_eq hhash'
      have hpayload : rowPayload t = rowPayload u :=
        hdistinct.injective t (hsub t ht) u (hsub' u hu) (hthash.symm.trans (htail.trans huhash))
      have hsame := sameRow_of_payload hhex hhex' hpayload htail
      have hbefore : tailHash GENESIS_HASH rows = tailHash GENESIS_HASH rows' :=
        hprev.symm.trans (hsame.prevHash.trans hprev')
      have hrows := ih (fun x hx => hsub x (List.mem_append_left _ hx))
        (fun x hx => hsub' x (List.mem_append_left _ hx)) hrest hrest' hbefore
      exact List.rel_append hrows (.cons hsame .nil)

end Rules

/-- Rows that keep the last hash of rows that verify agree with them column by
column when they verify as well, and are reported otherwise. -/
theorem tail_commits {H : Sha256} {brokerId : String} {rows rows' : List Trade}
    (hdistinct : Distinct H (rows ++ rows')) (hrows : Verifies H brokerId rows)
    (htail : tailHash GENESIS_HASH rows = tailHash GENESIS_HASH rows') :
    (Verifies H brokerId rows' → rows.length = rows'.length ∧ List.Forall₂ SameRow rows rows') ∧
    (¬ List.Forall₂ SameRow rows rows' → ¬ Verifies H brokerId rows' ∧
      ∃ (i : ℕ) (t : Trade), verifyChain H (rows'.map chainItem) = .ok (i : ℤ) ∧
        BrokenAt H GENESIS_HASH rows' i t) := by
  have hsame : Verifies H brokerId rows' → List.Forall₂ SameRow rows rows' := fun hrows' =>
    sameRows_of_tail hdistinct (fun t ht => List.mem_append_left _ ht)
      (fun t ht => List.mem_append_right _ ht) (verifies_iff.mp hrows) (verifies_iff.mp hrows') htail
  refine ⟨fun hrows' => ⟨(hsame hrows').length_eq, hsame hrows'⟩, fun hother => ?_⟩
  have hnot : ¬ Verifies H brokerId rows' := fun hrows' => hother (hsame hrows')
  refine ⟨hnot, ?_⟩
  obtain ⟨index, hrun, ⟨rfl, -⟩ | ⟨i, t, rfl, hbroken, -⟩⟩ := verifyChain_first H rows'
  · exact absurd (Or.inr hrun) hnot
  · exact ⟨i, t, hrun, hbroken⟩

/-- A hash of one digit. -/
def flatHash (digit : Char) : String := String.ofList (List.replicate 64 digit)

/-- The first of two rows, under an identity value and with a quantity. -/
def firstRow (id : ℕ) (quantity : Numeric) : Trade :=
  ⟨id, "T1", "O1", "B1", "EURUSD", .buy, quantity, .one, 0, GENESIS_HASH, flatHash 'a'⟩

/-- The second of two rows, under an identity value. -/
def secondRow (id : ℕ) : Trade :=
  ⟨id, "T2", "O2", "B1", "EURUSD", .sell, .one, .one, 0, flatHash 'a',
    flatHash 'f'⟩

/-- The quantity of the first row. -/
def oneLot : Numeric := .one

/-- The quantity after an edit. -/
def twoLots : Numeric := ⟨20000, by decide⟩

/-- The digests of the first row before and after the edit. -/
def rowDigests : Sha256 := .known [(rowPayload (firstRow 1 oneLot), flatHash 'a'),
  (rowPayload (firstRow 1 twoLots), flatHash 'b')] (by decide)

/-- Rows with different quantities or ids have different texts. -/
theorem rowPayload_ne {t u : Trade} (ht : isHash t.prevHash = true) (hu : isHash u.prevHash = true)
    (h : t.tradeId ≠ u.tradeId ∨ t.quantity.text ≠ u.quantity.text) : rowPayload t ≠ rowPayload u := by
  intro hsame
  obtain ⟨⟨htrade, -⟩, hquantity, -⟩ := tradeRecord_inj (payload_inj ht hu hsame).2
  exact h.elim (fun hne => hne htrade) fun hne => hne hquantity

theorem rowDigests_hex : rowDigests.hex (rowPayload (firstRow 1 oneLot)) = flatHash 'a' ∧
    rowDigests.hex (rowPayload (firstRow 1 twoLots)) = flatHash 'b' ∧
    rowDigests.hex (rowPayload (secondRow 2)) = flatHash 'f' := by
  have hgenesis : ∀ quantity, isHash (firstRow 1 quantity).prevHash = true := fun _ => genesis_isHash
  have hfirst : isHash (secondRow 2).prevHash = true := by decide
  have hedit : rowPayload (firstRow 1 oneLot) ≠ rowPayload (firstRow 1 twoLots) :=
    rowPayload_ne (hgenesis _) (hgenesis _) (Or.inr (by decide))
  have hnext : ∀ quantity, rowPayload (firstRow 1 quantity) ≠ rowPayload (secondRow 2) :=
    fun quantity => rowPayload_ne (hgenesis quantity) hfirst (Or.inl (by simp [firstRow, secondRow]))
  refine ⟨?_, ?_, ?_⟩ <;> simp [rowDigests, Sha256.known, hedit, hnext, flatHash]

/-- The three texts have different digests. -/
theorem distinct_rows {rows : List Trade} (h : ∀ t ∈ rows,
    rowPayload t = rowPayload (firstRow 1 oneLot) ∨ rowPayload t = rowPayload (firstRow 1 twoLots) ∨
      rowPayload t = rowPayload (secondRow 2)) : Distinct rowDigests rows := by
  obtain ⟨hone, htwo, hsecond⟩ := rowDigests_hex
  have hdiffer : flatHash 'a' ≠ flatHash 'b' ∧ flatHash 'a' ≠ flatHash 'f' ∧
      flatHash 'b' ≠ flatHash 'f' := by decide
  constructor
  · intro t ht u hu hsame
    rcases h t ht with ht | ht | ht <;> rcases h u hu with hu | hu | hu <;>
      simp only [ht, hu, hone, htwo, hsecond, hdiffer, hdiffer.1.symm, hdiffer.2.1.symm,
        hdiffer.2.2.symm] at hsame ⊢
  · intro t ht
    have hgenesis : flatHash 'a' ≠ GENESIS_HASH ∧ flatHash 'b' ≠ GENESIS_HASH ∧
        flatHash 'f' ≠ GENESIS_HASH := by decide
    rcases h t ht with ht | ht | ht
    · rw [ht, hone]
      exact hgenesis.1
    · rw [ht, htwo]
      exact hgenesis.2.1
    · rw [ht, hsecond]
      exact hgenesis.2.2

/-- Two rows verify under any identity values, and an edit of the first one
that keeps the last hash is reported. -/
theorem tail_commits_two :
    List.Forall₂ SameRow [firstRow 1 oneLot, secondRow 2] [firstRow 7 oneLot, secondRow 9] ∧
    ¬ Verifies rowDigests "B1" [firstRow 1 twoLots, secondRow 2] := by
  obtain ⟨hone, -, hsecond⟩ := rowDigests_hex
  have hnumbered : ∀ i j, Verifies rowDigests "B1" [firstRow i oneLot, secondRow j] := by
    intro i j
    have hfirst : computeHash rowDigests (rowRecord (firstRow i oneLot)) GENESIS_HASH =
        .ok (flatHash 'a') := (computeHash_ok genesis_isHash).trans (congrArg _ hone)
    have hlast : computeHash rowDigests (rowRecord (secondRow j)) (flatHash 'a') =
        .ok (flatHash 'f') := (computeHash_ok (by decide)).trans (congrArg _ hsecond)
    refine verifies_iff.mpr ⟨⟨rfl, rfl, trivial⟩, ?_⟩
    exact List.forall_mem_cons.mpr ⟨hfirst, List.forall_mem_cons.mpr ⟨hlast, by simp⟩⟩
  have hother : ¬ List.Forall₂ SameRow [firstRow 1 oneLot, secondRow 2]
      [firstRow 1 twoLots, secondRow 2] := by
    intro hsame
    obtain ⟨hfirst, -⟩ := List.forall₂_cons.mp hsame
    exact absurd hfirst.quantity (by decide)
  refine ⟨((tail_commits (distinct_rows ?_) (hnumbered 1 2) (by decide)).1 (hnumbered 7 9)).2,
    ((tail_commits (distinct_rows ?_) (hnumbered 1 2) (by decide)).2 hother).1⟩
  · intro t ht
    simp only [List.cons_append, List.nil_append, List.mem_cons, List.not_mem_nil, or_false] at ht
    rcases ht with rfl | rfl | rfl | rfl
    · exact Or.inl rfl
    · exact Or.inr (Or.inr rfl)
    · exact Or.inl rfl
    · exact Or.inr (Or.inr rfl)
  · intro t ht
    simp only [List.cons_append, List.nil_append, List.mem_cons, List.not_mem_nil, or_false] at ht
    rcases ht with rfl | rfl | rfl | rfl
    · exact Or.inl rfl
    · exact Or.inr (Or.inr rfl)
    · exact Or.inr (Or.inl rfl)
    · exact Or.inr (Or.inr rfl)

end LpPlatform.ChainCommitment
