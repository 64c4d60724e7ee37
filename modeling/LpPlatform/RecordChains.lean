import LpPlatform.CanonicalJson

/-!
# Chains of records

Records of any kind are chained by the hash of the previous hash and the
canonical text. An honest chain stores what is computed, and the verifier walks
over the items until one does not follow the one before it or does not have its
own hash. So on an honest front the verifier arrives at the first changed item
with the right expectation, and what was changed in that item decides whether it
stops there or at the next one.
-/

namespace LpPlatform.RecordChains

open CanonicalJson JsonTexts JsonTrees JsValues

/-- A hexadecimal digit of either case. -/
def isHexUnit (u : CodeUnit) : Bool :=
  (48 ≤ u.val && u.val ≤ 57) || (97 ≤ u.val && u.val ≤ 102) || (65 ≤ u.val && u.val ≤ 70)

/-- Sixty-four hexadecimal digits. -/
def isHash (t : Text) : Bool := t.length = 64 && t.all isHexUnit

/-- The digest of the platform, in hexadecimal. -/
structure Sha256 where
  /-- The digest of a text in UTF-8. -/
  hex : Text → Text
  /-- It is a hash. -/
  hex_isHash : ∀ payload, isHash (hex payload) = true

/-- A digest given by its values on some texts. -/
def Sha256.known (table : List (Text × Text)) (h : table.all (fun e => isHash e.2) = true) : Sha256 where
  hex payload := ((table.find? fun e => e.1 = payload).map Prod.snd).getD (List.replicate 64 (unit 'f'))
  hex_isHash payload := by
    cases hfound : table.find? fun e => e.1 = payload with
    | none =>
      simp only [Option.map_none, Option.getD_none]
      decide
    | some e => exact List.all_eq_true.mp h e (List.mem_of_find?_eq_some hfound)

/-- `GENESIS_HASH`. -/
def GENESIS_HASH : Text := List.replicate 64 (unit '0')

/-- A text as it is shown: pairs of surrogates are one character, and what is
left of a pair is replaced. -/
def shown : Text → List Char
  | [] => []
  | [u] => [if isHigh u || isLow u then Char.ofNat 0xfffd else Char.ofNat u.val]
  | u :: v :: rest =>
    if isHigh u && isLow v then Char.ofNat (0x10000 + (u.val - 0xd800) * 0x400 + (v.val - 0xdc00)) :: shown rest
    else (if isHigh u || isLow u then Char.ofNat 0xfffd else Char.ofNat u.val) :: shown (v :: rest)

/-- The text that is hashed for a canonical text. -/
def payload (prevHash canonical : Text) : Text := prevHash ++ unit '|' :: canonical

/-- `computeHash`. -/
def computeHash (H : Sha256) (record : Value) (prevHash : Text) : Except Failure Text :=
  if !isHash prevHash then
    .error (.typeError s!"computeHash: prevHash must be 64-hex, got {String.ofList (shown prevHash)}")
  else do
    let canonical ← canonicalize record
    return H.hex (payload prevHash canonical)

/-- One item of a chain. -/
structure ChainItem where
  hash : Text
  prevHash : Text
  record : Value

/-- The loop of `verifyChain` from an index on, with the hash the next item
should follow. -/
def verifyFrom (H : Sha256) : ℕ → Text → List ChainItem → Except Failure ℤ
  | _, _, [] => return -1
  | i, expectedPrev, item :: items =>
    if item.prevHash ≠ expectedPrev then return i
    else do
      let recomputed ← computeHash H item.record item.prevHash
      if recomputed ≠ item.hash then return i
      else verifyFrom H (i + 1) item.hash items

/-- `verifyChain`: the index of the first mismatch, or -1. -/
def verifyChain (H : Sha256) (items : List ChainItem) : Except Failure ℤ := verifyFrom H 0 GENESIS_HASH items

/-- The records chained from a hash on, each under the hash computed for it. -/
def chainFrom (H : Sha256) : Text → List Value → Except Failure (List ChainItem)
  | _, [] => return []
  | prev, record :: records => do
    let hash ← computeHash H record prev
    let items ← chainFrom H hash records
    return ⟨hash, prev, record⟩ :: items

/-- The chain of records that starts at `GENESIS_HASH`. -/
def makeChain (H : Sha256) (records : List Value) : Except Failure (List ChainItem) := chainFrom H GENESIS_HASH records

/-- `canonicalize` accepts the record. -/
def Accepted (record : Value) : Prop := ∃ canonical, canonicalize record = .ok canonical

/-- The texts that are hashed for items. -/
def payloads (items : List ChainItem) : List Text :=
  items.filterMap fun item => (canonicalize item.record).toOption.map (payload item.prevHash)

/-- The digest tells texts apart. -/
def Separates (H : Sha256) (texts : List Text) : Prop := ∀ p ∈ texts, ∀ q ∈ texts, H.hex p = H.hex q → p = q

instance (H : Sha256) (texts : List Text) : Decidable (Separates H texts) :=
  inferInstanceAs (Decidable (∀ p ∈ texts, ∀ q ∈ texts, H.hex p = H.hex q → p = q))

section Honest

variable {H : Sha256} {prev : Text}

/-- From a hash on, every item follows the one before it and has its own hash. -/
def Honest (H : Sha256) : Text → List ChainItem → Prop
  | _, [] => True
  | prev, item :: items =>
    isHash prev = true ∧ item.prevHash = prev ∧ computeHash H item.record item.prevHash = .ok item.hash ∧
      Honest H item.hash items

/-- The hash that comes after items. -/
def lastHash (prev : Text) (items : List ChainItem) : Text := (items.getLast?.map ChainItem.hash).getD prev

theorem lastHash_cons (item : ChainItem) (items : List ChainItem) :
    lastHash prev (item :: items) = lastHash item.hash items := by
  cases items with
  | nil => rfl
  | cons other items => simp [lastHash, List.getLast?_cons]

theorem genesis_isHash : isHash GENESIS_HASH = true := by decide

theorem computeHash_ok {record : Value} {canonical : Text} (hprev : isHash prev = true)
    (h : canonicalize record = .ok canonical) : computeHash H record prev = .ok (H.hex (payload prev canonical)) := by
  rw [computeHash, hprev, h]
  rfl

/-- What a computed hash is the hash of. -/
theorem computeHash_inv {record : Value} {hash : Text} (h : computeHash H record prev = .ok hash) :
    ∃ canonical, canonicalize record = .ok canonical ∧ hash = H.hex (payload prev canonical) := by
  rw [computeHash] at h
  split at h
  · cases h
  · cases hcanonical : canonicalize record with
    | error e => simp [hcanonical, bind, Except.bind] at h
    | ok canonical =>
      rw [hcanonical] at h
      exact ⟨canonical, rfl, (Except.ok.inj h).symm⟩

/-- A text is told from another by the part after the bar. -/
theorem payload_inj {canonical canonical' : Text} (h : payload prev canonical = payload prev canonical') :
    canonical = canonical' := (List.cons.inj (List.append_cancel_left h)).2

/-- Records that are accepted have a chain, which is honest. -/
theorem chainFrom_honest {records : List Value} (hprev : isHash prev = true) (h : ∀ record ∈ records, Accepted record) :
    ∃ items, chainFrom H prev records = .ok items ∧ items.map ChainItem.record = records ∧ Honest H prev items := by
  induction records generalizing prev with
  | nil => exact ⟨[], rfl, rfl, trivial⟩
  | cons record records ih =>
    obtain ⟨canonical, hcanonical⟩ := h record List.mem_cons_self
    have hhash := @computeHash_ok H prev record canonical hprev hcanonical
    obtain ⟨items, hitems, hrecords, hhonest⟩ := ih (H.hex_isHash (payload prev canonical)) fun other hother =>
      h other (List.mem_cons_of_mem _ hother)
    refine ⟨⟨_, prev, record⟩ :: items, ?_, congrArg (record :: ·) hrecords, hprev, rfl, hhash, hhonest⟩
    rw [chainFrom, hhash]
    simp only [bind, Except.bind, hitems]
    rfl

/-- What follows an honest front is honest from the last hash on. -/
theorem honest_append {front back : List ChainItem} :
    Honest H prev (front ++ back) ↔ Honest H prev front ∧ Honest H (lastHash prev front) back := by
  induction front generalizing prev with
  | nil => simp [Honest, lastHash]
  | cons item front ih =>
    rw [List.cons_append, Honest, Honest, ih, lastHash_cons]
    tauto

/-- The verifier passes an item that follows and has its own hash. -/
theorem verifyFrom_pass {item : ChainItem} {items : List ChainItem} (i : ℕ) (hlink : item.prevHash = prev)
    (hhash : computeHash H item.record item.prevHash = .ok item.hash) :
    verifyFrom H i prev (item :: items) = verifyFrom H (i + 1) item.hash items := by
  rw [verifyFrom, if_neg (not_not.mpr hlink), hhash]
  exact if_neg (not_not.mpr rfl)

/-- It stops at one that does not follow. -/
theorem verifyFrom_unlinked {item : ChainItem} {items : List ChainItem} (i : ℕ) (hlink : item.prevHash ≠ prev) :
    verifyFrom H i prev (item :: items) = .ok i := by
  rw [verifyFrom, if_pos hlink]
  rfl

/-- It stops at one with another hash than its own. -/
theorem verifyFrom_forged {item : ChainItem} {items : List ChainItem} {hash : Text} (i : ℕ)
    (hlink : item.prevHash = prev) (hhash : computeHash H item.record item.prevHash = .ok hash)
    (hforged : hash ≠ item.hash) : verifyFrom H i prev (item :: items) = .ok i := by
  rw [verifyFrom, if_neg (not_not.mpr hlink), hhash]
  exact if_pos hforged

/-- It passes an honest front. -/
theorem verifyFrom_front {front : List ChainItem} (h : Honest H prev front) (back : List ChainItem) (i : ℕ) :
    verifyFrom H i prev (front ++ back) = verifyFrom H (i + front.length) (lastHash prev front) back := by
  induction front generalizing prev i with
  | nil => rfl
  | cons item front ih =>
    obtain ⟨hprev, hlink, hhash, hrest⟩ := h
    rw [List.cons_append, verifyFrom_pass i hlink hhash, ih hrest, lastHash_cons, List.length_cons]
    congr 1
    omega

end Honest

section Tampering

variable {H : Sha256} {prev : Text} {items : List ChainItem}

/-- The verifier accepts an honest chain. -/
theorem verifyFrom_honest (h : Honest H prev items) (i : ℕ) : verifyFrom H i prev items = .ok (-1) := by
  have hfront := verifyFrom_front h [] i
  rw [List.append_nil] at hfront
  rw [hfront]
  rfl

/-- An item of an honest chain, between an honest front and an honest rest. -/
theorem honest_at (h : Honest H prev items) {i : ℕ} (hi : i < items.length) :
    Honest H prev (items.take i) ∧ isHash (lastHash prev (items.take i)) = true ∧
      items[i].prevHash = lastHash prev (items.take i) ∧
      computeHash H items[i].record items[i].prevHash = .ok items[i].hash ∧
      Honest H items[i].hash (items.drop (i + 1)) := by
  rw [← List.take_append_drop i items, List.drop_eq_getElem_cons hi] at h
  exact honest_append.mp h

/-- The verifier arrives at a changed item as at the honest one. -/
theorem verifyFrom_set (h : Honest H prev items) {i : ℕ} (hi : i < items.length) (changed : ChainItem) :
    verifyFrom H 0 prev (items.set i changed) =
      verifyFrom H i (lastHash prev (items.take i)) (changed :: items.drop (i + 1)) := by
  rw [List.set_eq_take_append_cons_drop, if_pos hi, verifyFrom_front (honest_at h hi).1, List.length_take_of_le hi.le,
    Nat.zero_add]

/-- What is hashed for an item is among the payloads. -/
theorem mem_payloads {item : ChainItem} {canonical : Text} (hitem : item ∈ items)
    (h : canonicalize item.record = .ok canonical) : payload item.prevHash canonical ∈ payloads items := by
  refine List.mem_filterMap.mpr ⟨item, hitem, ?_⟩
  rw [h]
  rfl

/-- A record with another canonical text has another hash. -/
theorem hash_changed {i : ℕ} (hi : i < items.length) {record : Value} {hash : Text}
    (hhash : computeHash H record items[i].prevHash = .ok hash)
    (hown : computeHash H items[i].record items[i].prevHash = .ok items[i].hash)
    (hother : canonicalize record ≠ canonicalize items[i].record)
    (hseparates : Separates H (payloads items ++ payloads (items.set i ⟨items[i].hash, items[i].prevHash, record⟩))) :
    hash ≠ items[i].hash := by
  obtain ⟨canonical, hcanonical, hchanged⟩ := computeHash_inv hhash
  obtain ⟨canonical', hcanonical', hkept⟩ := computeHash_inv hown
  intro hsame
  rw [hchanged, hkept] at hsame
  have hold : payload items[i].prevHash canonical' ∈ payloads items := mem_payloads (List.getElem_mem hi) hcanonical'
  have hnew : payload items[i].prevHash canonical ∈ payloads (items.set i ⟨items[i].hash, items[i].prevHash, record⟩) :=
    @mem_payloads _ ⟨items[i].hash, items[i].prevHash, record⟩ _ (List.mem_set hi _) hcanonical
  have hpayload := hseparates _ (List.mem_append_right _ hnew) _ (List.mem_append_left _ hold) hsame
  rw [hcanonical, hcanonical', payload_inj hpayload] at hother
  exact hother rfl

end Tampering

/-- Records that `canonicalize` accepts have an honest chain, which the verifier
accepts. When one item of it is changed, the verifier stops at this item if its
record has another canonical text, its hash is another or its previous hash is
another, and at the next item if the hash of the changed record is recomputed.
Of the digest it is assumed that it tells apart the texts that are hashed. -/
theorem verify_chain_locates (H : Sha256) (records : List Value) (h : ∀ record ∈ records, Accepted record) :
    ∃ items, makeChain H records = .ok items ∧ items.map ChainItem.record = records ∧
      verifyChain H items = .ok (-1) ∧ ∀ i (hi : i < items.length),
        (∀ record, Accepted record → canonicalize record ≠ canonicalize items[i].record →
          Separates H (payloads items ++ payloads (items.set i ⟨items[i].hash, items[i].prevHash, record⟩)) →
          verifyChain H (items.set i ⟨items[i].hash, items[i].prevHash, record⟩) = .ok i ∧
            ∃ hash, computeHash H record items[i].prevHash = .ok hash ∧ (i + 1 < items.length →
              verifyChain H (items.set i ⟨hash, items[i].prevHash, record⟩) = .ok (i + 1))) ∧
        (∀ hash, hash ≠ items[i].hash → verifyChain H (items.set i ⟨hash, items[i].prevHash, items[i].record⟩) = .ok i) ∧
        ∀ prevHash, prevHash ≠ items[i].prevHash →
          verifyChain H (items.set i ⟨items[i].hash, prevHash, items[i].record⟩) = .ok i := by
  obtain ⟨items, hitems, hrecords, hhonest⟩ := chainFrom_honest genesis_isHash h
  refine ⟨items, hitems, hrecords, verifyFrom_honest hhonest 0, fun i hi => ?_⟩
  obtain ⟨_, hprev, hlink, hown, hrest⟩ := honest_at hhonest hi
  refine ⟨fun record haccepted hother hseparates => ?_, fun hash hhash => ?_, fun prevHash hprevHash => ?_⟩
  · obtain ⟨canonical, hcanonical⟩ := haccepted
    have hhash := @computeHash_ok H items[i].prevHash record canonical (hlink ▸ hprev) hcanonical
    have hchanged := hash_changed hi hhash hown hother hseparates
    refine ⟨?_, _, hhash, fun hnext => ?_⟩
    · rw [verifyChain, verifyFrom_set hhonest hi]
      exact verifyFrom_forged i hlink hhash hchanged
    · -- the next item still follows the old hash
      have hnextLink : items[i + 1].prevHash = items[i].hash := by
        rw [List.drop_eq_getElem_cons hnext] at hrest
        exact hrest.2.1
      rw [verifyChain, verifyFrom_set hhonest hi, @verifyFrom_pass _ _ ⟨_, _, record⟩ _ i hlink hhash, List.drop_eq_getElem_cons hnext]
      exact verifyFrom_unlinked (i + 1) (hnextLink ▸ hchanged.symm)
  · rw [verifyChain, verifyFrom_set hhonest hi]
    exact verifyFrom_forged i hlink hown hhash.symm
  · rw [verifyChain, verifyFrom_set hhonest hi]
    exact verifyFrom_unlinked i (hlink ▸ hprevHash)

/-- A record with one field. -/
def idRecord (id : String) : Value := .object [(ascii "id", .string (ascii id))]

/-- The hash of the first of two records in a chain. -/
def firstHash : Text := ascii "8e4f2732651403cf9932e86b1356d62ff5f989818efe60ce8c5e1b8955c3f146"

/-- The hash of the second. -/
def secondHash : Text := ascii "dd1e77df52bffd223ba8313de21445d421306f917d71fdfc7e18c06fc591d3b7"

/-- The hash of another record in place of the first. -/
def otherHash : Text := ascii "5387784c2a8047106ae00f0ab5b676f40a3f4eb633d87040c8ec737c7d270cc5"

/-- The digests of these records. -/
def sampleDigest : Sha256 := .known
  [(payload GENESIS_HASH (ascii "\x7b\"id\":\"T1\"\x7d"), firstHash),
    (payload firstHash (ascii "\x7b\"id\":\"T2\"\x7d"), secondHash),
    (payload GENESIS_HASH (ascii "\x7b\"id\":\"T9\"\x7d"), otherHash)] (by decide +kernel)

/-- The chain of the two records. -/
def sampleItems : List ChainItem :=
  [⟨firstHash, GENESIS_HASH, idRecord "T1"⟩, ⟨secondHash, firstHash, idRecord "T2"⟩]

theorem makeChain_sample : makeChain sampleDigest [idRecord "T1", idRecord "T2"] = .ok sampleItems := by
  have hfirst : computeHash sampleDigest (idRecord "T1") GENESIS_HASH = .ok firstHash := by
    rw [computeHash_ok genesis_isHash rfl]
    exact congrArg Except.ok (by decide +kernel)
  have hsecond : computeHash sampleDigest (idRecord "T2") firstHash = .ok secondHash := by
    rw [computeHash_ok (by decide +kernel) rfl]
    exact congrArg Except.ok (by decide +kernel)
  rw [makeChain, chainFrom, hfirst]
  simp only [bind, Except.bind, chainFrom, hsecond]
  rfl

theorem verify_chain_locates_two : verifyChain sampleDigest sampleItems = .ok (-1) ∧
    verifyChain sampleDigest [⟨firstHash, GENESIS_HASH, idRecord "T9"⟩, ⟨secondHash, firstHash, idRecord "T2"⟩] = .ok 0 ∧
    verifyChain sampleDigest [⟨firstHash, GENESIS_HASH, idRecord "T1"⟩, ⟨otherHash, firstHash, idRecord "T2"⟩] = .ok 1 ∧
    verifyChain sampleDigest [⟨firstHash, GENESIS_HASH, idRecord "T1"⟩, ⟨secondHash, GENESIS_HASH, idRecord "T2"⟩] =
      .ok 1 := by
  obtain ⟨items, hitems, -, haccepts, hlocates⟩ := verify_chain_locates sampleDigest [idRecord "T1", idRecord "T2"]
    fun record hrecord => by
      simp only [List.mem_cons, List.not_mem_nil, or_false] at hrecord
      rcases hrecord with rfl | rfl <;> exact ⟨_, rfl⟩
  obtain rfl : sampleItems = items := Except.ok.inj (makeChain_sample.symm.trans hitems)
  have hother : canonicalize (idRecord "T9") ≠ canonicalize (idRecord "T1") := fun h =>
    absurd (Except.ok.inj h) (by decide +kernel)
  exact ⟨haccepts, ((hlocates 0 (by decide)).1 (idRecord "T9") ⟨_, rfl⟩ hother (by decide +kernel)).1,
    (hlocates 1 (by decide)).2.1 otherHash (by decide +kernel), (hlocates 1 (by decide)).2.2 GENESIS_HASH (by decide +kernel)⟩

end LpPlatform.RecordChains
