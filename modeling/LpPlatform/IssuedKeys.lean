import LpPlatform.Base64
import LpPlatform.BrokersAdmin
import LpPlatform.GuardSoundness
import LpPlatform.HmacSignatures

/-!
# The keys that onboardings issue

A new broker gets an identifier with three random bytes and an API key: a
prefix of four random bytes and a secret of twenty-four, of which the hash is
stored. Identifiers of brokers are unique in the database; prefixes are not,
and the guard takes any row with the prefix. So the requests that a broker
signs with its key pass exactly as long as no other key with its prefix was
issued.
-/

namespace LpPlatform.IssuedKeys

open AdminAuth (Argon2)
open OrderIntake (AuthenticatedBroker)
open Amounts Base64 BrokersAdmin GuardSoundness HashChain HmacGuard HmacSignatures JsValues Ledger RowStore
open SessionReplays StatementProgram StepRuns Tables

/-- A letter or digit of a slug. -/
def isSlugChar (c : Char) : Bool := ('a' ≤ c && c ≤ 'z') || ('0' ≤ c && c ≤ '9')

/-- Every run of other characters is one hyphen. -/
def hyphenate : List Char → List Char
  | [] => []
  | c :: rest =>
    if isSlugChar c then c :: hyphenate rest
    else match hyphenate rest with
      | '-' :: more => '-' :: more
      | more => '-' :: more

/-- Hyphens are removed at both ends. -/
def trimHyphens (text : List Char) : List Char :=
  ((text.dropWhile (· = '-')).reverse.dropWhile (· = '-')).reverse

/-- `slug`. -/
def slug (K : OnboardingConfig) (displayName : String) : String :=
  let text := (trimHyphens (hyphenate (K.lowerCase displayName).toList)).take 32
  if text = [] then "broker" else String.ofList text

/-- What a call draws. -/
structure Draws where
  /-- The random bytes of the broker's identifier. -/
  brokerBytes : Bytes 3
  /-- The random bytes of the key's prefix. -/
  prefixBytes : Bytes 4
  /-- The random bytes of the secret. -/
  secretBytes : Bytes 24
  /-- The salt of its hash. -/
  salt : String
  apiKeyId : String
  /-- What comes of the statements on other tables and of the commit. -/
  others : Except Failure Unit

/-- Random bytes in hexadecimal digits. -/
def hex {n : ℕ} (bytes : Bytes n) : String := String.ofList (hexText bytes.val)

/-- The key that a call returns, with its broker. -/
structure IssuedKey where
  brokerId : String
  keyPrefix : String
  secret : String
  deriving DecidableEq

/-- `apiKey.full`. -/
def IssuedKey.full (key : IssuedKey) : String := key.keyPrefix ++ "." ++ key.secret

/-- The rows that a call reads and adds to. -/
structure KeyTables where
  registry : Registry
  /-- `users.email`. -/
  logins : List String

/-- The key of a new broker. -/
def newKey (K : OnboardingConfig) (displayName : String) (draws : Draws) : IssuedKey where
  brokerId := slug K displayName ++ "-" ++ hex draws.brokerBytes
  keyPrefix := "lp_" ++ hex draws.prefixBytes
  secret := String.ofList (Base64.encode .url draws.secretBytes.val)

/-- The inserted rows, unless one breaks a unique column. -/
def insertRows (tables : KeyTables) (broker : BrokerRow) (row : ApiKeyRow) (loginEmail : String) :
    Except Failure KeyTables :=
  if broker.brokerId ∈ tables.registry.brokers.map (·.brokerId) then
    .error (.database "duplicate key value violates unique constraint \"brokers_broker_id_key\"")
  else if row.apiKeyId ∈ tables.registry.apiKeys.map (·.apiKeyId) then
    .error (.database "duplicate key value violates unique constraint \"api_keys_api_key_id_key\"")
  else .ok ⟨⟨tables.registry.brokers ++ [broker], tables.registry.apiKeys ++ [row]⟩,
    tables.logins ++ [loginEmail]⟩

/-- `BrokersAdminController.create` on the brokers, their keys and the logins. -/
def create (K : OnboardingConfig) (A : Argon2) (tables : KeyTables) (body : Json) (draws : Draws) :
    Except Failure (IssuedKey × KeyTables) := do
  let body ← createBrokerSchema K body
  let amount ← Money.new body.initialBalance
  if amount.isZero || amount.isNegative then
    throw (.domain "VALIDATION_FAILED" "initialBalance must be > 0" 400)
  let loginEmail := body.loginEmail.getD body.contactEmail
  if loginEmail ∈ tables.logins then
    throw (.domain "CONFLICT" s!"A user with email {loginEmail} already exists" 409)
  let key := newKey K body.displayName draws
  let tables ← insertRows tables ⟨key.brokerId, .active⟩
    ⟨draws.apiKeyId, key.brokerId, key.keyPrefix, A.hash draws.salt key.secret, none⟩ loginEmail
  draws.others
  return (key, tables)

/-- The status of a broker is set: suspended, active again or closed. -/
def setStatus (tables : KeyTables) (brokerId : String) (status : BrokerStatus) : Except Failure KeyTables :=
  if brokerId ∈ tables.registry.brokers.map (·.brokerId) then
    .ok { tables with registry.brokers := tables.registry.brokers.map fun broker =>
      if broker.brokerId = brokerId then { broker with status } else broker }
  else .error (.domain "NOT_FOUND" "Broker not found" 404)

/-- The tables, and the keys that were returned. -/
structure KeyStore where
  tables : KeyTables
  issued : List IssuedKey

/-- Before the first onboarding. -/
def KeyStore.empty : KeyStore := ⟨⟨⟨[], []⟩, []⟩, []⟩

/-- What changes the tables. -/
inductive KeyCall where
  | create (body : Json) (draws : Draws)
  | setStatus (brokerId : String) (status : BrokerStatus)
  /-- A login of another user. -/
  | register (email : String)

/-- A call is made. One that throws changes nothing. -/
def KeyStore.step (K : OnboardingConfig) (A : Argon2) (store : KeyStore) : KeyCall → Option KeyStore
  | .create body draws =>
    match create K A store.tables body draws with
    | .ok (key, tables) => some ⟨tables, store.issued ++ [key]⟩
    | .error _ => some store
  | .setStatus brokerId status =>
    match setStatus store.tables brokerId status with
    | .ok tables => some { store with tables }
    | .error _ => some store
  | .register email => some { store with tables.logins := store.tables.logins ++ [email] }

/-- A row stores a key: it is not revoked and has a hash of the secret. -/
structure Stores (A : Argon2) (key : IssuedKey) (row : ApiKeyRow) : Prop where
  brokerId : row.brokerId = key.brokerId
  keyPrefix : row.keyPrefix = key.keyPrefix
  unrevoked : row.revokedAt = none
  hash : A.verify row.secretHash key.secret = true

/-- A prefix and a secret without dots. -/
structure WellFormed (key : IssuedKey) : Prop where
  keyPrefix : key.keyPrefix ≠ "" ∧ '.' ∉ key.keyPrefix.toList
  secret : key.secret ≠ "" ∧ '.' ∉ key.secret.toList

/-- Every returned key has its row and its broker, in order, and brokers are
unique. -/
structure KeyStore.Sound (A : Argon2) (store : KeyStore) : Prop where
  rows : List.Forall₂ (Stores A) store.issued store.tables.registry.apiKeys
  brokers : store.tables.registry.brokers.map (·.brokerId) = store.issued.map (·.brokerId)
  unique : (store.issued.map (·.brokerId)).Nodup
  wellFormed : ∀ key ∈ store.issued, WellFormed key

/-- The broker is active. -/
def Registry.Active (R : Registry) (brokerId : String) : Prop :=
  ∃ broker ∈ R.brokers, broker.brokerId = brokerId ∧ broker.status = .active

/-- A request that shows a key and signs with its secret, fresh at an instant. -/
structure SignedWith (G : HmacConfig) (key : IssuedKey) (req : IncomingRequest) (nowMs : Instant) :
    Prop where
  apiKey : req.apiKey = .single key.full
  signed : ∃ timestamp signature tsMs, req.timestamp = .single timestamp ∧
    req.signature = .single signature ∧ parseTimestamp G.dateParser timestamp = some tsMs ∧
    |toDouble (nowMs - tsMs)| ≤ HMAC_REPLAY_WINDOW_MS ∧ HmacGuard.sign G key.secret
      ⟨timestamp, req.request.signedBody, req.request.method ++ " " ++ req.request.url⟩ = .ok signature

/-- The key works on a table: whenever the first statement of the guard finds
the table, a request signed with the key passes as its broker. -/
def Works (G : HmacConfig) (R : Registry) (key : IssuedKey) : Prop :=
  ∀ registry req v i v' j v'' k, registry i.now = R → SignedWith G key req j.now →
    ∃ apiKeyId, replay (guarded { G with registry } req) [.ran v i, .ran v' j, .ran v'' k] =
      some (.done ⟨key.brokerId, apiKeyId⟩)

section Parts

/-- A character that is no dot joins the first part. -/
theorem splitDots_cons {c : Char} {text part : List Char} {parts : List (List Char)} (hc : c ≠ '.')
    (h : splitDots text = part :: parts) : splitDots (c :: text) = (c :: part) :: parts := by
  unfold splitDots
  rw [h]
  split
  · exact absurd rfl hc
  · rename_i heq
    obtain ⟨rfl, rfl⟩ := List.cons.inj heq
    rfl
  · rename_i heq
    simp at heq

/-- A text up to its first dot is the first part. -/
theorem splitDots_append {front : List Char} (h : '.' ∉ front) (rest : List Char) :
    splitDots (front ++ '.' :: rest) = front :: splitDots rest := by
  induction front with
  | nil => rw [List.nil_append, splitDots]
  | cons c front ih =>
    obtain ⟨hc, hfront⟩ := not_or.mp (mt List.mem_cons.mpr h)
    exact splitDots_cons (Ne.symm hc) (ih hfront)

/-- A text without dots is one part. -/
theorem splitDots_plain {text : List Char} (h : '.' ∉ text) : splitDots text = [text] := by
  induction text with
  | nil => rfl
  | cons c text ih =>
    obtain ⟨hc, htext⟩ := not_or.mp (mt List.mem_cons.mpr h)
    exact splitDots_cons (Ne.symm hc) (ih htext)

/-- A full key is split into its prefix and its secret. -/
theorem keyParts_full {key : IssuedKey} (h : WellFormed key) :
    keyParts key.full = some (key.keyPrefix, key.secret) := by
  have hchars : key.full.toList = key.keyPrefix.toList ++ '.' :: key.secret.toList := by
    simp [IssuedKey.full]
  have hsplit : splitDots key.full.toList = [key.keyPrefix.toList, key.secret.toList] := by
    rw [hchars, splitDots_append h.keyPrefix.2, splitDots_plain h.secret.2]
  have hne : key.keyPrefix.toList ≠ [] ∧ key.secret.toList ≠ [] := by
    constructor
    · intro hnil
      exact h.keyPrefix.1 (String.toList_inj.mp hnil)
    · intro hnil
      exact h.secret.1 (String.toList_inj.mp hnil)
  simp only [keyParts, hsplit, if_pos hne, String.ofList_toList]

/-- Hexadecimal digits are not dots. -/
theorem dot_not_mem_hexText (bytes : List Byte) : '.' ∉ hexText bytes := by
  intro h
  obtain ⟨byte, -, hdigit⟩ := List.mem_flatMap.mp h
  have hdigits : ∀ v < 16, Nat.digitChar v ≠ '.' := by decide
  simp only [hexPair, hexDigit, List.mem_cons, List.not_mem_nil, or_false] at hdigit
  rcases hdigit with heq | heq
  · exact hdigits _ (Nat.mod_lt _ (by decide)) heq.symm
  · exact hdigits _ (Nat.mod_lt _ (by decide)) heq.symm

/-- The parts of a new key have no dots. -/
theorem wellFormed_newKey (K : OnboardingConfig) (displayName : String) (draws : Draws) :
    WellFormed (newKey K displayName draws) := by
  constructor
  · constructor
    · intro h
      have hchars := congrArg String.toList h
      simp [newKey] at hchars
    · simp [newKey, hex, dot_not_mem_hexText]
  · constructor
    · intro h
      have hdecoded := Base64.decode_encode .url draws.secretBytes.val
      have hchars := congrArg String.toList h
      simp only [newKey, String.toList_ofList] at hchars
      have hnil : draws.secretBytes.val = [] := by
        rw [← hdecoded, hchars]
        rfl
      have hlength := draws.secretBytes.property
      simp [hnil] at hlength
    · simpa [newKey] using Base64.dot_not_mem_url draws.secretBytes.val

end Parts

section Tables

variable {K : OnboardingConfig} {A : Argon2} {store store' : KeyStore}

/-- What a call that returns a key has done: the broker is new and active, and
the row stores the key. -/
theorem create_ok {tables tables' : KeyTables} {body : Json} {draws : Draws} {key : IssuedKey}
    (h : create K A tables body draws = .ok (key, tables')) :
    ∃ row, WellFormed key ∧ Stores A key row ∧
      key.brokerId ∉ tables.registry.brokers.map (·.brokerId) ∧
      tables'.registry = ⟨tables.registry.brokers ++ [⟨key.brokerId, .active⟩],
        tables.registry.apiKeys ++ [row]⟩ := by
  obtain ⟨fields, -, h⟩ := Charges.bind_ok h
  obtain ⟨amount, -, h⟩ := Charges.bind_ok h
  split at h
  · cases h
  · dsimp only at h
    split at h
    · cases h
    · obtain ⟨inserted, hinsert, h⟩ := Charges.bind_ok h
      obtain ⟨-, -, h⟩ := Charges.bind_ok h
      obtain ⟨rfl, rfl⟩ := Prod.mk.inj (Except.ok.inj h)
      unfold insertRows at hinsert
      split at hinsert
      · simp at hinsert
      · rename_i hnew
        split at hinsert
        · simp at hinsert
        · obtain rfl := Except.ok.inj hinsert
          refine ⟨_, wellFormed_newKey K fields.displayName draws, ⟨rfl, rfl, rfl, ?_⟩, hnew, rfl⟩
          simp [A.verify_hash]

/-- A status leaves the rest of a table as it is. -/
theorem setStatus_ok {tables tables' : KeyTables} {brokerId : String} {status : BrokerStatus}
    (h : setStatus tables brokerId status = .ok tables') :
    tables'.registry.apiKeys = tables.registry.apiKeys ∧
      tables'.registry.brokers.map (·.brokerId) = tables.registry.brokers.map (·.brokerId) := by
  unfold setStatus at h
  split at h
  · obtain rfl := Except.ok.inj h
    refine ⟨rfl, ?_⟩
    rw [List.map_map]
    refine List.map_congr_left fun broker _ => ?_
    simp only [Function.comp_apply]
    split <;> rfl
  · simp at h

/-- A call keeps the tables sound. -/
theorem step_sound {call : KeyCall} (hsound : store.Sound A) (h : store.step K A call = some store') :
    store'.Sound A := by
  cases call with
  | create body draws =>
    simp only [KeyStore.step] at h
    split at h
    · rename_i key tables hcreate
      obtain rfl := Option.some.inj h
      obtain ⟨row, hwell, hstores, hnew, hregistry⟩ := create_ok hcreate
      rw [hsound.brokers] at hnew
      refine ⟨?_, ?_, ?_, ?_⟩
      · rw [hregistry]
        exact List.rel_append hsound.rows (.cons hstores .nil)
      · rw [hregistry]
        simp [hsound.brokers]
      · rw [List.map_append, List.map_singleton]
        exact List.nodup_append'.mpr ⟨hsound.unique, List.nodup_singleton _, by simpa using hnew⟩
      · intro other hother
        rcases List.mem_append.mp hother with hold | hlast
        · exact hsound.wellFormed other hold
        · obtain rfl := List.mem_singleton.mp hlast
          exact hwell
    · obtain rfl := Option.some.inj h
      exact hsound
  | setStatus brokerId status =>
    simp only [KeyStore.step] at h
    split at h
    · rename_i tables hset
      obtain rfl := Option.some.inj h
      obtain ⟨hkeys, hbrokers⟩ := setStatus_ok hset
      exact ⟨by rw [hkeys]; exact hsound.rows, by rw [hbrokers]; exact hsound.brokers,
        hsound.unique, hsound.wellFormed⟩
    · obtain rfl := Option.some.inj h
      exact hsound
  | register email =>
    obtain rfl := Option.some.inj h
    exact ⟨hsound.rows, hsound.brokers, hsound.unique, hsound.wellFormed⟩

/-- In every run the tables stay sound. -/
theorem run_sound {calls : List KeyCall} (h : run (KeyStore.step K A) KeyStore.empty calls = some store) :
    store.Sound A := by
  have hempty : KeyStore.empty.Sound A := ⟨.nil, rfl, List.nodup_nil, by simp [KeyStore.empty]⟩
  exact visits_of_step (fun _ _ _ => step_sound) hempty (visits_last h)

/-- What is in one of two related lists is related to an item of the other. -/
theorem forall₂_mem {α β : Type} {R : α → β → Prop} {as : List α} {bs : List β} (h : List.Forall₂ R as bs) :
    (∀ a ∈ as, ∃ b ∈ bs, R a b) ∧ ∀ b ∈ bs, ∃ a ∈ as, R a b := by
  induction h with
  | nil => simp
  | cons hab _ ih =>
    constructor
    · refine List.forall_mem_cons.mpr ⟨⟨_, List.mem_cons_self, hab⟩, fun a ha => ?_⟩
      obtain ⟨b, hb, hrelated⟩ := ih.1 a ha
      exact ⟨b, List.mem_cons_of_mem _ hb, hrelated⟩
    · refine List.forall_mem_cons.mpr ⟨⟨_, List.mem_cons_self, hab⟩, fun b hb => ?_⟩
      obtain ⟨a, ha, hrelated⟩ := ih.2 b hb
      exact ⟨a, List.mem_cons_of_mem _ ha, hrelated⟩

/-- Keys of one broker are one key. -/
theorem issued_inj (hsound : store.Sound A) {key other : IssuedKey} (hkey : key ∈ store.issued)
    (hother : other ∈ store.issued) (h : other.brokerId = key.brokerId) : other = key :=
  List.inj_on_of_nodup_map hsound.unique hother hkey h

/-- Every returned key is found by its prefix, with its broker. -/
theorem found_of_issued (hsound : store.Sound A) {key : IssuedKey} (hkey : key ∈ store.issued) :
    ∃ broker row, (broker, row) ∈ store.tables.registry.keysAt key.keyPrefix ∧ Stores A key row ∧
      broker.brokerId = key.brokerId := by
  obtain ⟨row, hrow, hstores⟩ := (forall₂_mem hsound.rows).1 key hkey
  have hid : key.brokerId ∈ store.tables.registry.brokers.map (·.brokerId) := by
    rw [hsound.brokers]
    exact List.mem_map_of_mem hkey
  obtain ⟨broker, hbroker, hbrokerId⟩ := List.mem_map.mp hid
  refine ⟨broker, row, mem_keysAt.mpr ⟨hrow, hbroker, hstores.keyPrefix, hstores.unrevoked, ?_⟩,
    hstores, hbrokerId⟩
  rw [hstores.brokerId, hbrokerId]

/-- What is found by a prefix is a returned key with it, and its broker. -/
theorem issued_of_found (hsound : store.Sound A) {keyPrefix : String} {broker : BrokerRow} {row : ApiKeyRow}
    (h : (broker, row) ∈ store.tables.registry.keysAt keyPrefix) :
    ∃ key ∈ store.issued, key.keyPrefix = keyPrefix ∧ Stores A key row ∧ broker.brokerId = key.brokerId ∧
      broker ∈ store.tables.registry.brokers := by
  obtain ⟨hrow, hbroker, halike, -, hid⟩ := mem_keysAt.mp h
  obtain ⟨key, hkey, hstores⟩ := (forall₂_mem hsound.rows).2 row hrow
  refine ⟨key, hkey, ?_, hstores, ?_, hbroker⟩
  · rw [← hstores.keyPrefix, halike]
  · rw [← hid, hstores.brokerId]

/-- A broker that is active once is active in all its rows. -/
theorem active_row (hsound : store.Sound A) {broker : BrokerRow}
    (hbroker : broker ∈ store.tables.registry.brokers)
    (hactive : Registry.Active store.tables.registry broker.brokerId) : broker.status = .active := by
  obtain ⟨active, hmem, hid, hstatus⟩ := hactive
  have hunique : (store.tables.registry.brokers.map (·.brokerId)).Nodup := by
    rw [hsound.brokers]
    exact hsound.unique
  obtain rfl := List.inj_on_of_nodup_map hunique hmem hbroker hid
  exact hstatus

end Tables

section Guard

variable {G : HmacConfig} {M : Hmac} {key : IssuedKey} {req : IncomingRequest}

/-- What the guard checks of a request that is signed with a key. -/
theorem verify_signed (hmac : ∀ secret text, G.hmac secret text = String.ofList (hexText (M.mac secret text)))
    (hsecret : key.secret ≠ "") {nowMs : Instant} (h : SignedWith G key req nowMs) :
    ∃ timestamp signature, req.timestamp = .single timestamp ∧ req.signature = .single signature ∧
      HmacGuard.verify G key.secret ⟨timestamp, req.request.signedBody,
        req.request.method ++ " " ++ req.request.url⟩ signature nowMs = .ok none := by
  obtain ⟨timestamp, signature, tsMs, htimestamp, hsignature, hparse, hfresh, hsign⟩ := h.signed
  refine ⟨timestamp, signature, htimestamp, hsignature, ?_⟩
  have hstale : ¬ HMAC_REPLAY_WINDOW_MS < |toDouble (nowMs - tsMs)| := not_lt.mpr hfresh
  have hequal : constantTimeEqualHex signature signature = true := by
    rw [HmacGuard.sign, if_neg hsecret, hmac] at hsign
    obtain rfl := Except.ok.inj hsign
    have hne : M.mac key.secret (HmacGuard.payload ⟨timestamp, req.request.signedBody,
        req.request.method ++ " " ++ req.request.url⟩) ≠ [] := by
      intro hnil
      have hlength := M.length_mac key.secret (HmacGuard.payload ⟨timestamp, req.request.signedBody,
        req.request.method ++ " " ++ req.request.url⟩)
      simp [hnil] at hlength
    simpa [constantTimeEqualHex, hexBytes_hexText] using hne
  rw [HmacGuard.verify, hparse]
  simp only [if_neg hstale, hsign, Except.map, hequal, if_true]

/-- A request that is right in every respect passes as the broker of the row
that its prefix finds. -/
theorem replay_passes {apiKey timestamp signature keyPrefix secret : String} {broker : BrokerRow}
    {row : ApiKeyRow} {v v' v'' : View Store} {i j k : Input} (hkey : req.apiKey = .single apiKey)
    (htimestamp : req.timestamp = .single timestamp) (hsignature : req.signature = .single signature)
    (hparts : keyParts apiKey = some (keyPrefix, secret))
    (hfound : anyRow ((G.registry i.now).keysAt keyPrefix) i.pick = some (broker, row))
    (hactive : broker.status = .active) (hhash : G.argon2.verify row.secretHash secret = true)
    (hverify : HmacGuard.verify G secret ⟨timestamp, req.request.signedBody,
      req.request.method ++ " " ++ req.request.url⟩ signature j.now = .ok none) :
    replay (guarded G req) [.ran v i, .ran v' j, .ran v'' k] =
      some (.done ⟨broker.brokerId, row.apiKeyId⟩) := by
  have hheaders : req.request.apiKey = some apiKey ∧ req.request.timestamp = some timestamp ∧
      req.request.signature = some signature := by
    simp [IncomingRequest.request, hkey, htimestamp, hsignature, HeaderValue.string?]
  simp only [guarded, canActivate, hheaders, hparts]
  simp [replay, told, findByApiKeyPrefix, query, Prog.bind, bind_eq, hfound, hactive, hhash, draw, hverify,
    StatementProgram.ofExcept, touchApiKeyLastUsed]

/-- Some request is signed with a key at the start of time. -/
theorem exists_signed (G : HmacConfig) (hsecret : key.secret ≠ "") : ∃ req, SignedWith G key req 0 := by
  refine ⟨⟨.single key.full, .single "0", .single (G.hmac key.secret (HmacGuard.payload
    ⟨"0", "", "GET" ++ " " ++ "/"⟩)), none, "GET", "/", some "", .null, none⟩, rfl, "0", _, 0, rfl, rfl, ?_, ?_, ?_⟩
  · rw [parseTimestamp, if_pos (by decide)]
    decide +kernel
  · decide +kernel
  · rw [HmacGuard.sign, if_neg hsecret]
    rfl

end Guard

section Working

variable {K : OnboardingConfig} {G : HmacConfig} {M : Hmac} {store : KeyStore} {key : IssuedKey}

/-- A key without another one of its prefix works. -/
theorem works_of_alone (hmac : ∀ secret text, G.hmac secret text = String.ofList (hexText (M.mac secret text)))
    (hsound : store.Sound G.argon2) (hkey : key ∈ store.issued)
    (hactive : Registry.Active store.tables.registry key.brokerId)
    (halone : ∀ other ∈ store.issued, other.keyPrefix = key.keyPrefix → other = key) :
    Works G store.tables.registry key := by
  intro registry req v i v' j v'' k htable hsigned
  have hwell := hsound.wellFormed key hkey
  obtain ⟨broker, row, hmem, -, -⟩ := found_of_issued hsound hkey
  obtain ⟨⟨broker, row⟩, hmem, hfound⟩ := anyRow_some hmem i.pick
  obtain ⟨other, hother, halike, hstores, hid, hbroker⟩ := issued_of_found hsound hmem
  obtain rfl := halone other hother halike
  obtain ⟨timestamp, signature, htimestamp, hsignature, hverify⟩ :=
    verify_signed hmac hwell.secret.1 hsigned
  rw [← hid] at hactive
  refine ⟨row.apiKeyId, ?_⟩
  rw [← hid]
  refine @replay_passes { G with registry } req _ _ _ _ _ broker row v v' v'' i j k hsigned.apiKey
    htimestamp hsignature (keyParts_full hwell) ?_ (active_row hsound hbroker hactive) hstores.hash hverify
  simpa only [htable] using hfound

/-- A key does not work beside another one of its prefix: the query may return
the row of the other. -/
theorem alone_of_works (hsound : store.Sound G.argon2) (hkey : key ∈ store.issued)
    (hworks : Works G store.tables.registry key) :
    ∀ other ∈ store.issued, other.keyPrefix = key.keyPrefix → other = key := by
  intro other hother halike
  obtain ⟨broker, row, hmem, -, hid⟩ := found_of_issued hsound hother
  rw [halike] at hmem
  obtain ⟨pick, hfound⟩ := anyRow_pick hmem
  obtain ⟨req, hsigned⟩ := exists_signed G (hsound.wellFormed key hkey).secret.1
  let view : View Store := ⟨Store.empty, Store.empty, 0, 0, fun _ => true⟩
  obtain ⟨apiKeyId, hdone⟩ := hworks (fun _ => store.tables.registry) req view ⟨0, [], pick⟩ view quiet view
    quiet rfl hsigned
  have hran : ∀ o ∈ [(.ran view ⟨0, [], pick⟩ : Sight), .ran view quiet, .ran view quiet], Ran o := by
    intro o ho
    simp only [List.mem_cons, List.not_mem_nil, or_false] at ho
    rcases ho with rfl | rfl | rfl <;> exact ⟨_, _, rfl⟩
  have hverdict := canActivate_verdict hran hdone
  generalize hended : (.done ⟨key.brokerId, apiKeyId⟩ : Program AuthenticatedBroker) = ended at hverdict
  cases hverdict with
  | running hlen => simp at hended
  | rejected => simp at hended
  | @passed c hadmitted hsilent =>
    -- the row that the first statement has found is the one that was picked
    obtain ⟨v, i, rest, hfirst, hrow⟩ := hadmitted.found
    obtain ⟨hhead, -⟩ := List.cons.inj hfirst
    obtain ⟨-, rfl⟩ := Seen.ran.inj hhead
    have hparts := hadmitted.parts
    have happKey := HeaderValue.single.inj (hsigned.apiKey.symm.trans hadmitted.headers.1)
    rw [← happKey, keyParts_full (hsound.wellFormed key hkey)] at hparts
    obtain ⟨hp, -⟩ := Prod.mk.inj (Option.some.inj hparts)
    rw [← hp] at hrow
    have hsame := Option.some.inj (hfound.symm.trans hrow)
    have hbroker := (Prod.mk.inj hsame).1
    have hpassed := AuthenticatedBroker.mk.inj (Prog.done.inj hended)
    refine issued_inj hsound hkey hother ?_
    rw [← hid, hbroker, ← hpassed.1]

/-- After every run of onboardings, status changes and registrations, the full
key of a broker splits into its prefix and its secret, and the key of an active
broker works exactly when no other key was issued with its prefix. -/
theorem issued_keys_work_iff
    (hmac : ∀ secret text, G.hmac secret text = String.ofList (hexText (M.mac secret text)))
    {calls : List KeyCall} (hrun : run (KeyStore.step K G.argon2) KeyStore.empty calls = some store)
    (hkey : key ∈ store.issued) :
    keyParts key.full = some (key.keyPrefix, key.secret) ∧
    (Registry.Active store.tables.registry key.brokerId →
      (Works G store.tables.registry key ↔
        ∀ other ∈ store.issued, other.keyPrefix = key.keyPrefix → other = key)) := by
  have hsound := run_sound hrun
  exact ⟨keyParts_full (hsound.wellFormed key hkey), fun hactive =>
    ⟨alone_of_works hsound hkey, works_of_alone hmac hsound hkey hactive⟩⟩

/-- Names in lower case, and any email. -/
def asciiOnboarding : OnboardingConfig := ⟨fun s => String.ofList (s.toList.map Char.toLower), fun _ => true⟩

/-- A broker of this name. -/
def brokerNamed (displayName : String) : Json :=
  .obj [("displayName", .str displayName), ("contactEmail", .str (displayName ++ "@lp.test"))]

/-- Draws from these bytes on, with this prefix. -/
def drawn (first : ℕ) (keyPrefix : Bytes 4) (apiKeyId : String) : Draws where
  brokerBytes := ⟨[byteOf first, 11, 12], rfl⟩
  prefixBytes := keyPrefix
  secretBytes := ⟨(List.range 24).map fun n => byteOf (first + n), by simp⟩
  salt := ""
  apiKeyId := apiKeyId
  others := .ok ()

/-- Two onboardings with these prefixes. -/
def twoBrokers (keyPrefix other : Bytes 4) : List KeyCall :=
  [.create (brokerNamed "Alpha LP") (drawn 0 keyPrefix "K1"), .create (brokerNamed "Beta") (drawn 24 other "K2")]

/-- The key of the first one. -/
def alphaKey : IssuedKey := ⟨"alpha-lp-000b0c", "lp_01020304", "AAECAwQFBgcICQoLDA0ODxAREhMUFRYX"⟩

/-- HMAC with SHA-256 under its secret, for one payload. -/
def alphaMac : Hmac where
  mac secret text := if secret = alphaKey.secret ∧ text = "0\nGET /api/v1/broker/orders\n" then
      [91, 157, 171, 137, 32, 212, 46, 78, 160, 231, 14, 13, 188, 93, 172, 0, 214, 129,
        234, 139, 252, 33, 19, 4, 229, 177, 38, 17, 113, 76, 137, 126]
    else List.replicate 32 0
  length_mac secret text := by
    by_cases h : secret = alphaKey.secret ∧ text = "0\nGET /api/v1/broker/orders\n"
    · simp [h]
    · simp [h]

/-- A guard that checks these signatures. -/
def alphaHmac : HmacConfig where
  argon2 := AdminAuth.plainConfig.argon2
  dateParser := .epoch
  hmac secret text := String.ofList (hexText (alphaMac.mac secret text))
  registry _ := ⟨[], []⟩

/-- A request that is signed with the first key. -/
def alphaRequest : IncomingRequest where
  apiKey := .single "lp_01020304.AAECAwQFBgcICQoLDA0ODxAREhMUFRYX"
  timestamp := .single "0"
  signature := .single "5b9dab8920d42e4ea0e70e0dbc5dac00d681ea8bfc211304e5b12611714c897e"
  userAgent := none
  method := "GET"
  url := "/api/v1/broker/orders"
  rawBody := some ""
  body := .null
  ip := none

/-- The first of two brokers with different prefixes passes within the window. -/
theorem issued_keys_work_alpha : ∃ store,
    run (KeyStore.step asciiOnboarding alphaHmac.argon2) KeyStore.empty
      (twoBrokers ⟨[1, 2, 3, 4], rfl⟩ ⟨[1, 2, 3, 5], rfl⟩) = some store ∧ alphaKey ∈ store.issued ∧
    ∃ apiKeyId, replay (guarded { alphaHmac with registry := fun _ => store.tables.registry } alphaRequest)
      [.ran ⟨Store.empty, Store.empty, 0, 0, fun _ => true⟩ ⟨1000, [], 7⟩,
        .ran ⟨Store.empty, Store.empty, 0, 0, fun _ => true⟩ ⟨30000, [], 0⟩,
        .ran ⟨Store.empty, Store.empty, 0, 0, fun _ => true⟩ ⟨30001, [], 0⟩] =
      some (.done ⟨"alpha-lp-000b0c", apiKeyId⟩) := by
  obtain ⟨store, hrun, hcheck⟩ := run_reaches (KeyStore.step asciiOnboarding alphaHmac.argon2) KeyStore.empty
    (twoBrokers ⟨[1, 2, 3, 4], rfl⟩ ⟨[1, 2, 3, 5], rfl⟩)
    (fun store => alphaKey ∈ store.issued ∧
      (store.tables.registry.brokers.any fun broker =>
        broker.brokerId = alphaKey.brokerId && broker.status = .active) = true ∧
      ∀ other ∈ store.issued, other.keyPrefix = alphaKey.keyPrefix → other = alphaKey) (by decide +kernel)
  obtain ⟨hkey, hactive, halone⟩ := of_decide_eq_true hcheck
  obtain ⟨broker, hbroker, hstatus⟩ := List.any_eq_true.mp hactive
  have hworks := ((@issued_keys_work_iff _ alphaHmac alphaMac _ _ (fun _ _ => rfl) _ hrun hkey).2
    ⟨broker, hbroker, by simpa using hstatus⟩).mpr halone
  have hfull : "lp_01020304.AAECAwQFBgcICQoLDA0ODxAREhMUFRYX" = alphaKey.full := by decide +kernel
  refine ⟨store, hrun, hkey, hworks _ alphaRequest _ _ _ _ _ _ rfl
    ⟨congrArg HeaderValue.single hfull, "0", _, 0, rfl, rfl, ?_, ?_, ?_⟩⟩
  · decide +kernel
  · decide +kernel
  · decide +kernel

/-- Two onboardings have drawn the same four bytes: the first broker is active
and its key does not work. -/
theorem shadowed_key : ∃ store,
    run (KeyStore.step asciiOnboarding alphaHmac.argon2) KeyStore.empty
      (twoBrokers ⟨[1, 2, 3, 4], rfl⟩ ⟨[1, 2, 3, 4], rfl⟩) = some store ∧ alphaKey ∈ store.issued ∧
    Registry.Active store.tables.registry alphaKey.brokerId ∧
    ¬ Works alphaHmac store.tables.registry alphaKey := by
  obtain ⟨store, hrun, hcheck⟩ := run_reaches (KeyStore.step asciiOnboarding alphaHmac.argon2) KeyStore.empty
    (twoBrokers ⟨[1, 2, 3, 4], rfl⟩ ⟨[1, 2, 3, 4], rfl⟩)
    (fun store => alphaKey ∈ store.issued ∧
      (store.tables.registry.brokers.any fun broker =>
        broker.brokerId = alphaKey.brokerId && broker.status = .active) = true ∧
      ∃ other ∈ store.issued, other.keyPrefix = alphaKey.keyPrefix ∧ other ≠ alphaKey) (by decide +kernel)
  obtain ⟨hkey, hactive, other, hother, halike, hne⟩ := of_decide_eq_true hcheck
  obtain ⟨broker, hbroker, hstatus⟩ := List.any_eq_true.mp hactive
  refine ⟨store, hrun, hkey, ⟨broker, hbroker, by simpa using hstatus⟩, fun hworks => ?_⟩
  exact hne (alone_of_works (run_sound hrun) hkey hworks other hother halike)

end Working

end LpPlatform.IssuedKeys
