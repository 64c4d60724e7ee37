import LpPlatform.AdminAuth
import LpPlatform.OrderFills
import LpPlatform.SessionReplays

/-!
# Requests that brokers sign

A broker names an API key by its prefix, shows the secret of the key and signs
the time, the request line and the body of its request with it. The guard
finds the key, checks that its broker is active, that the secret has the
stored hash and that the signature is right and not older than thirty seconds.
A rejection is recorded first. Orders are placed behind this guard.
-/

namespace LpPlatform.HmacGuard

open AdminAuth (Argon2)
open DecimalText HashChain InterferenceLogic JsValues Ledger OrderFills OrderIntake OrderWorker RowStore
open SessionReplays SessionTrails Sessions StatementProgram StatementWrites Tables TradeChain

/-- `brokers.status`. -/
inductive BrokerStatus where
  | active
  | suspended
  | closed
  deriving DecidableEq

/-- A row of `auth.brokers`. -/
structure BrokerRow where
  brokerId : String
  status : BrokerStatus

/-- A row of `auth.api_keys`. -/
structure ApiKeyRow where
  apiKeyId : String
  brokerId : String
  keyPrefix : String
  secretHash : String
  revokedAt : Option Instant

/-- The brokers and their keys. -/
structure Registry where
  brokers : List BrokerRow
  apiKeys : List ApiKeyRow

/-- What the guard is configured with. -/
structure HmacConfig where
  argon2 : Argon2
  dateParser : DateParser
  /-- The hexadecimal HMAC of a text under a secret, by SHA-256. -/
  hmac : String → String → String
  /-- The rows that a statement finds at an instant. Others write them. -/
  registry : Instant → Registry

/-- A request to the broker API. -/
structure BrokerRequest where
  /-- `x-api-key`. -/
  apiKey : Option String
  /-- `x-timestamp`. -/
  timestamp : Option String
  /-- `x-signature`. -/
  signature : Option String
  /-- `user-agent`. -/
  userAgent : Option String
  method : String
  url : String
  rawBody : Option String
  /-- The parsed body, null when there is none. -/
  body : Json
  ip : Option String

mutual

/-- `JSON.stringify`. -/
def stringify : Json → String
  | .null => "null"
  | .bool b => if b then "true" else "false"
  | .num n => n.text
  | .str s => quote s
  | .arr items => "[" ++ ",".intercalate (stringifyItems items) ++ "]"
  | .obj fields => "\x7b" ++ ",".intercalate (stringifyFields fields) ++ "\x7d"

/-- The items of an array. -/
def stringifyItems : List Json → List String
  | [] => []
  | item :: items => stringify item :: stringifyItems items

/-- The fields of an object. -/
def stringifyFields : List (String × Json) → List String
  | [] => []
  | (key, value) :: fields => (quote key ++ ":" ++ stringify value) :: stringifyFields fields

end

/-- What is signed. -/
structure SignatureMaterial where
  timestamp : String
  body : String
  requestLine : String

/-- `payload`. -/
def payload (material : SignatureMaterial) : String :=
  material.timestamp ++ "\n" ++ material.requestLine ++ "\n" ++ material.body

/-- `HMAC_REPLAY_WINDOW_MS`. -/
def HMAC_REPLAY_WINDOW_MS : ℚ := 30000

/-- Why a signature is not valid. -/
inductive InvalidReason where
  | invalidSignature
  | staleTimestamp
  | badTimestamp
  deriving DecidableEq

/-- The reason as it is reported. -/
def InvalidReason.text : InvalidReason → String
  | .invalidSignature => "INVALID_SIGNATURE"
  | .staleTimestamp => "STALE_TIMESTAMP"
  | .badTimestamp => "BAD_TIMESTAMP"

/-- The value of a hexadecimal digit. -/
def hexDigit? (c : Char) : Option ℕ :=
  if c.isDigit then some (c.toNat - 48)
  else if 97 ≤ c.toNat ∧ c.toNat ≤ 102 then some (c.toNat - 87)
  else if 65 ≤ c.toNat ∧ c.toNat ≤ 70 then some (c.toNat - 55)
  else none

/-- `Buffer.from` of hexadecimal digits, up to the first pair that is none. -/
def hexBytes : List Char → List ℕ
  | a :: b :: rest =>
    match hexDigit? a, hexDigit? b with
    | some high, some low => (16 * high + low) :: hexBytes rest
    | _, _ => []
  | _ => []

/-- `constantTimeEqualHex`. -/
def constantTimeEqualHex (a b : String) : Bool :=
  utf16Length a = utf16Length b && hexBytes a.toList ≠ [] && hexBytes a.toList = hexBytes b.toList

/-- `parseTimestamp`: milliseconds in digits, or a date. -/
def parseTimestamp (P : DateParser) (text : String) : Option ℚ :=
  if text.toList ≠ [] ∧ text.toList.all Char.isDigit = true then
    (number? text).filter fun ms => ms < 2 ^ 1024
  else (P.parse text).map fun ms => (ms : ℚ)

/-- `sign`. -/
def sign (G : HmacConfig) (secret : String) (material : SignatureMaterial) : Except Failure String :=
  if secret = "" then .error (.typeError "hmac.sign: secret must be non-empty")
  else .ok (G.hmac secret (payload material))

/-- `verify`: none when the signature is valid. -/
def verify (G : HmacConfig) (secret : String) (material : SignatureMaterial) (signature : String)
    (nowMs : Instant) : Except Failure (Option InvalidReason) :=
  match parseTimestamp G.dateParser material.timestamp with
  | none => .ok (some .badTimestamp)
  | some tsMs =>
    if HMAC_REPLAY_WINDOW_MS < |toDouble (nowMs - tsMs)| then .ok (some .staleTimestamp)
    else (sign G secret material).map fun expected =>
      if constantTimeEqualHex expected signature then none else some .invalidSignature

/-- `split` at dots. -/
def splitDots : List Char → List (List Char)
  | [] => [[]]
  | c :: cs =>
    match c, splitDots cs with
    | '.', parts => [] :: parts
    | c, part :: parts => (c :: part) :: parts
    | c, [] => [[c]]

/-- The prefix and the secret of an API key, unless one is missing. -/
def keyParts (apiKey : String) : Option (String × String) :=
  match splitDots apiKey.toList with
  | keyPrefix :: secret :: _ =>
    if keyPrefix ≠ [] ∧ secret ≠ [] then some (String.ofList keyPrefix, String.ofList secret) else none
  | _ => none

/-- The actor of a rejection. -/
def rejectedActor : Option String → String
  | none => "unknown"
  | some apiKey => String.ofList ((splitDots apiKey.toList).headD [])

/-- `makeRejection`: it is recorded, then thrown. -/
def makeRejection {α : Type} (req : BrokerRequest) (code reason : String) : Program α := do
  record ⟨.brokerApi, rejectedActor req.apiKey, "hmac.reject", none, none, .failure,
    .obj [("code", .str code), ("reason", .str reason), ("path", .str req.url),
      ("method", .str req.method)], req.ip, req.userAgent⟩
  .throw (.domain code reason 401)

/-- The keys that are not revoked, with their brokers. -/
def Registry.keysAt (R : Registry) (keyPrefix : String) : List (BrokerRow × ApiKeyRow) :=
  (R.apiKeys.filter fun key => key.keyPrefix = keyPrefix ∧ key.revokedAt = none).flatMap fun key =>
    (R.brokers.filter fun broker => key.brokerId = broker.brokerId).map fun broker => (broker, key)

/-- `BrokersRepository.findByApiKeyPrefix`. -/
def findByApiKeyPrefix (G : HmacConfig) (keyPrefix : String) :
    Program (Option (BrokerRow × ApiKeyRow)) :=
  query fun _ i => anyRow ((G.registry i.now).keysAt keyPrefix) i.pick

/-- `BrokersRepository.touchApiKeyLastUsed`: nothing reads the column. -/
def touchApiKeyLastUsed : Program Unit := query fun _ _ => ()

/-- The body that is signed. -/
def BrokerRequest.signedBody (req : BrokerRequest) : String :=
  match req.rawBody, req.body with
  | some text, _ => text
  | none, .str text => text
  | none, .null => "\x7b\x7d"
  | none, body => stringify body

/-- The code of an invalid signature. -/
def InvalidReason.code : InvalidReason → String
  | .invalidSignature => "HMAC_INVALID_SIGNATURE"
  | _ => "HMAC_TIMESTAMP_SKEW"

/-- `HmacGuard.canActivate`: the broker that the request is from. -/
def canActivate (G : HmacConfig) (req : BrokerRequest) : Program AuthenticatedBroker :=
  match req.apiKey, req.timestamp, req.signature with
  | some apiKey, some timestamp, some signature =>
    match keyParts apiKey with
    | none => makeRejection req "HMAC_INVALID_SIGNATURE" "Malformed API key"
    | some (keyPrefix, secret) => do
      let found ← findByApiKeyPrefix G keyPrefix
      match found with
      | none => makeRejection req "HMAC_UNKNOWN_KEY" "Unknown API key"
      | some (broker, key) =>
        if broker.status ≠ .active then makeRejection req "HMAC_KEY_REVOKED" "Broker not active"
        else if G.argon2.verify key.secretHash secret = false then
          makeRejection req "HMAC_INVALID_SIGNATURE" "Bad secret"
        else do
          let nowMs ← draw Input.now
          let result ← ofExcept (verify G secret
            ⟨timestamp, req.signedBody, req.method ++ " " ++ req.url⟩ signature nowMs)
          match result with
          | some reason => makeRejection req reason.code reason.text
          | none => do
            touchApiKeyLastUsed
            return ⟨broker.brokerId, key.apiKeyId⟩
  | _, _, _ => makeRejection req "HMAC_INVALID_SIGNATURE" "Missing HMAC headers"

/-- The calls of the broker API around orders, and of their worker. -/
inductive BrokerCall where
  | place (req : BrokerRequest)
  | verify (req : BrokerRequest)
  | runJob
  | recoverStalled

/-- `OrdersController.place` behind its guard and its pipe. -/
def placeBehindGuard (G : HmacConfig) (req : BrokerRequest) : Program String := do
  let broker ← canActivate G req
  placeEndpoint req.body (some broker) req.ip

/-- `OrdersController.verify`: the broker id it echoes. -/
def verifyBehindGuard (G : HmacConfig) (req : BrokerRequest) : Program String := do
  let broker ← canActivate G req
  return broker.brokerId

/-- A call, without its reply. -/
def brokerCalls (G : HmacConfig) (H : Sha256) (lot : String) : BrokerCall → Program Unit
  | .place req => do
    let _ ← placeBehindGuard G req
    return ()
  | .verify req => do
    let _ ← verifyBehindGuard G req
    return ()
  | .runJob => runJob H lot
  | .recoverStalled => recoverStalled

/-- The worlds of these calls. -/
abbrev BrokerWorld := World Store Write Key Input Failure Unit

/-- What the guard has found out about a request when it lets a broker pass. -/
structure Authentic (G : HmacConfig) (req : BrokerRequest) (b : AuthenticatedBroker)
    (keyPrefix secret : String) (broker : BrokerRow) (key : ApiKeyRow) : Prop where
  /-- The request names the key and shows its secret. -/
  parts : ∃ apiKey, req.apiKey = some apiKey ∧ keyParts apiKey = some (keyPrefix, secret)
  /-- The key is stored, with its broker. -/
  found : ∃ now, (broker, key) ∈ (G.registry now).keysAt keyPrefix
  /-- The broker is active. -/
  active : broker.status = .active
  /-- The secret has the stored hash. -/
  verified : G.argon2.verify key.secretHash secret = true
  /-- The request was signed within the window. -/
  signed : ∃ timestamp signature nowMs, req.timestamp = some timestamp ∧
    req.signature = some signature ∧ verify G secret
      ⟨timestamp, req.signedBody, req.method ++ " " ++ req.url⟩ signature nowMs = .ok none
  /-- The broker that passes is the broker of the key. -/
  passed : b = ⟨broker.brokerId, key.apiKeyId⟩

/-- A key that is found is not revoked and belongs to its broker. -/
theorem mem_keysAt {R : Registry} {keyPrefix : String} {broker : BrokerRow} {key : ApiKeyRow} :
    (broker, key) ∈ R.keysAt keyPrefix ↔ key ∈ R.apiKeys ∧ broker ∈ R.brokers ∧
      key.keyPrefix = keyPrefix ∧ key.revokedAt = none ∧ key.brokerId = broker.brokerId := by
  simp only [Registry.keysAt, List.mem_flatMap, List.mem_filter, List.mem_map, Prod.mk.injEq,
    decide_eq_true_eq]
  constructor
  · rintro ⟨k, ⟨hk, hp, hr⟩, b, ⟨hb, hid⟩, rfl, rfl⟩
    exact ⟨hk, hb, hp, hr, hid⟩
  · rintro ⟨hk, hb, hp, hr, hid⟩
    exact ⟨key, ⟨hk, hp, hr⟩, broker, ⟨hb, hid⟩, rfl, rfl⟩

section Rules

variable {G : HmacConfig} {req : BrokerRequest}

/-- A rejection returns nothing. -/
theorem rejection_returns {α : Type} {code reason : String} {os : List (Seen Store Input Failure)}
    {a : α} : replay (makeRejection req code reason : Program α) os ≠ some (.done a) := by
  intro h
  obtain ⟨_, _, _, -, -, hthrow⟩ := replay_bind_done h
  exact absurd (replay_throw hthrow).2 (by simp)

/-- The guard lets a broker pass only when the request is authentic. -/
theorem canActivate_authentic {os : List (Seen Store Input Failure)} {b : AuthenticatedBroker}
    (h : replay (canActivate G req) os = some (.done b)) :
    ∃ keyPrefix secret broker key, Authentic G req b keyPrefix secret broker key := by
  unfold canActivate at h
  split at h
  · rename_i apiKey timestamp signature hkey htimestamp hsignature
    split at h
    · exact absurd h rejection_returns
    · rename_i keyPrefix secret hparts
      obtain ⟨_, i, rest, h⟩ := replay_query_bind h
      split at h
      · exact absurd h rejection_returns
      · rename_i broker key hfound
        split at h
        · exact absurd h rejection_returns
        · rename_i hactive
          split at h
          · exact absurd h rejection_returns
          · rename_i hverified
            obtain ⟨_, j, rest', h⟩ := replay_query_bind h
            obtain ⟨result, front, back, -, hresult, h⟩ := replay_bind_done h
            split at h
            · exact absurd h rejection_returns
            · obtain ⟨_, _, _, h⟩ := replay_query_bind h
              have hb := Prog.done.inj (replay_done h).2
              refine ⟨keyPrefix, secret, broker, key, ⟨apiKey, hkey, hparts⟩,
                ⟨i.now, anyRow_mem hfound⟩, by simpa using hactive, by simpa using hverified,
                ⟨timestamp, signature, j.now, htimestamp, hsignature, ?_⟩, hb⟩
              cases hcheck : verify G secret ⟨timestamp, req.signedBody, req.method ++ " " ++ req.url⟩
                  signature j.now with
              | error e =>
                rw [hcheck] at hresult
                exact absurd (replay_throw hresult).2 (by simp)
              | ok reason =>
                rw [hcheck] at hresult
                exact congrArg Except.ok (Prog.done.inj (replay_done hresult).2).symm
  · exact absurd h rejection_returns

variable {ok : Write → Prop}

theorem emits_record (hok : ∀ row, ok (.insertAudit row)) (e : AuditEntryInput) : Emits ok (record e) :=
  emits_tryCatch (emits_exec fun _ _ _ hx => List.mem_singleton.mp hx ▸ hok _) fun _ => emits_done _

theorem emits_makeRejection {α : Type} (hok : ∀ row, ok (.insertAudit row)) (code reason : String) :
    Emits ok (makeRejection req code reason : Program α) :=
  emits_bind (emits_record hok _) fun _ => emits_throw _

/-- The guard opens no transaction and writes audit rows only. -/
theorem emits_canActivate (hok : ∀ row, ok (.insertAudit row)) : Emits ok (canActivate G req) := by
  unfold canActivate
  split
  · split
    · exact emits_makeRejection hok _ _
    · refine emits_bind (emits_query _) fun found => ?_
      split
      · exact emits_makeRejection hok _ _
      · split
        · exact emits_makeRejection hok _ _
        · split
          · exact emits_makeRejection hok _ _
          · refine emits_bind (emits_query _) fun nowMs => emits_bind (emits_ofExcept _) fun result => ?_
            split
            · exact emits_makeRejection hok _ _
            · exact emits_bind (emits_query _) fun _ => emits_done _
  · exact emits_makeRejection hok _ _

variable {C : Contract platform} {t : ℕ} {d : Store} {n : ℕ}

theorem wp_makeRejection {α : Type} {Q : α → Assertion Store Write} {E : Failure → Assertion Store Write}
    (haudit : ∀ v row, C.guar v [.insertAudit row]) (hE : ∀ e d n, E e none d n)
    {code reason : String} : wp C t (makeRejection req code reason) Q E none d n := by
  rw [makeRejection, bind_eq, wp_bind, record, wp_tryCatch]
  exact wp_exec_auto (fun _ d n => hE _ d n) (fun v _ _ _ _ _ _ _ _ => haudit v _)
    fun _ _ d n _ _ _ _ => hE _ _ _

/-- The guard commits audit rows only, then the request goes on as the broker. -/
theorem wp_canActivate {Q : AuthenticatedBroker → Assertion Store Write}
    {E : Failure → Assertion Store Write} (haudit : ∀ v row, C.guar v [.insertAudit row])
    (hE : ∀ e d n, E e none d n) (hQ : ∀ b d n, Q b none d n) :
    wp C t (canActivate G req) Q E none d n := by
  unfold canActivate
  split
  · split
    · exact wp_makeRejection haudit hE
    · rw [bind_eq, wp_bind, findByApiKeyPrefix]
      refine wp_query_auto hE fun v i d₁ n₁ _ _ _ => ?_
      split
      · exact wp_makeRejection haudit hE
      · split
        · exact wp_makeRejection haudit hE
        · split
          · exact wp_makeRejection haudit hE
          · rw [bind_eq, wp_bind, draw]
            refine wp_query_auto hE fun _ j d₂ n₂ _ _ _ => ?_
            rw [bind_eq, wp_bind]
            refine wp_ofExcept (fun e _ => hE e d₂ n₂) fun result _ => ?_
            split
            · exact wp_makeRejection haudit hE
            · rw [bind_eq, wp_bind, touchApiKeyLastUsed]
              exact wp_query_auto hE fun _ _ d₃ n₃ _ _ _ => hQ _ d₃ n₃
  · exact wp_makeRejection haudit hE

end Rules

section Calls

variable {G : HmacConfig} {H : Sha256} {lot : String} {t : ℕ} {d : Store} {n : ℕ}

/-- Every call keeps a contract that allows what orders and fills commit. -/
theorem keeps_broker {C : Contract platform} (hguar : ∀ v ws, Traded H lot v.committed ws → C.guar v ws)
    (call : BrokerCall) : C.Keeps t (brokerCalls G H lot call) none d n := by
  have haudit : ∀ v row, C.guar v [.insertAudit row] := fun v row => hguar v _ .audit
  cases call with
  | place req =>
    rw [brokerCalls, bind_eq, Contract.Keeps, wp_bind, placeBehindGuard, bind_eq, wp_bind]
    refine wp_canActivate haudit (fun _ _ _ => trivial) fun b d n => ?_
    exact wp_mono _ (fun _ _ _ _ _ => trivial) (fun _ _ _ _ h => h) (keeps_place hguar)
  | verify req =>
    rw [brokerCalls, bind_eq, Contract.Keeps, wp_bind, verifyBehindGuard, bind_eq, wp_bind]
    exact wp_canActivate haudit (fun _ _ _ => trivial) fun _ _ _ => trivial
  | runJob => exact keeps_runJob hguar
  | recoverStalled => exact keeps_orders hguar .recoverStalled

/-- What every commit of the calls keeps holds in every state of a run. -/
theorem broker_visits {P : Store → Prop} (hP : ∀ d ws, platform.validAll d ws = true →
      Traded H lot d ws → P d → P (platform.applyAll d ws)) (hd : P d)
    {es : List (Event BrokerCall Input Failure)} {w : BrokerWorld}
    (h : StepRuns.Visits (World.step platform (brokerCalls G H lot)) (World.initial d n) es w) : P w.db :=
  rows_visits (C := orderContract H lot) (fun _ call _ _ _ => keeps_broker (fun _ _ h => h) call)
    (fun v ws _ hvalid hguar hd => hP v.committed ws hvalid hguar hd) (sound_initial trivial) hd h

end Calls

end LpPlatform.HmacGuard
