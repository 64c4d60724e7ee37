import LpPlatform.Attribution

/-!
# What the guard lets pass

A call of the guard runs at most three statements. As long as none of them
fails, it ends either with the broker of an active, unrevoked key whose secret
and signature were right, or with a rejection that is recorded once. Other
sessions may write whatever they like between its statements.
-/

namespace LpPlatform.GuardSoundness

open Attribution HashChain HmacGuard JsValues Ledger OrderIntake RowStore SessionReplays
open SessionTrails Sessions StatementProgram StepRuns Tables

/-- A header of a request. -/
inductive HeaderValue where
  | absent
  | single (text : String)
  | repeated (texts : List String)

/-- The header when it is a string. -/
def HeaderValue.string? : HeaderValue → Option String
  | .single text => some text
  | _ => none

/-- A request as it comes in. -/
structure IncomingRequest where
  /-- `x-api-key`. -/
  apiKey : HeaderValue
  /-- `x-timestamp`. -/
  timestamp : HeaderValue
  /-- `x-signature`. -/
  signature : HeaderValue
  /-- `user-agent`. -/
  userAgent : Option String
  method : String
  url : String
  rawBody : Option String
  body : Json
  ip : Option String

/-- What the guard reads of it. -/
def IncomingRequest.request (req : IncomingRequest) : BrokerRequest :=
  ⟨req.apiKey.string?, req.timestamp.string?, req.signature.string?, req.userAgent, req.method,
    req.url, req.rawBody, req.body, req.ip⟩

/-- The guard alone. -/
def guarded (G : HmacConfig) (req : IncomingRequest) : Program AuthenticatedBroker :=
  canActivate G req.request

/-- What a call has seen of the platform. -/
abbrev Sight := Seen Store Input Failure

/-- The statement has run. -/
def Ran (o : Sight) : Prop := ∃ v i, o = .ran v i

/-- The credentials of a request and the rows they belong to. -/
structure Credentials where
  apiKey : String
  timestamp : String
  signature : String
  keyPrefix : String
  secret : String
  broker : BrokerRow
  key : ApiKeyRow

/-- A request is right, as the statements of the guard have found it. -/
structure Admitted (G : HmacConfig) (req : IncomingRequest) (os : List Sight) (c : Credentials) :
    Prop where
  /-- The three headers are single strings. -/
  headers : req.apiKey = .single c.apiKey ∧ req.timestamp = .single c.timestamp ∧
    req.signature = .single c.signature
  parts : keyParts c.apiKey = some (c.keyPrefix, c.secret)
  /-- The first statement has found the key and its broker. -/
  found : ∃ v i rest, os = .ran v i :: rest ∧
    anyRow ((G.registry i.now).keysAt c.keyPrefix) i.pick = some (c.broker, c.key)
  /-- The key is stored, not revoked, and the broker is its broker. -/
  stored : ∃ v i rest, os = .ran v i :: rest ∧ c.key ∈ (G.registry i.now).apiKeys ∧
    c.broker ∈ (G.registry i.now).brokers ∧ c.key.keyPrefix = c.keyPrefix ∧
    c.key.revokedAt = none ∧ c.key.brokerId = c.broker.brokerId
  active : c.broker.status = .active
  verified : G.argon2.verify c.key.secretHash c.secret = true
  /-- The signature is right by the clock of the second statement. -/
  signed : ∃ o v i rest, os = o :: .ran v i :: rest ∧ HmacGuard.verify G c.secret
    ⟨c.timestamp, req.request.signedBody, req.request.method ++ " " ++ req.request.url⟩
      c.signature i.now = .ok none

/-- The call has thrown a rejection and recorded it, with these writes. -/
structure Rejected (req : IncomingRequest) (err : Failure) (ws : List Write) : Prop where
  domain : ∃ code reason, err = .domain code reason 401 ∧ ∃ id auditId, ws = [.insertAudit
    ⟨id, auditId, .brokerApi, rejectedActor req.apiKey.string?, "hmac.reject", none, none, .failure,
      .obj [("code", .str code), ("reason", .str reason), ("path", .str req.url),
        ("method", .str req.method)], req.ip, req.userAgent⟩]

/-- How a call of the guard stands after what it has seen and what it has
written. -/
inductive Verdict (G : HmacConfig) (req : IncomingRequest) (os : List Sight) (ws : List Write) :
    Program AuthenticatedBroker → Prop where
  | running {f k err} (hlen : os.length < 3) : Verdict G req os ws (.stmt f k err)
  | passed {c} (h : Admitted G req os c) (hsilent : ws = []) :
      Verdict G req os ws (.done ⟨c.broker.brokerId, c.key.apiKeyId⟩)
  | rejected {err} (h : Rejected req err ws) (hnever : ∀ c, ¬ Admitted G req os c) :
      Verdict G req os ws (.throw err)

section Calls

variable {G : HmacConfig} {req : IncomingRequest} {os : List Sight} {q : Program AuthenticatedBroker}

/-- A header that is a string is there once. -/
theorem string?_eq {header : HeaderValue} {text : String} (h : header.string? = some text) :
    header = .single text := by
  cases header with
  | single other => exact congrArg HeaderValue.single (Option.some.inj h)
  | absent => simp [HeaderValue.string?] at h
  | repeated texts => simp [HeaderValue.string?] at h

/-- A query that has run, and what is told to the code after it. -/
theorem replay_query_ran {β γ : Type} {f : View Store → Input → β} {g : β → Program γ} {q : Program γ}
    (hran : ∀ o ∈ os, Ran o) (h : replay ((query f).bind g) os = some q) :
    (os = [] ∧ q = (query f).bind g) ∨ ∃ v i rest, os = .ran v i :: rest ∧ (∀ o ∈ rest, Ran o) ∧
      replay (g (f v i)) rest = some q ∧
      issued ((query f).bind g) os = issued (g (f v i)) rest := by
  cases os with
  | nil => exact Or.inl ⟨rfl, (Option.some.inj h).symm⟩
  | cons o rest =>
    obtain ⟨⟨v, i, rfl⟩, hrest⟩ := List.forall_mem_cons.mp hran
    exact Or.inr ⟨v, i, rest, rfl, hrest, h, rfl⟩

/-- A rejection waits for its audit row or has been recorded. -/
theorem rejection_verdict {code reason : String} {rest : List Sight} {ws : List Write}
    (hran : ∀ o ∈ rest, Ran o) (h : replay (makeRejection req.request code reason) rest = some q)
    (hissued : ws = issued (makeRejection req.request code reason : Program AuthenticatedBroker) rest)
    (hlen : os.length ≤ rest.length + 2) (hnever : ∀ c, ¬ Admitted G req os c) :
    Verdict G req os ws q := by
  cases rest with
  | nil =>
    obtain rfl := Option.some.inj h
    exact .running (Nat.lt_succ_of_le hlen)
  | cons o rest =>
    obtain ⟨⟨v, i, rfl⟩, -⟩ := List.forall_mem_cons.mp hran
    have hthrow : replay (.throw (.domain code reason 401)) rest = some q := h
    obtain ⟨rfl, rfl⟩ := replay_throw hthrow
    exact .rejected ⟨code, reason, rfl, v.seq, i.id 0, hissued⟩ hnever

/-- The secret of an API key is not empty. -/
theorem secret_ne_empty {apiKey keyPrefix secret : String}
    (h : keyParts apiKey = some (keyPrefix, secret)) : secret ≠ "" := by
  unfold keyParts at h
  split at h
  · simp only [Option.ite_none_right_eq_some, Option.some.injEq, Prod.mk.injEq] at h
    obtain ⟨⟨-, hne⟩, -, rfl⟩ := h
    intro hempty
    have hchars := congrArg String.toList hempty
    exact hne (by simpa using hchars)
  · simp at h

/-- The check of a signature throws only without a secret. -/
theorem verify_returns (G : HmacConfig) {secret : String} (material : SignatureMaterial)
    (signature : String) (nowMs : Instant) (h : secret ≠ "") : ∃ result, HmacGuard.verify G secret material signature nowMs = .ok result := by
  unfold HmacGuard.verify
  split
  · exact ⟨_, rfl⟩
  · split
    · exact ⟨_, rfl⟩
    · rw [sign, if_neg h]
      exact ⟨_, rfl⟩

/-- A call of the guard whose statements have all run is still running after
less than three of them, has let the right broker pass without a write, or has
thrown a rejection that it has recorded once. -/
theorem canActivate_verdict (hran : ∀ o ∈ os, Ran o)
    (h : replay (canActivate G req.request) os = some q) :
    Verdict G req os (issued (canActivate G req.request) os) q := by
  generalize hp : canActivate G req.request = p at h ⊢
  unfold canActivate at hp
  split at hp
  · rename_i apiKey timestamp signature hkey htimestamp hsignature
    -- the credentials of any admission are those of the headers
    have hheaders : ∀ {c : Credentials}, Admitted G req os c →
        c.apiKey = apiKey ∧ c.timestamp = timestamp ∧ c.signature = signature := fun hc =>
      ⟨HeaderValue.single.inj (hc.headers.1.symm.trans (string?_eq hkey)),
        HeaderValue.single.inj (hc.headers.2.1.symm.trans (string?_eq htimestamp)),
        HeaderValue.single.inj (hc.headers.2.2.symm.trans (string?_eq hsignature))⟩
    split at hp
    · rename_i hparts
      subst hp
      refine rejection_verdict hran h rfl (by omega) fun c hc => ?_
      have hnone := hc.parts
      rw [(hheaders hc).1, hparts] at hnone
      simp at hnone
    · rename_i keyPrefix secret hparts
      have hkeys : ∀ {c : Credentials}, Admitted G req os c →
          c.keyPrefix = keyPrefix ∧ c.secret = secret := by
        intro c hc
        have hsome := hc.parts
        rw [(hheaders hc).1, hparts] at hsome
        exact ⟨(Prod.mk.inj (Option.some.inj hsome)).1.symm, (Prod.mk.inj (Option.some.inj hsome)).2.symm⟩
      subst hp
      rcases replay_query_ran hran h with ⟨rfl, rfl⟩ | ⟨v, i, rest, rfl, hrest, h, hissued⟩
      · exact .running (by simp)
      have hrow : ∀ {c : Credentials}, Admitted G req (.ran v i :: rest) c →
          anyRow ((G.registry i.now).keysAt keyPrefix) i.pick = some (c.broker, c.key) := by
        intro c hc
        obtain ⟨v', i', rest', heq, hfound⟩ := hc.found
        obtain ⟨hhead, -⟩ := List.cons.inj heq
        obtain ⟨-, rfl⟩ := Seen.ran.inj hhead
        rw [(hkeys hc).1] at hfound
        exact hfound
      cases hfound : anyRow ((G.registry i.now).keysAt keyPrefix) i.pick with
      | none =>
        simp only [hfound] at h hissued
        refine rejection_verdict hrest h hissued (by simp) fun c hc => ?_
        rw [hfound] at hrow
        simpa using hrow hc
      | some row =>
        obtain ⟨broker, key⟩ := row
        have hsame : ∀ {c : Credentials}, Admitted G req (.ran v i :: rest) c →
            c.broker = broker ∧ c.key = key := by
          intro c hc
          have hc := hrow hc
          rw [hfound] at hc
          exact ⟨(Prod.mk.inj (Option.some.inj hc)).1.symm, (Prod.mk.inj (Option.some.inj hc)).2.symm⟩
        simp only [hfound] at h hissued
        by_cases hactive : broker.status = .active
        · by_cases hsecret : G.argon2.verify key.secretHash secret = false
          · simp only [hactive, ne_eq, not_true_eq_false, if_false, hsecret, if_true] at h hissued
            refine rejection_verdict hrest h hissued (by simp) fun c hc => ?_
            have hverified := hc.verified
            rw [(hsame hc).2, (hkeys hc).2, hsecret] at hverified
            simp at hverified
          · rw [Bool.not_eq_false] at hsecret
            simp only [hactive, ne_eq, not_true_eq_false, if_false, hsecret, Bool.true_eq_false] at h hissued
            rcases replay_query_ran hrest h with ⟨rfl, rfl⟩ | ⟨v', j, rest', rfl, hrest', h, hissued'⟩
            · exact .running (by simp)
            replace hissued := hissued.trans hissued'
            obtain ⟨result, hresult⟩ := verify_returns G
              ⟨timestamp, req.request.signedBody, req.request.method ++ " " ++ req.request.url⟩
              signature j.now (secret_ne_empty hparts)
            have hsigned : ∀ {c : Credentials}, Admitted G req (.ran v i :: .ran v' j :: rest') c →
                result = none := by
              intro c hc
              obtain ⟨o, u, k, later, heq, hc'⟩ := hc.signed
              obtain ⟨-, heq⟩ := List.cons.inj heq
              obtain ⟨hhead, -⟩ := List.cons.inj heq
              obtain ⟨-, rfl⟩ := Seen.ran.inj hhead
              rw [(hkeys hc).2, (hheaders hc).2.1, (hheaders hc).2.2, hresult] at hc'
              exact Except.ok.inj hc'
            simp only [hresult, StatementProgram.ofExcept, bind_eq, Prog.bind] at h hissued
            cases result with
            | some reason =>
              refine rejection_verdict hrest' h hissued (by simp) fun c hc => ?_
              simpa using hsigned hc
            | none =>
              rcases replay_query_ran hrest' h with ⟨rfl, rfl⟩ | ⟨u, k, later, rfl, hlater, h, hissued''⟩
              · exact .running (by simp)
              obtain ⟨rfl, rfl⟩ := replay_done h
              refine @Verdict.passed _ _ _ _ ⟨apiKey, timestamp, signature, keyPrefix, secret, broker, key⟩
                ?_ (hissued.trans hissued'')
              obtain ⟨hk, hb, hprefix, hrevoked, hid⟩ := mem_keysAt.mp (anyRow_mem hfound)
              exact ⟨⟨string?_eq hkey, string?_eq htimestamp, string?_eq hsignature⟩, hparts,
                ⟨v, i, _, rfl, hfound⟩, ⟨v, i, _, rfl, hk, hb, hprefix, hrevoked, hid⟩, hactive,
                hsecret, ⟨_, v', j, _, rfl, hresult⟩⟩
        · simp only [ne_eq, hactive, not_false_eq_true, if_true] at h hissued
          refine rejection_verdict hrest h hissued (by simp) fun c hc => ?_
          have hstatus := hc.active
          rw [(hsame hc).1] at hstatus
          exact hactive hstatus
  · rename_i hmissing
    subst hp
    refine rejection_verdict hran h rfl (by omega) fun c hc => ?_
    exact hmissing _ _ _ (congrArg HeaderValue.string? hc.headers.1)
      (congrArg HeaderValue.string? hc.headers.2.1) (congrArg HeaderValue.string? hc.headers.2.2)

end Calls

section Runs

variable {G : HmacConfig} {d : Store} {n : ℕ} {es : List (Event IncomingRequest Input Failure)}

/-- The worlds of the guard. -/
abbrev GuardWorld := World Store Write Key Input Failure AuthenticatedBroker

/-- A session whose statements do not fail has seen them run. -/
theorem seen_ran {t : ℕ} {w : GuardWorld} (hran : ∀ e, Event.fail t e ∉ es) :
    ∀ o ∈ seen platform (guarded G) t w es, Ran o := by
  induction es generalizing w with
  | nil => simp [seen]
  | cons e es ih =>
    intro o ho
    rw [seen] at ho
    split at ho
    · simp at ho
    · rename_i w' hstep
      rcases List.mem_append.mp ho with htold | hlater
      · cases e with
        | step u i =>
          simp only [tells] at htold
          split at htold
          · obtain ⟨ses, -, rfl⟩ := List.mem_map.mp htold
            exact ⟨_, i, rfl⟩
          · simp at htold
        | fail u err =>
          simp only [tells] at htold
          split at htold
          · rename_i hu
            exact absurd (hu ▸ List.mem_cons_self) (hran err)
          · simp at htold
        | start u req => simp [tells] at htold
        | crash u => simp [tells] at htold
      · exact ih (fun err hmem => hran err (List.mem_cons_of_mem _ hmem)) o hlater

/-- In every run, a call of the guard whose statements do not fail lets exactly
the broker of an active, unrevoked key with the right secret and signature
pass, and writes nothing; otherwise it throws a rejection and records it once.
It has ended after three statements. -/
theorem guard_sound {w : GuardWorld}
    (hrun : run (World.step platform (guarded G)) (World.initial d n) es = some w) {t : ℕ}
    {ses : Session Store Write Input Failure AuthenticatedBroker} (hses : w.sessions t = some ses)
    (hran : ∀ e, Event.fail t e ∉ es) :
    ∃ req, Started platform (guarded G) (World.initial d n) es t req ∧
      Verdict G req (seen platform (guarded G) t (World.initial d n) es)
        (writesOf t (history platform (guarded G) (World.initial d n) es)) ses.prog := by
  obtain ⟨req, hreplayed, hissued⟩ := issued_run hrun hses
  have hauto : AutoCommits (guarded G req) :=
    (@emits_canActivate G req.request (fun _ => True) fun _ => trivial).auto
  refine ⟨req, hreplayed.started, ?_⟩
  rw [hissued hauto]
  exact canActivate_verdict (seen_ran hran) hreplayed.left

/-- The signed order of the example as it comes in. -/
def incomingOrder : IncomingRequest where
  apiKey := .single "lp_b1.s3cret"
  timestamp := .single "0"
  signature := .single signedHmac
  userAgent := none
  method := signedOrder.method
  url := signedOrder.url
  rawBody := signedOrder.rawBody
  body := signedOrder.body
  ip := none

/-- The order passes the guard. -/
def passing : List (Event IncomingRequest Input Failure) :=
  .start 1 incomingOrder :: List.replicate 3 (.step 1 quiet)

/-- A program that has returned. -/
def returned {α : Type} : Program α → Bool
  | .done _ => true
  | _ => false

theorem guard_sound_signed : ∃ w ses, run (World.step platform (guarded plainHmac))
      (World.initial Store.empty 0) passing = some w ∧ w.sessions 1 = some ses ∧
    (∃ b, ses.prog = .done b) ∧ ∃ req, Verdict plainHmac req
      (seen platform (guarded plainHmac) 1 (World.initial Store.empty 0) passing)
      (writesOf 1 (history platform (guarded plainHmac) (World.initial Store.empty 0) passing))
      ses.prog := by
  obtain ⟨w, hrun, hcheck⟩ := run_reaches (World.step platform (guarded plainHmac))
    (World.initial Store.empty 0) passing
    (fun w => (w.sessions 1).any fun ses => returned ses.prog) (by decide +kernel)
  obtain ⟨ses, hses, hdone⟩ := (Option.any_eq_true ..).mp hcheck
  have hran : ∀ e, Event.fail 1 e ∉ passing := by simp [passing]
  obtain ⟨req, -, hverdict⟩ := guard_sound hrun hses hran
  refine ⟨w, ses, hrun, hses, ?_, req, hverdict⟩
  unfold returned at hdone
  split at hdone
  · rename_i b hprog
    exact ⟨b, hprog⟩
  · simp at hdone

end Runs

end LpPlatform.GuardSoundness
