import LpPlatform.AdminAuth
import LpPlatform.JsonHosts
import LpPlatform.MessageHub
import LpPlatform.PortalReads
import LpPlatform.TwoStates

/-!
# The live feed

A broker pushes snapshots of its open positions. A snapshot is cached for
thirty seconds and then published, and the worker publishes fills. Browsers
connect with a token. Each is in the room of its own broker, and users of the
platform may ask for further rooms. The gateway sends an event to the room of
the broker it names. Pushes, sockets and the gateway take turns in any order,
and messages may be lost.
-/

namespace LpPlatform.LiveFeed

open AdminAuth (validated)
open BrokerPortal DecimalText JsValues JsonHosts Ledger MessageHub OrderIntake PortalReads StepRuns Tables
open TradeChain TwoStates

/-- A decimal string. -/
def isDecimal (text : String) : Bool := (literal? text.toList).isSome

/-- A text field that passes a check. -/
def textField (check : String → Bool) (key : String) (body : Json) : Option String :=
  ((body.field? key).bind Json.string?).filter check

/-- The label field of a position, which may be null or absent. -/
def labelField (item : Json) : Option (List (String × Json)) :=
  match item.field? "userLabel" with
  | none => some []
  | some .null => some [("userLabel", .null)]
  | some (.str s) => some [("userLabel", .str s)]
  | some _ => none

/-- A position that passes the schema, without fields the schema does not
know. -/
def positionSchema (item : Json) : Option Json := do
  let tradeId ← textField (fun _ => true) "tradeId" item
  let userLabel ← labelField item
  let symbol ← textField (fun _ => true) "symbol" item
  let side ← textField (fun s => s = "BUY" || s = "SELL") "side" item
  let quantity ← textField isDecimal "quantity" item
  let openPrice ← textField isDecimal "openPrice" item
  let currentPrice ← textField isDecimal "currentPrice" item
  let floatingPnl ← textField isDecimal "floatingPnl" item
  some (.obj (("tradeId", .str tradeId) :: userLabel ++ [("symbol", .str symbol), ("side", .str side),
    ("quantity", .str quantity), ("openPrice", .str openPrice), ("currentPrice", .str currentPrice),
    ("floatingPnl", .str floatingPnl)]))

/-- Positions that pass the schema. -/
def positionsField : Option Json → Option (List Json)
  | some (.arr items) => if items.length ≤ 2000 then items.mapM positionSchema else none
  | _ => none

/-- The time field. -/
def timestampField : Option Json → Option (Option String)
  | none => some none
  | some (.str s) => some (some s)
  | some _ => none

/-- The body of a push. -/
structure MarkToMarketDto where
  brokerId : String
  positions : List Json
  totalPnl : String
  timestamp : Option String

/-- `markToMarketSchema`. -/
def markToMarketSchema (body : Json) : Option MarkToMarketDto := do
  let brokerId ← textField (fun s => 1 ≤ utf16Length s) "brokerId" body
  let positions ← positionsField (body.field? "positions")
  let totalPnl ← textField isDecimal "totalPnl" body
  let timestamp ← timestampField (body.field? "timestamp")
  some ⟨brokerId, positions, totalPnl, timestamp⟩

/-- The snapshot that is cached and published. -/
def MarkToMarketDto.snapshot (dto : MarkToMarketDto) (now : Instant) : Json :=
  .obj [("type", .str "positions.snapshot"), ("brokerId", .str dto.brokerId),
    ("positions", .arr dto.positions), ("totalPnl", .str dto.totalPnl),
    ("ts", .str (dto.timestamp.getD (toISOString now)))]

/-- The checks of `PositionsController.markToMarket`, behind its validation
pipe. -/
def markToMarket (body : Json) (broker : Option AuthenticatedBroker) : Except Failure MarkToMarketDto := do
  let dto ← validated (markToMarketSchema body)
  match broker with
  | none => .error (.domain "AUTH_FORBIDDEN" "No authenticated broker on request" 403)
  | some broker =>
    if broker.brokerId = dto.brokerId then .ok dto
    else .error (.domain "AUTH_FORBIDDEN" "brokerId mismatch with API key" 403)

/-- The event of a fill. -/
def tradeEvent (order : OrderRow) (fillPrice : String) (now : Instant) : Json :=
  .obj [("type", .str "trade.executed"), ("brokerId", .str order.brokerId), ("symbol", .str order.symbol),
    ("side", .str (sideText order.side)), ("price", .str fillPrice), ("quantity", .str order.quantity),
    ("executedAt", .str (toISOString now))]

/-- What an access token says. -/
structure JwtPayload where
  sub : String
  email : String
  role : UserRole
  brokerId : Option String

/-- What a socket connects with. -/
structure Handshake where
  auth : Option Json
  cookie : Option String

/-- The access token in a cookie header. -/
def cookieToken (cookie : String) : Option String :=
  (((cookie.toList.splitOn ';').map trim).find? fun c => "lp_access=".toList.isPrefixOf c).map fun c =>
    String.ofList (c.drop "lp_access=".length)

/-- `EventsGateway.extractToken`. -/
def extractToken (handshake : Handshake) : Option String :=
  match handshake.auth.bind (Json.field? "token") with
  | some (.str header) => some header
  | _ => handshake.cookie.bind cookieToken

/-- What the feed takes from the host. -/
structure FeedConfig where
  host : JsonHost
  /-- `AuthService.verify` at an instant, none when it throws. -/
  verify : Instant → String → Option JwtPayload

/-- The room of a broker. -/
def brokerRoom (brokerId : String) : String := "broker:" ++ brokerId

/-- The room of a message, none when its dispatch throws. -/
def roomOf (K : FeedConfig) (payload : String) : Option String :=
  match K.host.parse payload with
  | none => none
  | some .null => none
  | some event => some (brokerRoom (((event.field? "brokerId").map jsonText).getD "undefined"))

/-- How far a connection has come. -/
inductive Stage where
  | verified
  | joined
  | listening
  | closed
  deriving DecidableEq

/-- A socket whose token has been verified. -/
structure Client where
  payload : JwtPayload
  stage : Stage

/-- The gateway and its sockets, the cache, and snapshots that are cached and
not published yet. -/
structure Feed where
  hub : Hub String String
  clients : ℕ → Option Client
  /-- Values and the last instant they are kept at. -/
  cache : String → Option (String × Instant)
  pending : List String

/-- Nobody is there. -/
def Feed.empty : Feed := ⟨.empty, fun _ => none, fun _ => none, []⟩

/-- What can happen. -/
inductive FeedEvent where
  /-- A push is checked and its snapshot cached. -/
  | push (body : Json) (broker : Option AuthenticatedBroker) (now : Instant)
  /-- A cached snapshot is published. -/
  | publish (index : ℕ)
  /-- A push ends before its snapshot is published. -/
  | abandon (index : ℕ)
  /-- The worker publishes a fill. -/
  | trade (order : OrderRow) (fillPrice : String) (now : Instant)
  /-- A socket connects and its token is verified. -/
  | connect (s : ℕ) (handshake : Handshake) (now : Instant)
  /-- The rest of its connection. -/
  | join (s : ℕ)
  | subscribe (s : ℕ) (msg : Json)
  | disconnect (s : ℕ)
  /-- The gateway dispatches the next message. -/
  | dispatch
  /-- The next message does not reach the gateway. -/
  | lose

/-- How long a snapshot is kept, in milliseconds. -/
def SNAPSHOT_TTL : Int := 30000

/-- The feed after an event, unless it cannot happen. -/
def Feed.step (K : FeedConfig) (w : Feed) : FeedEvent → Option Feed
  | .push body broker now =>
    match markToMarket body broker with
    | .error _ => some w
    | .ok dto =>
      let text := K.host.stringify (dto.snapshot now)
      some { w with
        cache := Function.update w.cache ("positions:" ++ dto.brokerId) (some (text, now + SNAPSHOT_TTL))
        pending := w.pending ++ [text] }
  | .publish index => do
    let text ← w.pending[index]?
    let hub ← w.hub.step (roomOf K) (.publish text)
    return { w with hub := hub, pending := w.pending.eraseIdx index }
  | .abandon index =>
    if index < w.pending.length then some { w with pending := w.pending.eraseIdx index } else none
  | .trade order fillPrice now => do
    let hub ← w.hub.step (roomOf K) (.publish (K.host.stringify (tradeEvent order fillPrice now)))
    return { w with hub := hub }
  | .connect s handshake now =>
    if (w.clients s).isSome then none
    else
      match ((extractToken handshake).filter (· ≠ "")).bind (K.verify now) with
      | none => some w
      | some payload => do
        let hub ← w.hub.step (roomOf K) (.connect s)
        return { w with hub := hub, clients := Function.update w.clients s (some ⟨payload, .verified⟩) }
  | .join s => do
    let c ← (w.clients s).filter (·.stage = .verified)
    let stage := if c.payload.role = .brokerUser then Stage.joined else .listening
    let clients := Function.update w.clients s (some { c with stage := stage })
    match c.payload.brokerId.filter (· ≠ "") with
    | none => return { w with clients := clients }
    | some brokerId =>
      let hub ← w.hub.step (roomOf K) (.join s (brokerRoom brokerId))
      return { w with hub := hub, clients := clients }
  | .subscribe s msg => do
    let _ ← (w.clients s).filter (·.stage = .listening)
    match msg.field? "brokerId" with
    | some (.str brokerId) =>
      let hub ← w.hub.step (roomOf K) (.join s (brokerRoom brokerId))
      return { w with hub := hub }
    | _ => return w
  | .disconnect s => do
    let c ← (w.clients s).filter (·.stage ≠ .closed)
    let hub ← w.hub.step (roomOf K) (.leave s)
    return { w with hub := hub, clients := Function.update w.clients s (some { c with stage := .closed }) }
  | .dispatch => do
    let hub ← w.hub.step (roomOf K) .dispatch
    return { w with hub := hub }
  | .lose => do
    let hub ← w.hub.step (roomOf K) .lose
    return { w with hub := hub }

/-- What an event does. -/
inductive Moved (K : FeedConfig) (w : Feed) : FeedEvent → Feed → Prop where
  | rejected {body broker now error} (h : markToMarket body broker = .error error) :
    Moved K w (.push body broker now) w
  | pushed {body broker now dto} (h : markToMarket body broker = .ok dto) :
    Moved K w (.push body broker now)
      { w with
        cache := Function.update w.cache ("positions:" ++ dto.brokerId)
          (some (K.host.stringify (dto.snapshot now), now + SNAPSHOT_TTL))
        pending := w.pending ++ [K.host.stringify (dto.snapshot now)] }
  | published {index text hub} (h : w.pending[index]? = some text)
      (hhub : w.hub.step (roomOf K) (.publish text) = some hub) :
    Moved K w (.publish index) { w with hub := hub, pending := w.pending.eraseIdx index }
  | abandoned {index} : Moved K w (.abandon index) { w with pending := w.pending.eraseIdx index }
  | traded {order fillPrice now hub} (hhub : w.hub.step (roomOf K)
      (.publish (K.host.stringify (tradeEvent order fillPrice now))) = some hub) :
    Moved K w (.trade order fillPrice now) { w with hub := hub }
  | refused {s handshake now} : Moved K w (.connect s handshake now) w
  | connected {s handshake now payload hub} (hnew : w.clients s = none)
      (hhub : w.hub.step (roomOf K) (.connect s) = some hub) :
    Moved K w (.connect s handshake now)
      { w with hub := hub, clients := Function.update w.clients s (some ⟨payload, .verified⟩) }
  | roomless {s c stage} (h : w.clients s = some c)
      (hstage : stage = .listening → c.payload.role ≠ .brokerUser) :
    Moved K w (.join s) { w with clients := Function.update w.clients s (some { c with stage := stage }) }
  | joined {s c stage brokerId hub} (h : w.clients s = some c)
      (hbroker : c.payload.brokerId = some brokerId) (hne : brokerId ≠ "")
      (hhub : w.hub.step (roomOf K) (.join s (brokerRoom brokerId)) = some hub)
      (hstage : stage = .listening → c.payload.role ≠ .brokerUser) :
    Moved K w (.join s)
      { w with hub := hub, clients := Function.update w.clients s (some { c with stage := stage }) }
  | subscribed {s msg c brokerId hub} (h : w.clients s = some c) (hstage : c.stage = .listening)
      (hmsg : msg.field? "brokerId" = some (.str brokerId))
      (hhub : w.hub.step (roomOf K) (.join s (brokerRoom brokerId)) = some hub) :
    Moved K w (.subscribe s msg) { w with hub := hub }
  | ignored {s msg} : Moved K w (.subscribe s msg) w
  | disconnected {s c hub} (h : w.clients s = some c)
      (hhub : w.hub.step (roomOf K) (.leave s) = some hub) :
    Moved K w (.disconnect s)
      { w with hub := hub, clients := Function.update w.clients s (some { c with stage := .closed }) }
  | dispatched {hub} (hhub : w.hub.step (roomOf K) .dispatch = some hub) :
    Moved K w .dispatch { w with hub := hub }
  | lost {hub} (hhub : w.hub.step (roomOf K) .lose = some hub) : Moved K w .lose { w with hub := hub }

section Steps

variable {K : FeedConfig} {w w' : Feed}

theorem moved_step {e : FeedEvent} (hstep : w.step K e = some w') : Moved K w e w' := by
  cases e with
  | push body broker now =>
    simp only [Feed.step] at hstep
    cases hdto : markToMarket body broker with
    | error error =>
      rw [hdto] at hstep
      obtain rfl := Option.some.inj hstep
      exact .rejected hdto
    | ok dto =>
      rw [hdto] at hstep
      obtain rfl := Option.some.inj hstep
      exact .pushed hdto
  | publish index =>
    obtain ⟨text, htext, hstep⟩ := Option.bind_eq_some_iff.mp hstep
    obtain ⟨hub, hhub, hstep⟩ := Option.bind_eq_some_iff.mp hstep
    obtain rfl := Option.some.inj hstep
    exact .published htext hhub
  | abandon index =>
    simp only [Feed.step, Option.ite_none_right_eq_some, Option.some.injEq] at hstep
    obtain ⟨-, rfl⟩ := hstep
    exact .abandoned
  | trade order fillPrice now =>
    obtain rfl := Option.some.inj hstep
    exact .traded rfl
  | connect s handshake now =>
    simp only [Feed.step, Option.ite_none_left_eq_some, Option.isSome_iff_ne_none, not_not] at hstep
    obtain ⟨hnew, hstep⟩ := hstep
    cases hpayload : ((extractToken handshake).filter (· ≠ "")).bind (K.verify now) with
    | none =>
      rw [hpayload] at hstep
      obtain rfl := Option.some.inj hstep
      exact .refused
    | some payload =>
      rw [hpayload] at hstep
      obtain ⟨hub, hhub, hstep⟩ := Option.bind_eq_some_iff.mp hstep
      obtain rfl := Option.some.inj hstep
      exact .connected hnew hhub
  | join s =>
    obtain ⟨c, hc, hstep⟩ := Option.bind_eq_some_iff.mp hstep
    obtain ⟨hclient, -⟩ := Option.filter_eq_some_iff.mp hc
    have hstage : (if c.payload.role = .brokerUser then Stage.joined else .listening) = .listening →
        c.payload.role ≠ .brokerUser := by
      intro hlistening hrole
      rw [if_pos hrole] at hlistening
      cases hlistening
    cases hbroker : c.payload.brokerId.filter (· ≠ "") with
    | none =>
      simp only [hbroker] at hstep
      obtain rfl := Option.some.inj hstep
      exact .roomless hclient hstage
    | some brokerId =>
      simp only [hbroker] at hstep
      obtain ⟨hub, hhub, hstep⟩ := Option.bind_eq_some_iff.mp hstep
      obtain rfl := Option.some.inj hstep
      obtain ⟨hsome, hne⟩ := Option.filter_eq_some_iff.mp hbroker
      exact .joined hclient hsome (of_decide_eq_true hne) hhub hstage
  | subscribe s msg =>
    obtain ⟨c, hc, hstep⟩ := Option.bind_eq_some_iff.mp hstep
    obtain ⟨hclient, hstage⟩ := Option.filter_eq_some_iff.mp hc
    split at hstep
    · rename_i brokerId hmsg
      obtain ⟨hub, hhub, hstep⟩ := Option.bind_eq_some_iff.mp hstep
      obtain rfl := Option.some.inj hstep
      exact .subscribed hclient (of_decide_eq_true hstage) hmsg hhub
    · obtain rfl := Option.some.inj hstep
      exact .ignored
  | disconnect s =>
    obtain ⟨c, hc, hstep⟩ := Option.bind_eq_some_iff.mp hstep
    obtain ⟨hclient, -⟩ := Option.filter_eq_some_iff.mp hc
    obtain ⟨hub, hhub, hstep⟩ := Option.bind_eq_some_iff.mp hstep
    obtain rfl := Option.some.inj hstep
    exact .disconnected hclient hhub
  | dispatch =>
    obtain ⟨hub, hhub, hstep⟩ := Option.bind_eq_some_iff.mp hstep
    obtain rfl := Option.some.inj hstep
    exact .dispatched hhub
  | lose =>
    obtain ⟨hub, hhub, hstep⟩ := Option.bind_eq_some_iff.mp hstep
    obtain rfl := Option.some.inj hstep
    exact .lost hhub

end Steps

section Texts

theorem plainItems_iff {items : List Json} : PlainItems items ↔ ∀ item ∈ items, Plain item := by
  induction items with
  | nil => simp [PlainItems]
  | cons item items ih => simp [PlainItems, ih]

/-- What a map that may fail has made comes from some item. -/
theorem mem_mapM {α β : Type} {f : α → Option β} {as : List α} {bs : List β} (h : as.mapM f = some bs)
    {b : β} (hb : b ∈ bs) : ∃ a ∈ as, f a = some b := by
  induction as generalizing bs with
  | nil =>
    obtain rfl : [] = bs := Option.some.inj h
    simp at hb
  | cons a as ih =>
    rw [List.mapM_cons] at h
    obtain ⟨first, hfirst, h⟩ := Option.bind_eq_some_iff.mp h
    obtain ⟨rest, hrest, h⟩ := Option.bind_eq_some_iff.mp h
    obtain rfl : first :: rest = bs := Option.some.inj h
    rcases List.mem_cons.mp hb with rfl | hb
    · exact ⟨a, List.mem_cons_self, hfirst⟩
    · obtain ⟨x, hx, hfx⟩ := ih hrest hb
      exact ⟨x, List.mem_cons_of_mem a hx, hfx⟩

/-- A position that passes the schema has texts only. -/
theorem plain_position {item position : Json} (h : positionSchema item = some position) : Plain position := by
  simp only [positionSchema, bind, Option.bind_eq_some_iff, Option.some.injEq] at h
  obtain ⟨tradeId, -, userLabel, hlabel, symbol, -, side, -, quantity, -, openPrice, -, currentPrice, -,
    floatingPnl, -, rfl⟩ := h
  have hlabels : userLabel = [] ∨ userLabel = [("userLabel", .null)] ∨
      ∃ s, userLabel = [("userLabel", .str s)] := by
    unfold labelField at hlabel
    split at hlabel
    · exact Or.inl (Option.some.inj hlabel).symm
    · exact Or.inr (Or.inl (Option.some.inj hlabel).symm)
    · rename_i s _
      exact Or.inr (Or.inr ⟨s, (Option.some.inj hlabel).symm⟩)
    · simp at hlabel
  rcases hlabels with rfl | rfl | ⟨s, rfl⟩ <;> exact ⟨by simp, by simp [PlainFields, Plain]⟩

/-- What passes all checks is the push of the authenticated broker. -/
theorem markToMarket_ok {body : Json} {broker : Option AuthenticatedBroker} {dto : MarkToMarketDto}
    (h : markToMarket body broker = .ok dto) : markToMarketSchema body = some dto ∧
      ∃ b, broker = some b ∧ b.brokerId = dto.brokerId := by
  cases hschema : markToMarketSchema body with
  | none => simp [markToMarket, hschema, validated, bind, Except.bind] at h
  | some fields =>
    cases broker with
    | none => simp [markToMarket, hschema, validated, bind, Except.bind] at h
    | some b =>
      simp only [markToMarket, hschema, validated, bind, Except.bind] at h
      split at h
      · rename_i hsame
        obtain rfl := Except.ok.inj h
        exact ⟨rfl, b, rfl, hsame⟩
      · simp at h

/-- A snapshot has texts only. -/
theorem plain_snapshot {body : Json} {dto : MarkToMarketDto} (h : markToMarketSchema body = some dto)
    (now : Instant) : Plain (dto.snapshot now) := by
  simp only [markToMarketSchema, bind, Option.bind_eq_some_iff, Option.some.injEq] at h
  obtain ⟨brokerId, -, positions, hpositions, totalPnl, -, timestamp, -, rfl⟩ := h
  have hplain : PlainItems positions := by
    unfold positionsField at hpositions
    split at hpositions
    · obtain ⟨-, hmap⟩ := Option.ite_none_right_eq_some.mp hpositions
      refine plainItems_iff.mpr fun position hposition => ?_
      obtain ⟨item, -, hitem⟩ := mem_mapM hmap hposition
      exact plain_position hitem
    · simp at hpositions
  exact ⟨by simp, by simp [PlainFields, Plain, hplain]⟩

theorem plain_tradeEvent (order : OrderRow) (fillPrice : String) (now : Instant) :
    Plain (tradeEvent order fillPrice now) := ⟨by simp, by simp [PlainFields, Plain]⟩

end Texts

/-- The message is a snapshot that the broker pushed under its own key, or a
fill of an order of the broker. -/
def About (K : FeedConfig) (es : List FeedEvent) (brokerId text : String) : Prop :=
  (∃ body b now dto, .push body (some b) now ∈ es ∧ b.brokerId = brokerId ∧
    markToMarket body (some b) = .ok dto ∧ text = K.host.stringify (dto.snapshot now)) ∨
  ∃ order fillPrice now, .trade order fillPrice now ∈ es ∧ order.brokerId = brokerId ∧
    text = K.host.stringify (tradeEvent order fillPrice now)

/-- The broker is the one of the token, or one that a user of the platform has
asked for. -/
def Entitled (es : List FeedEvent) (s : ℕ) (payload : JwtPayload) (brokerId : String) : Prop :=
  (payload.brokerId = some brokerId ∧ brokerId ≠ "") ∨
    (payload.role ≠ .brokerUser ∧ ∃ msg, .subscribe s msg ∈ es ∧ msg.field? "brokerId" = some (.str brokerId))

/-- What is kept along a run. -/
structure Kept (K : FeedConfig) (es : List FeedEvent) (w : Feed) : Prop where
  told : Told (roomOf K) w.hub
  about : ∀ text ∈ w.hub.published ++ w.pending, ∃ brokerId, About K es brokerId text
  rooms : ∀ s m, w.hub.members s = some m → ∃ c, w.clients s = some c ∧
    ∀ r ∈ m.rooms, ∃ brokerId, r = brokerRoom brokerId ∧ Entitled es s c.payload brokerId
  listening : ∀ s c, w.clients s = some c → c.stage = .listening → c.payload.role ≠ .brokerUser

section Isolation

variable {K : FeedConfig} {w w' : Feed} {es : List FeedEvent} {e : FeedEvent}

theorem about_mono {brokerId text : String} (h : About K es brokerId text) :
    About K (es ++ [e]) brokerId text := by
  rcases h with ⟨body, b, now, dto, hmem, h⟩ | ⟨order, fillPrice, now, hmem, h⟩
  · exact Or.inl ⟨body, b, now, dto, List.mem_append_left _ hmem, h⟩
  · exact Or.inr ⟨order, fillPrice, now, List.mem_append_left _ hmem, h⟩

theorem entitled_mono {s : ℕ} {payload : JwtPayload} {brokerId : String}
    (h : Entitled es s payload brokerId) : Entitled (es ++ [e]) s payload brokerId := by
  rcases h with h | ⟨hrole, msg, hmem, hmsg⟩
  · exact Or.inl h
  · exact Or.inr ⟨hrole, msg, List.mem_append_left _ hmem, hmsg⟩

/-- The room of a message is that of the broker it is about. -/
theorem roomOf_about {brokerId text : String} (h : About K es brokerId text) :
    roomOf K text = some (brokerRoom brokerId) := by
  rcases h with ⟨body, b, now, dto, -, hbroker, hok, rfl⟩ | ⟨order, fillPrice, now, -, rfl, rfl⟩
  · obtain ⟨hschema, b', hb', hsame⟩ := markToMarket_ok hok
    obtain rfl := Option.some.inj hb'
    rw [roomOf, K.host.parse_stringify _ (plain_snapshot hschema now)]
    simp [MarkToMarketDto.snapshot, Json.field?, jsonText, ← hsame, hbroker]
  · rw [roomOf, K.host.parse_stringify _ (plain_tradeEvent order fillPrice now)]
    simp [tradeEvent, Json.field?, jsonText]

theorem brokerRoom_inj {a b : String} (h : brokerRoom a = brokerRoom b) : a = b :=
  String.append_right_inj "broker:" |>.mp h

/-- What the hub has published, with what is new. -/
theorem published_hub {he : HubEvent String String} {hub : Hub String String}
    (hhub : w.hub.step (roomOf K) he = some hub) (hne : ∀ x, he ≠ .publish x) :
    hub.published = w.hub.published := by
  rcases queue_step hhub with ⟨x, hx, -⟩ | ⟨hpublished, -⟩
  · exact absurd hx (hne x)
  · exact hpublished

/-- Members and clients after an event of the hub that joins no room. -/
theorem rooms_hub (hkept : Kept K es w) {he : HubEvent String String} {hub : Hub String String}
    (hhub : w.hub.step (roomOf K) he = some hub) (hjoin : ∀ s r, he ≠ .join s r)
    (hconnect : ∀ s, he ≠ .connect s) {s : ℕ} {m : Member String String} (hm : hub.members s = some m) :
    ∃ c, w.clients s = some c ∧
      ∀ r ∈ m.rooms, ∃ brokerId, r = brokerRoom brokerId ∧ Entitled (es ++ [e]) s c.payload brokerId := by
  have hold : ∃ old, w.hub.members s = some old ∧ m.rooms = old.rooms := by
    cases member_step hhub hm with
    | connected hnone => exact absurd rfl (hconnect s)
    | joined hold r => exact absurd rfl (hjoin s r)
    | told hold hqueue => exact ⟨_, hold, tell_rooms _⟩
    | kept hold hne => exact ⟨_, hold, rfl⟩
  obtain ⟨old, hold, hrooms⟩ := hold
  obtain ⟨c, hc, hall⟩ := hkept.rooms s old hold
  refine ⟨c, hc, fun r hr => ?_⟩
  obtain ⟨brokerId, hroom, hentitled⟩ := hall r (hrooms ▸ hr)
  exact ⟨brokerId, hroom, entitled_mono hentitled⟩

/-- Members after one of them has joined the room of a broker. -/
theorem rooms_join (hkept : Kept K es w) {s : ℕ} {c : Client} {brokerId : String}
    {hub : Hub String String} (hhub : w.hub.step (roomOf K) (.join s (brokerRoom brokerId)) = some hub)
    (hc : w.clients s = some c) (hentitled : Entitled (es ++ [e]) s c.payload brokerId) {t : ℕ}
    {m : Member String String} (hm : hub.members t = some m) : ∃ d, w.clients t = some d ∧
      ∀ r ∈ m.rooms, ∃ brokerId, r = brokerRoom brokerId ∧ Entitled (es ++ [e]) t d.payload brokerId := by
  cases member_step hhub hm with
  | @joined old hold r =>
    obtain ⟨d, hd, hall⟩ := hkept.rooms _ old hold
    obtain rfl := Option.some.inj (hc.symm.trans hd)
    refine ⟨c, hc, fun r hr => ?_⟩
    rcases List.mem_cons.mp hr with rfl | hr
    · exact ⟨brokerId, rfl, hentitled⟩
    · obtain ⟨b, hroom, hb⟩ := hall r hr
      exact ⟨b, hroom, entitled_mono hb⟩
  | kept hold hne =>
    obtain ⟨d, hd, hall⟩ := hkept.rooms t m hold
    refine ⟨d, hd, fun r hr => ?_⟩
    obtain ⟨b, hroom, hb⟩ := hall r hr
    exact ⟨b, hroom, entitled_mono hb⟩

/-- The client of a member is the same one when only a stage changes. -/
theorem client_stage {P : ℕ → JwtPayload → Prop} {s t : ℕ} {c d : Client} {stage : Stage}
    (hc : w.clients s = some c) (hd : w.clients t = some d) (h : P t d.payload) :
    ∃ d', Function.update w.clients s (some { c with stage := stage }) t = some d' ∧ P t d'.payload := by
  by_cases ht : t = s
  · subst ht
    obtain rfl := Option.some.inj (hc.symm.trans hd)
    exact ⟨_, Function.update_self .., h⟩
  · exact ⟨d, by rw [Function.update_of_ne ht, hd], h⟩

/-- Only users of the platform listen. -/
theorem listening_update (hkept : Kept K es w) {s : ℕ} {c : Client}
    (hc : c.stage = .listening → c.payload.role ≠ .brokerUser) {t : ℕ} {d : Client}
    (hd : Function.update w.clients s (some c) t = some d) :
    d.stage = .listening → d.payload.role ≠ .brokerUser := by
  by_cases ht : t = s
  · subst ht
    rw [Function.update_self] at hd
    exact Option.some.inj hd ▸ hc
  · rw [Function.update_of_ne ht] at hd
    exact hkept.listening t d hd

/-- Nothing changes but the hub, which joins no room and connects nobody. -/
theorem kept_hub (hkept : Kept K es w) {he : HubEvent String String} {hub : Hub String String}
    (hhub : w.hub.step (roomOf K) he = some hub) (hjoin : ∀ s r, he ≠ .join s r)
    (hconnect : ∀ s, he ≠ .connect s)
    (habout : ∀ text ∈ hub.published ++ w.pending, ∃ brokerId, About K (es ++ [e]) brokerId text) :
    Kept K (es ++ [e]) { w with hub := hub } :=
  ⟨told_step hkept.told hhub, habout, fun _ _ hm => rooms_hub hkept hhub hjoin hconnect hm,
    hkept.listening⟩

/-- One event more. -/
theorem kept_later (hkept : Kept K es w) : Kept K (es ++ [e]) w where
  told := hkept.told
  about text h := by
    obtain ⟨brokerId, habout⟩ := hkept.about text h
    exact ⟨brokerId, about_mono habout⟩
  rooms s m hm := by
    obtain ⟨c, hc, hall⟩ := hkept.rooms s m hm
    refine ⟨c, hc, fun r hr => ?_⟩
    obtain ⟨b, hroom, hb⟩ := hall r hr
    exact ⟨b, hroom, entitled_mono hb⟩
  listening := hkept.listening

/-- Every event keeps it. -/
theorem kept_step (hkept : Kept K es w) (hstep : w.step K e = some w') : Kept K (es ++ [e]) w' := by
  have hlater : Kept K (es ++ [e]) w := kept_later hkept
  have hlast : e ∈ es ++ [e] := List.mem_append_right _ (by simp)
  cases moved_step hstep with
  | rejected h => exact hlater
  | refused => exact hlater
  | ignored => exact hlater
  | @pushed body broker now dto h =>
    obtain ⟨-, b, rfl, -⟩ := markToMarket_ok h
    refine ⟨hlater.told, fun text htext => ?_, hlater.rooms, hlater.listening⟩
    rw [← List.append_assoc, List.mem_append, List.mem_singleton] at htext
    rcases htext with htext | rfl
    · exact hlater.about text htext
    · exact ⟨b.brokerId, Or.inl ⟨body, b, now, dto, hlast, rfl, h, rfl⟩⟩
  | abandoned =>
    refine ⟨hlater.told, fun text htext => hlater.about text ?_, hlater.rooms, hlater.listening⟩
    exact (List.mem_append.mp htext).elim (List.mem_append_left _)
      fun h => List.mem_append_right _ (List.mem_of_mem_eraseIdx h)
  | @published index text hub h hhub =>
    have hpublished : hub.published = w.hub.published ++ [text] := by
      obtain rfl := Option.some.inj hhub
      rfl
    refine ⟨told_step hkept.told hhub, fun other hother => hlater.about other ?_,
      fun _ _ hm => rooms_hub hkept hhub (by simp) (by simp) hm, hlater.listening⟩
    rw [hpublished, List.mem_append, List.mem_append, List.mem_singleton] at hother
    rcases hother with (hother | rfl) | hother
    · exact List.mem_append_left _ hother
    · exact List.mem_append_right _ (List.mem_of_getElem? h)
    · exact List.mem_append_right _ (List.mem_of_mem_eraseIdx hother)
  | @traded order fillPrice now hub hhub =>
    refine kept_hub hkept hhub (by simp) (by simp) fun text htext => ?_
    have hpublished : hub.published =
        w.hub.published ++ [K.host.stringify (tradeEvent order fillPrice now)] := by
      obtain rfl := Option.some.inj hhub
      rfl
    rw [hpublished, List.mem_append, List.mem_append, List.mem_singleton] at htext
    rcases htext with (htext | rfl) | htext
    · exact hlater.about text (List.mem_append_left _ htext)
    · exact ⟨order.brokerId, Or.inr ⟨order, fillPrice, now, hlast, rfl, rfl⟩⟩
    · exact hlater.about text (List.mem_append_right _ htext)
  | @connected s handshake now payload hub hnew hhub =>
    refine ⟨told_step hkept.told hhub, fun text htext => hlater.about text ?_, fun t m hm => ?_,
      fun t d hd => listening_update hkept (by simp) hd⟩
    · rwa [published_hub hhub (by simp)] at htext
    · cases member_step hhub hm with
      | connected hnone => exact ⟨_, Function.update_self .., by simp⟩
      | kept hold hne =>
        obtain ⟨d, hd, hall⟩ := hlater.rooms t m hold
        have ht : t ≠ s := by
          rintro rfl
          simp [hnew] at hd
        exact ⟨d, (Function.update_of_ne ht _ _).trans hd, hall⟩
  | @roomless s c stage hc hstage =>
    refine ⟨hlater.told, hlater.about, fun t m hm => ?_, fun t d hd => listening_update hkept hstage hd⟩
    obtain ⟨d, hd, hall⟩ := hlater.rooms t m hm
    exact client_stage (P := fun t payload => ∀ r ∈ m.rooms, ∃ brokerId, r = brokerRoom brokerId ∧
      Entitled _ t payload brokerId) hc hd hall
  | @joined s c stage brokerId hub hc hbroker hne hhub hstage =>
    refine ⟨told_step hkept.told hhub, fun text htext => hlater.about text ?_, fun t m hm => ?_,
      fun t d hd => listening_update hkept hstage hd⟩
    · rwa [published_hub hhub (by simp)] at htext
    · obtain ⟨d, hd, hall⟩ := rooms_join hkept hhub hc (Or.inl ⟨hbroker, hne⟩) hm
      exact client_stage (P := fun t payload => ∀ r ∈ m.rooms, ∃ brokerId, r = brokerRoom brokerId ∧
        Entitled _ t payload brokerId) hc hd hall
  | @subscribed s msg c brokerId hub hc hstage hmsg hhub =>
    refine ⟨told_step hkept.told hhub, fun text htext => hlater.about text ?_, fun t m hm => ?_,
      hlater.listening⟩
    · rwa [published_hub hhub (by simp)] at htext
    · exact rooms_join hkept hhub hc (Or.inr ⟨hkept.listening s c hc hstage, msg, hlast, hmsg⟩) hm
  | @disconnected s c hub hc hhub =>
    refine ⟨told_step hkept.told hhub, fun text htext => hlater.about text ?_, fun t m hm => ?_,
      fun t d hd => listening_update hkept (by simp) hd⟩
    · rwa [published_hub hhub (by simp)] at htext
    · obtain ⟨d, hd, hall⟩ := rooms_hub (e := .disconnect s) hkept hhub (by simp) (by simp) hm
      exact client_stage (P := fun t payload => ∀ r ∈ m.rooms, ∃ brokerId, r = brokerRoom brokerId ∧
        Entitled _ t payload brokerId) hc hd hall
  | dispatched hhub =>
    refine kept_hub hkept hhub (by simp) (by simp) fun text htext => hlater.about text ?_
    rwa [published_hub hhub (by simp)] at htext
  | lost hhub =>
    refine kept_hub hkept hhub (by simp) (by simp) fun text htext => hlater.about text ?_
    rwa [published_hub hhub (by simp)] at htext

theorem kept_empty : Kept K [] .empty where
  told := told_empty
  about text h := by simp [Feed.empty, Hub.empty] at h
  rooms s m hm := by simp [Feed.empty, Hub.empty] at hm
  listening s c hc := by simp [Feed.empty] at hc

theorem kept_run (hrun : run (Feed.step K) .empty es = some w) : Kept K es w :=
  run_invariant (I := fun w es => Kept K es w) kept_empty
    (fun _ _ _ _ _ hstep _ hkept => kept_step hkept hstep) hrun

/-- In every run, what a socket has been sent is a snapshot that a broker pushed
under its own key or a fill of that broker's order, and the broker is the one
of the socket's token or, for a user of the platform, one that the socket has
asked for. -/
theorem events_isolated (hrun : run (Feed.step K) .empty es = some w) {s : ℕ}
    {m : Member String String} (hm : w.hub.members s = some m) {text : String} (htext : text ∈ m.received) :
    ∃ c brokerId, w.clients s = some c ∧ Entitled es s c.payload brokerId ∧ About K es brokerId text := by
  have hkept := kept_run hrun
  obtain ⟨hpublished, r, hr, hroom⟩ := hkept.told.received s m hm text htext
  obtain ⟨c, hc, hall⟩ := hkept.rooms s m hm
  obtain ⟨brokerId, rfl, hentitled⟩ := hall r hr
  obtain ⟨b, habout⟩ := hkept.about text (List.mem_append_left _ hpublished)
  obtain rfl : b = brokerId := brokerRoom_inj (Option.some.inj ((roomOf_about habout).symm.trans hroom))
  exact ⟨c, b, hc, hentitled, habout⟩

end Isolation

/-- The event of the feed that an event of its hub comes from. -/
def Causes (e : FeedEvent) : HubEvent String String → Prop
  | .lose => e = .lose
  | .leave s => e = .disconnect s
  | .join s _ => e = .join s ∨ ∃ msg, e = .subscribe s msg
  | _ => True

/-- The event loses no message and is not about the rooms of a socket. -/
def Quiet (s : ℕ) (e : FeedEvent) : Prop :=
  e ≠ .lose ∧ e ≠ .disconnect s ∧ e ≠ .join s ∧ ∀ msg, e ≠ .subscribe s msg

section Delivery

variable {K : FeedConfig} {u w w' : Feed} {es : List FeedEvent} {s : ℕ}

/-- A step of the feed is a step of its hub, or leaves it. -/
theorem hub_step {e : FeedEvent} (hstep : w.step K e = some w') : w'.hub = w.hub ∨
    ∃ he, w.hub.step (roomOf K) he = some w'.hub ∧ Causes e he := by
  cases moved_step hstep with
  | published h hhub => exact Or.inr ⟨_, hhub, trivial⟩
  | traded hhub => exact Or.inr ⟨_, hhub, trivial⟩
  | connected hnew hhub => exact Or.inr ⟨_, hhub, trivial⟩
  | joined hc hbroker hne hhub => exact Or.inr ⟨_, hhub, Or.inl rfl⟩
  | subscribed hc hstage hmsg hhub => exact Or.inr ⟨_, hhub, Or.inr ⟨_, rfl⟩⟩
  | disconnected hc hhub => exact Or.inr ⟨_, hhub, rfl⟩
  | dispatched hhub => exact Or.inr ⟨_, hhub, trivial⟩
  | lost hhub => exact Or.inr ⟨_, hhub, rfl⟩
  | _ => exact Or.inl rfl

/-- A run of the feed is a run of its hub. -/
theorem hub_run (hrun : run (Feed.step K) u es = some w) : ∃ hes,
    run (Hub.step (roomOf K)) u.hub hes = some w.hub ∧ ∀ he ∈ hes, ∃ e ∈ es, Causes e he := by
  induction es generalizing u with
  | nil =>
    obtain rfl : u = w := Option.some.inj hrun
    exact ⟨[], rfl, by simp⟩
  | cons e es ih =>
    rw [run_cons] at hrun
    obtain ⟨next, hstep, hrest⟩ := Option.bind_eq_some_iff.mp hrun
    obtain ⟨hes, hhub, hcauses⟩ := ih hrest
    have hlater : ∀ he ∈ hes, ∃ e' ∈ e :: es, Causes e' he := fun he hhe => by
      obtain ⟨e', he', hcause⟩ := hcauses he hhe
      exact ⟨e', List.mem_cons_of_mem e he', hcause⟩
    rcases hub_step hstep with hsame | ⟨he, hnext, hcause⟩
    · exact ⟨hes, hsame ▸ hhub, hlater⟩
    · refine ⟨he :: hes, by rw [run_cons, hnext, Option.bind_some, hhub], fun x hx => ?_⟩
      rcases List.mem_cons.mp hx with rfl | hx
      · exact ⟨e, List.mem_cons_self, hcause⟩
      · exact hlater x hx

end Delivery

/-- A push that passes the checks, and when. -/
def accepted : FeedEvent → Option (MarkToMarketDto × Instant)
  | .push body broker now =>
    match markToMarket body broker with
    | .ok dto => some (dto, now)
    | .error _ => none
  | _ => none

/-- The push that a broker has made last. -/
def lastPush (brokerId : String) (es : List FeedEvent) : Option (MarkToMarketDto × Instant) :=
  ((es.filterMap accepted).filter fun push => push.1.brokerId = brokerId).getLast?

/-- What the cache answers at an instant. -/
def Feed.cached (w : Feed) (now : Instant) (key : String) : Option String :=
  (w.cache key).bind fun entry => if now ≤ entry.2 then some entry.1 else none

/-- The push that a broker has made last, unless it is too old. -/
def freshPush (brokerId : String) (es : List FeedEvent) (now : Instant) : Option (MarkToMarketDto × Instant) :=
  (lastPush brokerId es).filter fun push => now ≤ push.2 + SNAPSHOT_TTL

/-- What a page shows of a snapshot. -/
def shownSnapshot (clock : Instant) : Option Json → Positions
  | none => ⟨.arr [], .str "0", .str (toISOString clock)⟩
  | some snap => ⟨(present "positions" snap).getD (.arr []), (present "totalPnl" snap).getD (.str "0"),
    (present "ts" snap).getD (.str (toISOString clock))⟩

/-- What a page shows of a push. -/
def shownPositions (clock : Instant) : Option (MarkToMarketDto × Instant) → Positions
  | none => ⟨.arr [], .str "0", .str (toISOString clock)⟩
  | some (dto, t) => ⟨.arr dto.positions, .str dto.totalPnl, .str (dto.timestamp.getD (toISOString t))⟩

section Freshness

variable {K : FeedConfig} {w : Feed} {es : List FeedEvent}

theorem lastPush_snoc (brokerId : String) (e : FeedEvent) : lastPush brokerId (es ++ [e]) =
    match accepted e with
    | some push => if push.1.brokerId = brokerId then some push else lastPush brokerId es
    | none => lastPush brokerId es := by
  cases hpush : accepted e with
  | none => simp [lastPush, hpush]
  | some push =>
    by_cases hbroker : push.1.brokerId = brokerId <;> simp [lastPush, hpush, hbroker]

/-- The cache holds the last push of every broker. -/
theorem cache_run (hrun : run (Feed.step K) .empty es = some w) (brokerId : String) :
    w.cache ("positions:" ++ brokerId) = (lastPush brokerId es).map fun push =>
      (K.host.stringify (push.1.snapshot push.2), push.2 + SNAPSHOT_TTL) := by
  refine run_invariant (I := fun (w : Feed) es => w.cache ("positions:" ++ brokerId) =
    (lastPush brokerId es).map fun push =>
      (K.host.stringify (push.1.snapshot push.2), push.2 + SNAPSHOT_TTL)) rfl ?_ hrun
  rintro front u e u' - hstep - hcache
  rw [lastPush_snoc]
  cases moved_step hstep with
  | rejected h => simp [accepted, h, hcache]
  | @pushed body broker now dto h =>
    by_cases hbroker : dto.brokerId = brokerId
    · simp [accepted, h, hbroker]
    · have hkey : "positions:" ++ brokerId ≠ "positions:" ++ dto.brokerId := fun hsame =>
        hbroker (String.append_right_inj _ |>.mp hsame).symm
      simp [accepted, h, hbroker, hkey, hcache]
  | _ => exact hcache

/-- What the cache answers is the last push of the broker, unless that is too
old. -/
theorem cached_run (hrun : run (Feed.step K) .empty es = some w) (brokerId : String) (now : Instant) :
    w.cached now ("positions:" ++ brokerId) =
      (freshPush brokerId es now).map fun push => K.host.stringify (push.1.snapshot push.2) := by
  rw [Feed.cached, cache_run hrun, freshPush]
  cases lastPush brokerId es with
  | none => rfl
  | some push =>
    by_cases hfresh : now ≤ push.2 + SNAPSHOT_TTL <;> simp [Option.filter, hfresh]

/-- The last push of a broker has passed the schema. -/
theorem lastPush_schema {brokerId : String} {dto : MarkToMarketDto} {t : Instant}
    (h : lastPush brokerId es = some (dto, t)) : ∃ body, markToMarketSchema body = some dto := by
  obtain ⟨hmem, -⟩ := List.mem_filter.mp (List.mem_of_getLast? h)
  obtain ⟨e, -, he⟩ := List.mem_filterMap.mp hmem
  unfold accepted at he
  split at he
  · rename_i body broker now
    split at he
    · rename_i dto' hok
      obtain ⟨rfl, rfl⟩ := Prod.mk.inj (Option.some.inj he)
      exact ⟨body, (markToMarket_ok hok).1⟩
    · simp at he
  · simp at he

/-- A page with open positions reads the cache once. -/
theorem answer_positions {P : PortalConfig} {user : Option CurrentUser} {query : Query} {brokerId : String}
    (hscope : scope user (requestedBroker query) = .ok brokerId) (d : Portal) (i j : Input) :
    answer (positions P user query) d [.ok i, .ok j] =
      some (.ok (shownSnapshot i.now (snapshotOf P (d.cache ("positions:" ++ brokerId))))) := by
  have hrest : ∀ found, answer (match found with
      | none => return ⟨.arr [], .str "0", .str (toISOString i.now)⟩
      | some snap => return ⟨(present "positions" snap).getD (.arr []),
        (present "totalPnl" snap).getD (.str "0"),
        (present "ts" snap).getD (.str (toISOString i.now))⟩ : PortalProgram Positions) d [] =
      some (.ok (shownSnapshot i.now found)) := by
    intro found
    cases found <;> rfl
  rw [positions, hscope]
  exact hrest (snapshotOf P (d.cache ("positions:" ++ brokerId)))

/-- After every run a page with open positions shows what the broker has
pushed last, for thirty seconds, and nothing afterwards. -/
theorem positions_fresh (hrun : run (Feed.step K) .empty es = some w) {P : PortalConfig}
    (hparse : P.jsonParse = K.host.parse) {user : Option CurrentUser} {query : Query} {brokerId : String}
    (hscope : scope user (requestedBroker query) = .ok brokerId) (tables : Store) (now : Instant) (i j : Input) :
    answer (positions P user query) ⟨tables, w.cached now⟩ [.ok i, .ok j] =
      some (.ok (shownPositions i.now (freshPush brokerId es now))) := by
  rw [answer_positions hscope]
  dsimp only
  rw [cached_run hrun]
  cases hpush : freshPush brokerId es now with
  | none => rfl
  | some push =>
    obtain ⟨dto, t⟩ := push
    obtain ⟨hlast, -⟩ := Option.filter_eq_some_iff.mp hpush
    obtain ⟨body, hschema⟩ := lastPush_schema hlast
    have hsnap : snapshotOf P (some (K.host.stringify (dto.snapshot t))) = some (dto.snapshot t) := by
      have hne := K.host.stringify_ne (dto.snapshot t)
      have hback := K.host.parse_stringify _ (plain_snapshot hschema t)
      rw [snapshotOf, Option.filter_some, if_pos (decide_eq_true hne), Option.bind_some, hparse, hback]
      rfl
    rw [Option.map_some, hsnap]
    simp [shownSnapshot, shownPositions, MarkToMarketDto.snapshot, present, Json.field?]

end Freshness

/-- A host that takes every token for the e-mail address of a user of one
broker. -/
def oneBroker : FeedConfig :=
  ⟨plainHost, fun _ token => some ⟨"U1", token, .brokerUser, some "B1"⟩⟩

/-- A push without positions. -/
def emptyPush : Json :=
  .obj [("brokerId", .str "B1"), ("positions", .arr []), ("totalPnl", .str "1.5"), ("timestamp", .str "T")]

/-- A user connects. -/
def joinedOnce : List FeedEvent :=
  [.connect 1 ⟨some (.obj [("token", .str "token")]), none⟩ 0, .join 1]

/-- A push is checked, cached, published and dispatched. -/
def pushedOnce : List FeedEvent := [.push emptyPush (some ⟨"B1", "K1"⟩) 0, .publish 0, .dispatch]

theorem isolated_push : ∃ w m text, run (Feed.step oneBroker) .empty (joinedOnce ++ pushedOnce) = some w ∧
    w.hub.members 1 = some m ∧ text ∈ m.received ∧ ∃ c brokerId, w.clients 1 = some c ∧
    Entitled (joinedOnce ++ pushedOnce) 1 c.payload brokerId ∧
    About oneBroker (joinedOnce ++ pushedOnce) brokerId text := by
  obtain ⟨w, hrun, hcheck⟩ := run_reaches (Feed.step oneBroker) .empty (joinedOnce ++ pushedOnce)
    (fun w => (w.hub.members 1).any fun m => m.received ≠ []) (by decide +kernel)
  obtain ⟨m, hm, hreceived⟩ := (Option.any_eq_true ..).mp hcheck
  obtain ⟨text, htext⟩ := List.exists_mem_of_ne_nil _ (of_decide_eq_true hreceived)
  exact ⟨w, m, text, hrun, hm, htext, events_isolated hrun hm htext⟩

theorem fresh_push : ∃ w, run (Feed.step oneBroker) .empty pushedOnce = some w ∧
    answer (positions ⟨.epoch, plainHost.parse, ⟨0, "0"⟩⟩
      (some ⟨"U1", "u@example.com", .brokerUser, some "B1"⟩) fun _ => none) ⟨Store.empty, w.cached 30000⟩ [.ok quiet, .ok quiet] =
      some (.ok ⟨.arr [], .str "1.5", .str "T"⟩) := by
  obtain ⟨w, hrun, -⟩ := run_reaches (Feed.step oneBroker) .empty pushedOnce (fun _ => true)
    (by decide +kernel)
  refine ⟨w, hrun, (positions_fresh hrun rfl rfl Store.empty 30000 quiet quiet).trans ?_⟩
  rfl

end LpPlatform.LiveFeed
