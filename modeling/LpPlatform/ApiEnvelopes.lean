import LpPlatform.JsonHosts

/-!
# Replies and what the client makes of them

What a handler returns is wrapped with the request's id, what it throws becomes
a code, a message and perhaps details, and either is sent as JSON. The client
reads the text again and hands over the data or throws an error of its own. It
throws the code, the message, the status and the request id that the server
gave, whatever the handler threw, unless the message is not a text.
-/

namespace LpPlatform.ApiEnvelopes

open JsonHosts JsonTexts JsonTrees

/-- `ErrorCode`. -/
inductive ErrorCode where
  | hmacInvalidSignature
  | hmacTimestampSkew
  | hmacReplayed
  | hmacUnknownKey
  | hmacKeyRevoked
  | authInvalidCredentials
  | authTokenExpired
  | authTokenInvalid
  | authForbidden
  | validationFailed
  | orderInvalidSymbol
  | orderInvalidQuantity
  | orderInvalidPrice
  | orderDuplicateClientId
  | orderNotFound
  | riskInsufficientMargin
  | riskPositionLimitExceeded
  | riskDailyLossLimit
  | tradeNotFound
  | tradeHashChainBroken
  | internalError
  | rateLimited
  | notFound
  | conflict
  deriving DecidableEq

def ErrorCode.text : ErrorCode → String
  | hmacInvalidSignature => "HMAC_INVALID_SIGNATURE"
  | hmacTimestampSkew => "HMAC_TIMESTAMP_SKEW"
  | hmacReplayed => "HMAC_REPLAYED"
  | hmacUnknownKey => "HMAC_UNKNOWN_KEY"
  | hmacKeyRevoked => "HMAC_KEY_REVOKED"
  | authInvalidCredentials => "AUTH_INVALID_CREDENTIALS"
  | authTokenExpired => "AUTH_TOKEN_EXPIRED"
  | authTokenInvalid => "AUTH_TOKEN_INVALID"
  | authForbidden => "AUTH_FORBIDDEN"
  | validationFailed => "VALIDATION_FAILED"
  | orderInvalidSymbol => "ORDER_INVALID_SYMBOL"
  | orderInvalidQuantity => "ORDER_INVALID_QUANTITY"
  | orderInvalidPrice => "ORDER_INVALID_PRICE"
  | orderDuplicateClientId => "ORDER_DUPLICATE_CLIENT_ID"
  | orderNotFound => "ORDER_NOT_FOUND"
  | riskInsufficientMargin => "RISK_INSUFFICIENT_MARGIN"
  | riskPositionLimitExceeded => "RISK_POSITION_LIMIT_EXCEEDED"
  | riskDailyLossLimit => "RISK_DAILY_LOSS_LIMIT"
  | tradeNotFound => "TRADE_NOT_FOUND"
  | tradeHashChainBroken => "TRADE_HASH_CHAIN_BROKEN"
  | internalError => "INTERNAL_ERROR"
  | rateLimited => "RATE_LIMITED"
  | notFound => "NOT_FOUND"
  | conflict => "CONFLICT"

variable {ν T : Type}

/-- A value whose objects have distinct keys. -/
abbrev Plainly (ν : Type) : Type := {v : JsonTree ν // v.Keyed}

/-- The fields of an object with distinct keys. -/
abbrev Details (ν : Type) : Type := {fields : List (Text × JsonTree ν) // (JsonTree.obj fields).Keyed}

/-- What `getResponse` of a framework exception is. -/
inductive HttpResponse (ν : Type) where
  | text (s : Text)
  /-- An object, with its `message` if there is one. -/
  | object (message : Option (Plainly ν))

/-- What a handler throws. -/
inductive Exception (ν : Type) where
  /-- `DomainException`. -/
  | domain (code : ErrorCode) (message : Text) (status : ℕ) (details : Option (Details ν))
  /-- `ZodError`, with its issues. -/
  | zod (issues : {items : List (JsonTree ν) // KeyedItems items})
  /-- `HttpException`, with a message of its own. -/
  | http (status : ℕ) (response : HttpResponse ν) (message : Text)
  | other

/-- `ValidationException`. -/
def validationException (details : Details ν) : Exception ν :=
  .domain .validationFailed (ascii "Validation failed") 400 (some details)

/-- The details with the issues of a schema. -/
def issueDetails (issues : {items : List (JsonTree ν) // KeyedItems items}) : Details ν :=
  ⟨[(ascii "issues", .arr issues.1)], by simp [JsonTree.Keyed, KeyedFields, issues.2]⟩

/-- `NotFoundException`. -/
def notFoundException (resource id : Text) : Exception ν :=
  .domain .notFound (resource ++ ascii " not found: " ++ id) 404
    (some ⟨[(ascii "resource", .str resource), (ascii "id", .str id)],
      ⟨(by decide : [ascii "resource", ascii "id"].Nodup), trivial, trivial, trivial⟩⟩)

/-- `HmacRejectedException`. -/
def hmacRejectedException (code : ErrorCode) (message : Text) : Exception ν := .domain code message 401 none

/-- `AuthForbiddenException`. -/
def authForbiddenException (reason : Text) : Exception ν := .domain .authForbidden reason 403 none

/-- `ZodValidationPipe.transform`. A parameter of a decorator of the program's
own is passed on. -/
def zodValidationPipe (schema : JsonTree ν → Except (Exception ν) T) (custom : JsonTree ν → T) (isCustom : Bool)
    (value : JsonTree ν) : Except (Exception ν) T :=
  if isCustom then .ok (custom value)
  else match schema value with
    | .ok parsed => .ok parsed
    | .error (.zod issues) => .error (validationException (issueDetails issues))
    | .error e => .error e

/-- `AllExceptionsFilter.statusToCode`. -/
def statusToCode (status : ℕ) : ErrorCode :=
  if status = 404 then .notFound
  else if status = 409 then .conflict
  else if status = 429 then .rateLimited
  else if status = 401 then .authTokenInvalid
  else if status = 403 then .authForbidden
  else .internalError

/-- The error of a reply. -/
structure ErrorBody (ν : Type) where
  code : ErrorCode
  message : Plainly ν
  details : Option (Details ν)

/-- A text as a value. -/
def ofText (s : Text) : Plainly ν := ⟨.str s, trivial⟩

/-- The message of a framework exception. An object without one, or with
null, leaves the exception's own. -/
def httpMessage (own : Text) : HttpResponse ν → Plainly ν
  | .text s => ofText s
  | .object none | .object (some ⟨.null, _⟩) => ofText own
  | .object (some v) => v

/-- `AllExceptionsFilter.toResponse`. -/
def toResponse : Exception ν → ℕ × ErrorBody ν
  | .domain code message status details => (status, ⟨code, ofText message, details⟩)
  | .zod issues => (400, ⟨.validationFailed, ofText (ascii "Validation failed"), some (issueDetails issues)⟩)
  | .http status response message => (status, ⟨statusToCode status, httpMessage message response, none⟩)
  | .other => (500, ⟨.internalError, ofText (ascii "Internal server error"), none⟩)

/-- A reply as it is sent. -/
structure Reply where
  status : ℕ
  body : Text

/-- The id of a request, its header's before the server's own. -/
def requestIdOf (header : Option Text) (id : Text) : Text := header.getD id

/-- A field that is there if its value is. -/
def optional (key : Text) : Option (JsonTree ν) → List (Text × JsonTree ν)
  | some v => [(key, v)]
  | none => []

/-- The error of a reply as JSON. -/
def errorTree (body : ErrorBody ν) : JsonTree ν :=
  .obj ([(ascii "code", .str (ascii body.code.text)), (ascii "message", body.message.1)] ++
    optional (ascii "details") (body.details.map fun details => .obj details.1))

/-- The reply to a request that failed, as JSON. -/
def failureTree (requestId timestamp : Text) (body : ErrorBody ν) : JsonTree ν :=
  .obj [(ascii "success", .bool false), (ascii "error", errorTree body),
    (ascii "requestId", .str requestId), (ascii "timestamp", .str timestamp)]

/-- The reply to a request that did not, as JSON. -/
def successTree (requestId : Text) (data : Option (JsonTree ν)) : JsonTree ν :=
  .obj ((ascii "success", .bool true) :: (optional (ascii "data") data ++ [(ascii "requestId", .str requestId)]))

/-- `AllExceptionsFilter.catch`. -/
def catch_ (N : Numerals ν) (header : Option Text) (id timestamp : Text) (e : Exception ν) : Reply where
  status := (toResponse e).1
  body := text N (failureTree (requestIdOf header id) timestamp (toResponse e).2)

/-- `TransformInterceptor.intercept`, and the status of what is created. -/
def intercept (N : Numerals ν) (post : Bool) (header : Option Text) (id : Text) (data : Option (Plainly ν)) :
    Reply where
  status := if post then 201 else 200
  body := text N (successTree (requestIdOf header id) (data.map Subtype.val))

/-- `SdkError`. -/
structure SdkError where
  code : Text
  message : Text
  status : ℕ
  requestId : Option Text
  deriving DecidableEq

/-- How a call of the client ends once there is a reply. -/
inductive Outcome (T : Type) where
  | data (t : T)
  | sdkError (e : SdkError)
  /-- The reply is not of the form that the call expects. -/
  | zodError
  | syntaxError

/-- A field of an object. -/
def field? (key : Text) : JsonTree ν → Option (JsonTree ν)
  | .obj fields => (fields.find? fun field => field.1 = key).map (·.2)
  | _ => none

/-- A text. -/
def string? : JsonTree ν → Option Text
  | .str s => some s
  | _ => none

/-- A field that must be a text. -/
def stringField (key : Text) (json : JsonTree ν) : Option Text := (field? key json).bind string?

/-- A record or nothing. -/
def recordField (key : Text) (json : JsonTree ν) : Option Unit :=
  match field? key json with
  | none | some (.obj _) => some ()
  | some _ => none

/-- A literal of a field. -/
def literalField (key : Text) (b : Bool) (json : JsonTree ν) : Option Unit :=
  match field? key json with
  | some (.bool b') => if b = b' then some () else none
  | _ => none

/-- `apiErrorSchema`: the code, the message and the request id. -/
def apiErrorSchema (json : JsonTree ν) : Option (Text × Text × Text) := do
  literalField (ascii "success") false json
  let error ← field? (ascii "error") json
  let code ← stringField (ascii "code") error
  let message ← stringField (ascii "message") error
  recordField (ascii "details") error
  let requestId ← stringField (ascii "requestId") json
  let _ ← stringField (ascii "timestamp") json
  return (code, message, requestId)

/-- `apiSuccessSchema`. The schema of the data is asked also where there is
none. -/
def apiSuccessSchema (inner : Option (JsonTree ν) → Option T) (json : JsonTree ν) : Option T := do
  literalField (ascii "success") true json
  let data ← inner (field? (ascii "data") json)
  let _ ← stringField (ascii "requestId") json
  return data

/-- `Response.ok`. -/
def isOk (status : ℕ) : Bool := 200 ≤ status && status ≤ 299

/-- `LpClient.request` and `AdminClient.request`, from the reply on. -/
def request (N : Numerals ν) (inner : Option (JsonTree ν) → Option T) (reply : Reply) : Outcome T :=
  match (if reply.body = [] then some .null else parse N reply.body) with
  | none => .syntaxError
  | some json =>
    if !isOk reply.status then
      match apiErrorSchema json with
      | some (code, message, requestId) => .sdkError ⟨code, message, reply.status, some requestId⟩
      | none => .sdkError ⟨ascii "HTTP_ERROR", ascii ("HTTP " ++ toString reply.status), reply.status, none⟩
    else
      match apiSuccessSchema inner json with
      | some data => .data data
      | none => .zodError

/-- The error of a reply with a status, as long as that is none of success. -/
def thrown (status : ℕ) (e : SdkError) : Outcome T := if isOk status then .zodError else .sdkError e

/-- How a call of the client ends when the handler throws. -/
def told (requestId : Text) : Exception ν → Outcome T
  | .domain code message status _ => thrown status ⟨ascii code.text, message, status, some requestId⟩
  | .zod _ => .sdkError ⟨ascii "VALIDATION_FAILED", ascii "Validation failed", 400, some requestId⟩
  | .http status (.text message) _ | .http status (.object (some ⟨.str message, _⟩)) _ =>
    thrown status ⟨ascii (statusToCode status).text, message, status, some requestId⟩
  | .http status (.object none) own | .http status (.object (some ⟨.null, _⟩)) own =>
    thrown status ⟨ascii (statusToCode status).text, own, status, some requestId⟩
  -- A message that is no text: the client does not know the reply for an error of the server.
  | .http status (.object _) _ =>
    thrown status ⟨ascii "HTTP_ERROR", ascii ("HTTP " ++ toString status), status, none⟩
  | .other => .sdkError ⟨ascii "INTERNAL_ERROR", ascii "Internal server error", 500, some requestId⟩

section Replies

variable {N : Numerals ν} {requestId timestamp : Text} {body : ErrorBody ν} {data : Option (Plainly ν)}

theorem keyed_optional {key : Text} {v : Option (JsonTree ν)} (h : ∀ w ∈ v, w.Keyed) :
    KeyedFields (optional key v) := by
  cases v with
  | none => trivial
  | some v => exact ⟨h v rfl, trivial⟩

theorem keyed_errorTree (body : ErrorBody ν) : (errorTree body).Keyed := by
  obtain ⟨code, message, details⟩ := body
  cases details with
  | none => exact ⟨(by decide : [ascii "code", ascii "message"].Nodup), trivial, message.2, trivial⟩
  | some details =>
    exact ⟨(by decide : [ascii "code", ascii "message", ascii "details"].Nodup), trivial, message.2, details.2,
      trivial⟩

theorem keyed_failureTree (requestId timestamp : Text) (body : ErrorBody ν) :
    (failureTree requestId timestamp body).Keyed :=
  ⟨(by decide : [ascii "success", ascii "error", ascii "requestId", ascii "timestamp"].Nodup), trivial,
    keyed_errorTree body, trivial, trivial, trivial⟩

theorem keyed_successTree (requestId : Text) (data : Option (Plainly ν)) :
    (successTree requestId (data.map Subtype.val)).Keyed := by
  cases data with
  | none => exact ⟨(by decide : [ascii "success", ascii "requestId"].Nodup), trivial, trivial, trivial⟩
  | some v =>
    exact ⟨(by decide : [ascii "success", ascii "data", ascii "requestId"].Nodup), trivial, v.2, trivial, trivial⟩

/-- The text of a value is not empty. -/
theorem text_ne_nil (N : Numerals ν) (v : JsonTree ν) : text N v ≠ [] := by
  obtain ⟨u, rest, htext, -⟩ := text_opens N v
  rw [htext]
  exact List.cons_ne_nil u rest

/-- What the client finds in a reply that carries a value. -/
theorem request_text {inner : Option (JsonTree ν) → Option T} {status : ℕ} {v : JsonTree ν} (hv : v.Keyed) :
    request N inner ⟨status, text N v⟩ =
      if !isOk status then
        match apiErrorSchema (v.map N.plain) with
        | some (code, message, requestId) => .sdkError ⟨code, message, status, some requestId⟩
        | none => .sdkError ⟨ascii "HTTP_ERROR", ascii ("HTTP " ++ toString status), status, none⟩
      else match apiSuccessSchema inner (v.map N.plain) with
        | some data => .data data
        | none => .zodError := by
  rw [request, if_neg (text_ne_nil N v), parse_text N hv]

/-- What the client reads of a failure. -/
theorem apiErrorSchema_failure (N : Numerals ν) (requestId timestamp : Text) (body : ErrorBody ν) :
    apiErrorSchema ((failureTree requestId timestamp body).map N.plain) =
      (string? body.message.1).map fun message => (ascii body.code.text, message, requestId) := by
  obtain ⟨code, ⟨message, hmessage⟩, details⟩ := body
  cases details with
  | none => cases message <;> rfl
  | some details => cases message <;> rfl

/-- A failure is no success. -/
theorem apiSuccessSchema_failure (N : Numerals ν) (inner : Option (JsonTree ν) → Option T)
    (requestId timestamp : Text) (body : ErrorBody ν) :
    apiSuccessSchema inner ((failureTree requestId timestamp body).map N.plain) = none := rfl

/-- What the client reads of a success. -/
theorem apiSuccessSchema_success (N : Numerals ν) (inner : Option (JsonTree ν) → Option T) (requestId : Text)
    (data : Option (JsonTree ν)) : apiSuccessSchema inner ((successTree requestId data).map N.plain) =
      inner (data.map fun v => v.map N.plain) := by
  cases data with
  | none =>
    show (inner none).bind some = inner none
    cases inner none <;> rfl
  | some v =>
    show (inner (some (v.map N.plain))).bind some = inner (some (v.map N.plain))
    cases inner (some (v.map N.plain)) <;> rfl

end Replies

/-- Whatever a handler throws, the client throws the code, the message, the
status and the request id that the server gave, and nothing of the rest. -/
theorem errors_reach_client (N : Numerals ν) (inner : Option (JsonTree ν) → Option T) (header : Option Text)
    (id timestamp : Text) (e : Exception ν) :
    request N inner (catch_ N header id timestamp e) = told (requestIdOf header id) e := by
  rw [catch_, request_text (keyed_failureTree _ _ _), apiErrorSchema_failure, apiSuccessSchema_failure]
  cases e with
  | domain code message status details => cases h : isOk status <;> simp [toResponse, told, thrown, h, ofText, string?]
  | zod issues => rfl
  | http status response own =>
    cases response with
    | text message => cases h : isOk status <;> simp [toResponse, told, thrown, h, httpMessage, ofText, string?]
    | object message =>
      cases message with
      | none => cases h : isOk status <;> simp [toResponse, told, thrown, h, httpMessage, ofText, string?]
      | some v =>
        obtain ⟨v, hv⟩ := v
        cases h : isOk status <;> cases v <;> simp [toResponse, told, thrown, h, httpMessage, ofText, string?]
  | other => rfl

/-- Whatever a handler returns, the client hands over what the call's schema
makes of it. -/
theorem data_reaches_client (N : Numerals ν) (inner : Option (JsonTree ν) → Option T) (post : Bool)
    (header : Option Text) (id : Text) (data : Option (Plainly ν)) :
    request N inner (intercept N post header id data) =
      match inner (data.map fun v => v.1.map N.plain) with
      | some t => .data t
      | none => .zodError := by
  have hok : isOk (if post then 201 else 200) = true := by cases post <;> rfl
  rw [intercept, request_text (keyed_successTree _ _), apiSuccessSchema_success, hok]
  cases data <;> rfl

/-- What fails a schema is told the same, whether the pipe of a handler refuses
it or the handler itself. -/
theorem pipe_reply (N : Numerals ν) (header : Option Text) (id timestamp : Text)
    {schema : JsonTree ν → Except (Exception ν) T} {custom : JsonTree ν → T} {value : JsonTree ν} {e : Exception ν}
    (h : schema value = .error e) :
    ∃ e', zodValidationPipe schema custom false value = .error e' ∧
      catch_ N header id timestamp e' = catch_ N header id timestamp e := by
  cases e with
  | zod issues => exact ⟨validationException (issueDetails issues), by simp [zodValidationPipe, h], rfl⟩
  | domain code message status details => exact ⟨_, by simp [zodValidationPipe, h], rfl⟩
  | http status response own => exact ⟨_, by simp [zodValidationPipe, h], rfl⟩
  | other => exact ⟨_, by simp [zodValidationPipe, h], rfl⟩

end LpPlatform.ApiEnvelopes
