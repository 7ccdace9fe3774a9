import Cusco.JsonValues
import Cusco.Utf8
import Cusco.MachineIntegers
import Mathlib.Algebra.Group.Nat.Defs

/-!
The HTTP debug middleware. It collects the body of a request up to a limit, puts the
collected bytes back, and passes the frames of the response through; on the way it emits
records of what it saw, with every string value of a body redacted at the safe level.
-/

namespace Cusco.HttpDebug

open JsonValues Utf8

inductive HttpDebugLevel
  | off
  | safe
  | full
  deriving DecidableEq

def levelName : HttpDebugLevel → String
  | .off => "off"
  | .safe => "safe"
  | .full => "full"

def text (chars : List Encoded) : String :=
  String.ofList (chars.map (fun c => Char.ofNat (codePoint c)))

/-- `data:`. -/
def dataPrefix : List Encoded := [[0x64], [0x61], [0x74], [0x61], [0x3A]]

/-- The data of the lines of an event stream. -/
def dataLines (bytes : List UInt8) : List (List UInt8) :=
  ((lines (lossy bytes)).filterMap (fun line => dataPrefix.isPrefixOf? line)).map
    (fun data => (trim data).flatten)

def credentialKeys : List String :=
  ["authorization", "cookie", "set_cookie", "password", "secret", "api_key", "bearer_token",
    "access_token", "refresh_token"]

/-- `key.to_ascii_lowercase().replace('-', "_")`. -/
def normalizeKey (key : String) : String :=
  String.ofList (key.toList.map (fun c => if c = '-' then '_' else c.toLower))

def redactedValue : Json := .string "[REDACTED]"

mutual

def redactBodyValues : Json → Json
  | .object fields => .object (redactFields fields)
  | .array items => .array (redactItems items)
  | .string s => if s = "[DONE]" then .string s else redactedValue
  | .null => .null
  | .bool b => .bool b
  | .number n => .number n

def redactItems : List Json → List Json
  | [] => []
  | value :: rest => redactBodyValues value :: redactItems rest

def redactFields : List (String × Json) → List (String × Json)
  | [] => []
  | (key, value) :: rest =>
    (key, if normalizeKey key ∈ credentialKeys then redactedValue else redactBodyValues value) ::
      redactFields rest

end

def httpDebugBodyLimit : ℕ := 64 * 1024

structure HttpBodyCapture where
  bytes : List UInt8
  total : ℕ
  limit : Option ℕ
  truncated : Bool

def HttpBodyCapture.default : HttpBodyCapture := ⟨[], 0, some httpDebugBodyLimit, false⟩

def HttpBodyCapture.full : HttpBodyCapture := { HttpBodyCapture.default with limit := none }

def HttpBodyCapture.push (c : HttpBodyCapture) (bytes : List UInt8) : HttpBodyCapture :=
  let counted := { c with total := saturatingAdd c.total bytes.length }
  if c.truncated then counted
  else if c.limit.any (fun limit => limit < saturatingAdd c.bytes.length bytes.length) then
    { counted with bytes := [], truncated := true }
  else { counted with bytes := c.bytes ++ bytes }

/-- The content type is that of an event stream. -/
def isSse (contentType : Option String) : Bool :=
  contentType.any (fun value => "text/event-stream".toList.isPrefixOf value.toList)

def redactedEvent (json : SerdeJson) (data : List UInt8) : Json :=
  match json.fromStr data with
  | none => .object [("omitted", .string "non-JSON SSE data")]
  | some value => redactBodyValues value

/-- What the record says of a whole body. -/
def redactedBody (json : SerdeJson) (contentType : Option String) (total : ℕ)
    (bytes : List UInt8) : Json :=
  if isSse contentType then
    .object [("bytes", natural total),
      ("events", .array ((dataLines bytes).map (redactedEvent json)))]
  else
    match json.fromSlice bytes with
    | none => .object [("bytes", natural total), ("omitted", .string "non-JSON body")]
    | some value => .object [("bytes", natural total), ("json", redactBodyValues value)]

def HttpBodyCapture.redacted (json : SerdeJson) (contentType : Option String)
    (c : HttpBodyCapture) : Json :=
  if c.truncated then
    .object [("bytes", natural c.total),
      ("omitted", .string "body exceeds 65536-byte HTTP debug limit")]
  else if c.bytes.isEmpty then .object [("bytes", natural 0)]
  else redactedBody json contentType c.total c.bytes

/-- The bytes as a string if they are UTF-8, else in hexadecimal. -/
def utf8OrHex (bytes : List UInt8) : String × Json :=
  if validate bytes = .ok then ("utf8", .string (text (lossy bytes)))
  else ("hex", .string (hexEncode bytes))

def HttpBodyCapture.unredacted (c : HttpBodyCapture) : Json :=
  .object [("bytes", natural c.total), utf8OrHex c.bytes]

def HttpBodyCapture.rendered (json : SerdeJson) (level : HttpDebugLevel)
    (contentType : Option String) (c : HttpBodyCapture) : Json :=
  match level with
  | .off => .object [("bytes", natural 0)]
  | .safe => c.redacted json contentType
  | .full => c.unredacted

/-- Header values by lower-case name. -/
abbrev Headers := List (String × List UInt8)

def getHeader (headers : Headers) (name : String) : Option (List UInt8) :=
  (headers.find? (fun header => header.1 = name)).map (fun header => header.2)

/-- `HeaderValue::to_str`, which takes visible ASCII and tabs only. -/
def toStr (value : List UInt8) : Option String :=
  if value.all (fun b => (32 ≤ b && b < 127) || b = 9) then
    some (String.ofList (value.map (fun b => Char.ofNat b.toNat)))
  else none

def headerText (headers : Headers) (name : String) : Option String :=
  (getHeader headers name).bind toStr

/-- `HeaderMap::insert`, up to the order of the names. -/
def setHeader (name : String) (value : List UInt8) (headers : Headers) : Headers :=
  headers.filter (fun header => header.1 ≠ name) ++ [(name, value)]

def unredactedHeaders (headers : Headers) : Json :=
  .array (headers.map (fun header =>
    .object [("name", .string header.1), ("value", .object [utf8OrHex header.2])]))

inductive Frame
  | data (bytes : List UInt8)
  | trailers (headers : Headers)

/-- The frames of a body, and whether reading on after them fails. -/
structure Body where
  frames : List Frame
  failed : Bool

structure Request where
  method : String
  uri : String
  path : String
  headers : Headers
  body : Body

structure Response where
  status : ℕ
  headers : Headers
  body : Body

def Frame.bytes : Frame → List UInt8
  | .data bytes => bytes
  | .trailers _ => []

/-- The bytes of a body, and whether reading them ended in an error. -/
def Body.received (b : Body) : List UInt8 × Bool := (b.frames.flatMap Frame.bytes, b.failed)

/-- Collect the data of some frames, unless it takes more than the rest of a limit. -/
def collectLimited : ℕ → List Frame → Option (List UInt8)
  | _, [] => some []
  | remaining, .trailers _ :: rest => collectLimited remaining rest
  | remaining, .data bytes :: rest =>
    if remaining < bytes.length then none
    else (collectLimited (remaining - bytes.length) rest).map (fun more => bytes ++ more)

/-- `axum::body::to_bytes`. -/
def toBytes (body : Body) (limit : ℕ) : Option (List UInt8) :=
  if body.failed then none else collectLimited limit body.frames

/-- `Body::from`. -/
def bodyFrom (bytes : List UInt8) : Body := ⟨[.data bytes], false⟩

/-- `BodyExt::map_frame`, with a closure that counts and emits records. -/
def mapFrame (f : ℕ → Frame → Frame × ℕ × List Json) : ℕ → List Frame → List Frame × List Json
  | _, [] => ([], [])
  | index, frame :: rest =>
    let (frame', index', emitted) := f index frame
    let (frames, records) := mapFrame f index' rest
    (frame' :: frames, emitted ++ records)

/-- What the middleware collects of the body of a request. -/
def collectedBody (request : Request) : List UInt8 :=
  (toBytes request.body httpDebugBodyLimit).getD []

/-- The request that the middleware hands on. -/
def forwarded (request : Request) : Request :=
  { request with body := bodyFrom (collectedBody request) }

def requestRecord (json : SerdeJson) (level : HttpDebugLevel) (requestId : String)
    (request : Request) : Json :=
  let body := collectedBody request
  let contentType := headerText request.headers "content-type"
  let isText := contentType.any (fun value => "text/plain".toList.isPrefixOf value.toList)
  .object [("type", .string "http_debug"), ("level", .string (levelName level)),
    ("direction", .string "in"), ("request_id", .string requestId),
    ("method", .string request.method), ("path", .string request.path),
    ("content_type", optional contentType),
    ("content_length", optional (headerText request.headers "content-length")),
    ("headers", if level = .full then unredactedHeaders request.headers else .null),
    ("uri", if level = .full then .string request.uri else .null),
    ("body", (HttpBodyCapture.default.push body).rendered json level contentType),
    ("raw_body", if level = .full ∧ isText then .string (text (lossy body)) else .null)]

def responseRecord (level : HttpDebugLevel) (requestId : String) (durationMs : ℕ)
    (response : Response) : Json :=
  .object [("type", .string "http_debug"), ("level", .string (levelName level)),
    ("direction", .string "out"), ("request_id", .string requestId),
    ("status", natural response.status), ("duration_ms", natural durationMs),
    ("headers", if level = .full then unredactedHeaders response.headers else .array [])]

def frameCapture : HttpDebugLevel → HttpBodyCapture
  | .full => HttpBodyCapture.full
  | .safe | .off => HttpBodyCapture.default

/-- The closure over the frames of a response. -/
def observeFrame (json : SerdeJson) (level : HttpDebugLevel) (requestId : String)
    (contentType : Option String) (index : ℕ) (frame : Frame) : Frame × ℕ × List Json :=
  match frame with
  | .trailers _ => (frame, index, [])
  | .data bytes =>
    (frame, index + 1, [.object [("type", .string "http_debug"),
      ("level", .string (levelName level)), ("direction", .string "out_body"),
      ("request_id", .string requestId), ("chunk_index", natural index),
      ("body", ((frameCapture level).push bytes).rendered json level contentType)]])

/-- The response for the client, and the records emitted until it has read the body. -/
def httpDebugMiddleware (json : SerdeJson) (level : HttpDebugLevel) (requestId : String)
    (durationMs : ℕ) (request : Request) (next : Request → Response) : Response × List Json :=
  let response := next (forwarded request)
  let tagged := { response with
    headers := setHeader "x-request-id" requestId.toUTF8.toList response.headers }
  let (frames, emitted) := mapFrame
    (observeFrame json level requestId (headerText tagged.headers "content-type")) 0
    tagged.body.frames
  ({ tagged with body := { tagged.body with frames := frames } },
    requestRecord json level requestId request ::
      responseRecord level requestId durationMs tagged :: emitted)

/-- `router_with_http_debug`, which leaves the middleware out at the level off. -/
def routerWithHttpDebug (json : SerdeJson) (level : HttpDebugLevel) (requestId : String)
    (durationMs : ℕ) (routes : Request → Response) (request : Request) : Response × List Json :=
  if level = .off then (routes request, [])
  else httpDebugMiddleware json level requestId durationMs request routes

end Cusco.HttpDebug
