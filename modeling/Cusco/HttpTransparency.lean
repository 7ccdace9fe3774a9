import Cusco.HttpDebug

/-!
What the HTTP debug middleware changes. A response keeps its status, its frames and its
headers apart from the one that the middleware sets. A request keeps its body exactly when
the body can be read to its end and fits the limit of a capture; any other body is replaced
by an empty one.
-/

namespace Cusco.HttpTransparency

open HttpDebug JsonValues

/-- A response apart from the header that the middleware sets. -/
def untagged (r : Response) : Response :=
  { r with headers := r.headers.filter (fun header => header.1 ≠ "x-request-id") }

/-- The middleware hands on the request that the client sent, and passes back the response
that the handler produced. -/
structure Transparent (json : SerdeJson) (level : HttpDebugLevel) (request : Request) : Prop where
  delivered : ∃ body, forwarded request = { request with body := body } ∧
    body.received = request.body.received
  answered : ∀ requestId durationMs next,
    untagged (routerWithHttpDebug json level requestId durationMs next request).1 =
      untagged (next (forwarded request))

/-- The body of the request can be read to its end within the limit of a capture. -/
def Capturable (request : Request) : Prop :=
  request.body.failed = false ∧ request.body.received.1.length ≤ httpDebugBodyLimit

theorem collectLimited_eq (remaining : ℕ) (frames : List Frame) :
    collectLimited remaining frames =
      if (frames.flatMap Frame.bytes).length ≤ remaining then some (frames.flatMap Frame.bytes)
      else none := by
  induction frames generalizing remaining with
  | nil => rfl
  | cons frame rest ih =>
    cases frame with
    | trailers headers => exact ih remaining
    | data bytes =>
      rw [collectLimited, ih, List.flatMap_cons, Frame.bytes, List.length_append]
      by_cases hfirst : remaining < bytes.length
      · rw [if_pos hfirst, if_neg (by omega)]
      · rw [if_neg hfirst]
        by_cases hrest : (rest.flatMap Frame.bytes).length ≤ remaining - bytes.length
        · rw [if_pos hrest, if_pos (by omega), Option.map_some]
        · rw [if_neg hrest, if_neg (by omega), Option.map_none]

theorem toBytes_eq (b : Body) (limit : ℕ) : toBytes b limit =
    if b.failed then none
    else if b.received.1.length ≤ limit then some b.received.1 else none := by
  unfold toBytes
  rw [collectLimited_eq]
  rfl

theorem collectedBody_eq (request : Request) (h : Capturable request) :
    collectedBody request = request.body.received.1 := by
  unfold collectedBody
  rw [toBytes_eq, h.1, if_pos h.2]
  rfl

theorem collectedBody_empty (request : Request) (h : ¬Capturable request) :
    collectedBody request = [] := by
  unfold collectedBody
  rw [toBytes_eq]
  cases hfailed : request.body.failed with
  | true => rfl
  | false =>
    rw [if_neg (fun hle => h ⟨hfailed, hle⟩)]
    rfl

theorem received_bodyFrom (bytes : List UInt8) : (bodyFrom bytes).received = (bytes, false) := by
  unfold bodyFrom Body.received
  rw [List.flatMap_cons, List.flatMap_nil, List.append_nil, Frame.bytes]

theorem delivered_iff (request : Request) :
    (bodyFrom (collectedBody request)).received = request.body.received ↔
      Capturable request := by
  rw [received_bodyFrom]
  constructor
  · intro h
    have hfailed : request.body.failed = false := (congrArg Prod.snd h).symm
    have hbytes : collectedBody request = request.body.received.1 := congrArg Prod.fst h
    by_contra hnot
    rw [collectedBody_empty request hnot] at hbytes
    refine hnot ⟨hfailed, ?_⟩
    rw [← hbytes]
    exact Nat.zero_le _
  · intro h
    rw [collectedBody_eq request h]
    exact Prod.ext rfl h.1.symm

/-- A closure that returns its frame leaves all frames as they are. -/
theorem mapFrame_frames {f : ℕ → Frame → Frame × ℕ × List Json}
    (h : ∀ index frame, (f index frame).1 = frame) (index : ℕ) (frames : List Frame) :
    (mapFrame f index frames).1 = frames := by
  induction frames generalizing index with
  | nil => rfl
  | cons frame rest ih =>
    change (f index frame).1 :: (mapFrame f (f index frame).2.1 rest).1 = frame :: rest
    rw [h, ih]

theorem observeFrame_frame (json : SerdeJson) (level : HttpDebugLevel) (requestId : String)
    (contentType : Option String) (index : ℕ) (frame : Frame) :
    (observeFrame json level requestId contentType index frame).1 = frame := by
  cases frame with
  | data bytes => rfl
  | trailers headers => rfl

theorem untagged_setHeader (value : List UInt8) (r : Response) :
    untagged { r with headers := setHeader "x-request-id" value r.headers } = untagged r := by
  unfold untagged setHeader
  simp

theorem untagged_middleware (json : SerdeJson) (level : HttpDebugLevel) (requestId : String)
    (durationMs : ℕ) (request : Request) (next : Request → Response) :
    untagged (httpDebugMiddleware json level requestId durationMs request next).1 =
      untagged (next (forwarded request)) := by
  unfold httpDebugMiddleware
  dsimp only
  rw [mapFrame_frames (observeFrame_frame json level requestId _)]
  exact untagged_setHeader _ _

/-- Debugging is transparent for exactly the requests whose body can be captured. -/
theorem transparent_iff (json : SerdeJson) (level : HttpDebugLevel) (hlevel : level ≠ .off)
    (request : Request) : Transparent json level request ↔ Capturable request := by
  rw [← delivered_iff]
  constructor
  · rintro ⟨⟨body, hforwarded, hreceived⟩, _⟩
    have hbody : bodyFrom (collectedBody request) = body := congrArg Request.body hforwarded
    rw [hbody]
    exact hreceived
  · intro h
    refine ⟨⟨_, rfl, h⟩, ?_⟩
    intro requestId durationMs next
    unfold routerWithHttpDebug
    rw [if_neg hlevel]
    exact untagged_middleware json level requestId durationMs request next

/-- A request that posts some bytes in one frame. -/
def posting (bytes : List UInt8) : Request where
  method := "POST"
  uri := "/openai/v1/completions"
  path := "/openai/v1/completions"
  headers := [("content-type", "application/json".toUTF8.toList)]
  body := bodyFrom bytes

/-- A parser for bodies that are no JSON. -/
def noJson : SerdeJson := ⟨fun _ => none, fun _ => none, fun _ => "null"⟩

theorem small_body_transparent :
    HttpDebugLevel.full ≠ .off ∧ Transparent noJson .full (posting [0x3C, 0x3E]) :=
  ⟨by decide, (transparent_iff noJson .full (by decide) _).mpr ⟨rfl, by decide⟩⟩

theorem oversized_body_emptied :
    ¬Transparent noJson .safe (posting (List.replicate (httpDebugBodyLimit + 1) 0x20)) := by
  rintro ⟨⟨body, hforwarded, hreceived⟩, _⟩
  have hbody : bodyFrom (collectedBody (posting (List.replicate (httpDebugBodyLimit + 1) 0x20))) =
      body := congrArg Request.body hforwarded
  have hlength : (posting (List.replicate (httpDebugBodyLimit + 1) 0x20)).body.received.1.length =
      httpDebugBodyLimit + 1 := by
    unfold posting
    rw [received_bodyFrom, List.length_replicate]
  have hnot : ¬Capturable (posting (List.replicate (httpDebugBodyLimit + 1) 0x20)) := by
    intro h
    have hle := h.2
    omega
  rw [← hbody, collectedBody_empty _ hnot, received_bodyFrom] at hreceived
  rw [← hreceived] at hlength
  cases hlength

end Cusco.HttpTransparency
