import Cusco.HttpDebug
import Mathlib.Data.List.Forall2
import Mathlib.Data.List.Induction
import Mathlib.Data.Option.Basic

/-!
What the safe level of the HTTP debug log reveals of a body: its length, whether it and
the data lines of an event stream are JSON, and of a JSON value everything but its string
values. Bodies that agree in this give the same record, and the only strings in a record
are fixed texts.
-/

namespace Cusco.SafeRecords

open HttpDebug JsonValues

mutual

/-- JSON values of the same structure, with the same keys and scalars, up to strings other
than `[DONE]`. -/
inductive Alike : Json → Json → Prop
  | null : Alike .null .null
  | bool (b : Bool) : Alike (.bool b) (.bool b)
  | number (n : Number) : Alike (.number n) (.number n)
  | done : Alike (.string "[DONE]") (.string "[DONE]")
  | string {s t : String} (hs : s ≠ "[DONE]") (ht : t ≠ "[DONE]") : Alike (.string s) (.string t)
  | array {xs ys : List Json} (h : AlikeItems xs ys) : Alike (.array xs) (.array ys)
  | object {xs ys : List (String × Json)} (h : AlikeFields xs ys) :
    Alike (.object xs) (.object ys)

inductive AlikeItems : List Json → List Json → Prop
  | nil : AlikeItems [] []
  | cons {x y : Json} {xs ys : List Json} (hvalue : Alike x y) (hrest : AlikeItems xs ys) :
    AlikeItems (x :: xs) (y :: ys)

inductive AlikeFields : List (String × Json) → List (String × Json) → Prop
  | nil : AlikeFields [] []
  | cons (key : String) {x y : Json} {xs ys : List (String × Json)} (hvalue : Alike x y)
      (hrest : AlikeFields xs ys) : AlikeFields ((key, x) :: xs) ((key, y) :: ys)

end

/-- Two texts are alike as JSON, or neither is JSON. -/
def AlikeTexts : Option Json → Option Json → Prop := Option.Rel Alike

/-- Two bodies, or the data lines of two event streams, are alike as JSON. -/
def AlikeBodies (json : SerdeJson) (contentType : Option String) (a b : List UInt8) : Prop :=
  if isSse contentType then
    List.Forall₂ (fun x y => AlikeTexts (json.fromStr x) (json.fromStr y))
      (dataLines a) (dataLines b)
  else AlikeTexts (json.fromSlice a) (json.fromSlice b)

/-- A capture of a body that comes in chunks. -/
def captured (chunks : List (List UInt8)) : HttpBodyCapture :=
  chunks.foldl HttpBodyCapture.push HttpBodyCapture.default

mutual

/-- The string values in a JSON value. -/
def strings : Json → List String
  | .object fields => stringsOfFields fields
  | .array items => stringsOfItems items
  | .string s => [s]
  | .null => []
  | .bool _ => []
  | .number _ => []

def stringsOfItems : List Json → List String
  | [] => []
  | value :: rest => strings value ++ stringsOfItems rest

def stringsOfFields : List (String × Json) → List String
  | [] => []
  | (_, value) :: rest => strings value ++ stringsOfFields rest

end

/-- The strings that a record may hold. -/
def safeTexts : List String :=
  ["[REDACTED]", "[DONE]", "body exceeds 65536-byte HTTP debug limit", "non-JSON SSE data",
    "non-JSON body"]

mutual

theorem redact_alike {a b : Json} (h : Alike a b) : redactBodyValues a = redactBodyValues b := by
  cases h with
  | null => rfl
  | bool b => rfl
  | number n => rfl
  | done => rfl
  | string hs ht => simp only [redactBodyValues, if_neg hs, if_neg ht]
  | array h => simp only [redactBodyValues, redactItems_alike h]
  | object h => simp only [redactBodyValues, redactFields_alike h]

theorem redactItems_alike {xs ys : List Json} (h : AlikeItems xs ys) :
    redactItems xs = redactItems ys := by
  cases h with
  | nil => rfl
  | cons hvalue hrest => simp only [redactItems, redact_alike hvalue, redactItems_alike hrest]

theorem redactFields_alike {xs ys : List (String × Json)} (h : AlikeFields xs ys) :
    redactFields xs = redactFields ys := by
  cases h with
  | nil => rfl
  | cons key hvalue hrest => simp only [redactFields, redact_alike hvalue, redactFields_alike hrest]

end

theorem redactedEvent_alike (json : SerdeJson) {x y : List UInt8}
    (h : AlikeTexts (json.fromStr x) (json.fromStr y)) :
    redactedEvent json x = redactedEvent json y := by
  unfold redactedEvent
  generalize json.fromStr x = u at h
  generalize json.fromStr y = v at h
  cases h with
  | none => rfl
  | some h => exact redact_alike h

theorem redactedEvents_alike (json : SerdeJson) {xs ys : List (List UInt8)}
    (h : List.Forall₂ (fun x y => AlikeTexts (json.fromStr x) (json.fromStr y)) xs ys) :
    xs.map (redactedEvent json) = ys.map (redactedEvent json) := by
  induction h with
  | nil => rfl
  | cons hfirst _ ih => rw [List.map_cons, List.map_cons, redactedEvent_alike json hfirst, ih]

mutual

theorem strings_redact (v : Json) : ∀ s ∈ strings (redactBodyValues v), s ∈ safeTexts := by
  intro s hs
  cases v with
  | null => cases hs
  | bool b => cases hs
  | number n => cases hs
  | string t =>
    unfold redactBodyValues at hs
    by_cases ht : t = "[DONE]"
    · rw [if_pos ht, strings, List.mem_singleton] at hs
      rw [hs, ht]
      decide
    · rw [if_neg ht, redactedValue, strings, List.mem_singleton] at hs
      rw [hs]
      decide
  | array items => exact strings_redactItems items s hs
  | object fields => exact strings_redactFields fields s hs

theorem strings_redactItems (items : List Json) :
    ∀ s ∈ stringsOfItems (redactItems items), s ∈ safeTexts := by
  intro s hs
  cases items with
  | nil => cases hs
  | cons value rest =>
    rcases List.mem_append.mp hs with hs | hs
    · exact strings_redact value s hs
    · exact strings_redactItems rest s hs

theorem strings_redactFields (fields : List (String × Json)) :
    ∀ s ∈ stringsOfFields (redactFields fields), s ∈ safeTexts := by
  intro s hs
  cases fields with
  | nil => cases hs
  | cons field rest =>
    obtain ⟨key, value⟩ := field
    rcases List.mem_append.mp hs with hs | hs
    · by_cases hkey : normalizeKey key ∈ credentialKeys
      · rw [if_pos hkey, redactedValue, strings, List.mem_singleton] at hs
        rw [hs]
        decide
      · rw [if_neg hkey] at hs
        exact strings_redact value s hs
    · exact strings_redactFields rest s hs

end

theorem stringsOfItems_safe {items : List Json}
    (h : ∀ v ∈ items, ∀ s ∈ strings v, s ∈ safeTexts) :
    ∀ s ∈ stringsOfItems items, s ∈ safeTexts := by
  intro s hs
  induction items with
  | nil => cases hs
  | cons value rest ih =>
    rcases List.mem_append.mp hs with hs | hs
    · exact h value List.mem_cons_self s hs
    · exact ih (fun v hv => h v (List.mem_cons_of_mem value hv)) hs

theorem strings_redactedEvent (json : SerdeJson) (data : List UInt8) :
    ∀ s ∈ strings (redactedEvent json data), s ∈ safeTexts := by
  intro s hs
  unfold redactedEvent at hs
  cases hparsed : json.fromStr data with
  | none =>
    rw [hparsed] at hs
    simp only [strings, stringsOfFields, List.append_nil, List.mem_singleton] at hs
    rw [hs]
    decide
  | some value =>
    rw [hparsed] at hs
    exact strings_redact value s hs

/-- A push either adds the bytes or empties the capture for good. -/
theorem push_cases (c : HttpBodyCapture) (bytes : List UInt8) (limit : ℕ)
    (hlimit : c.limit = some limit) (hopen : c.truncated = false) :
    (saturatingAdd c.bytes.length bytes.length ≤ limit ∧ (c.push bytes).truncated = false ∧
      (c.push bytes).bytes = c.bytes ++ bytes) ∨
    (limit < saturatingAdd c.bytes.length bytes.length ∧ (c.push bytes).truncated = true) := by
  unfold HttpBodyCapture.push
  rw [hopen, hlimit, Option.any_some]
  by_cases hover : limit < saturatingAdd c.bytes.length bytes.length
  · right
    simp only [Bool.false_eq_true, if_false, decide_eq_true_eq, if_pos hover]
    exact ⟨hover, trivial⟩
  · left
    simp only [Bool.false_eq_true, if_false, decide_eq_true_eq, if_neg hover]
    exact ⟨not_lt.mp hover, trivial, trivial⟩

theorem push_truncated (c : HttpBodyCapture) (bytes : List UInt8) (h : c.truncated = true) :
    (c.push bytes).truncated = true := by
  unfold HttpBodyCapture.push
  rw [h, if_pos rfl]

theorem captured_limit (chunks : List (List UInt8)) :
    (captured chunks).limit = some httpDebugBodyLimit := by
  induction chunks using List.reverseRecOn with
  | nil => rfl
  | append_singleton chunks bytes ih =>
    unfold captured at ih ⊢
    rw [List.foldl_append, List.foldl_cons, List.foldl_nil]
    unfold HttpBodyCapture.push
    split_ifs
    · exact ih
    · exact ih
    · exact ih

theorem captured_total (chunks : List (List UInt8)) :
    (captured chunks).total = min chunks.flatten.length u64Max := by
  induction chunks using List.reverseRecOn with
  | nil => rfl
  | append_singleton chunks bytes ih =>
    have hpush : ∀ c : HttpBodyCapture,
        (c.push bytes).total = saturatingAdd c.total bytes.length := by
      intro c
      unfold HttpBodyCapture.push
      split_ifs
      · rfl
      · rfl
      · rfl
    unfold captured at ih ⊢
    rw [List.foldl_append, List.foldl_cons, List.foldl_nil, hpush, ih, List.flatten_append,
      List.length_append, List.flatten_singleton]
    unfold saturatingAdd
    omega

/-- A capture keeps a body that fits its limit, and is truncated for any other. -/
theorem captured_bytes (chunks : List (List UInt8)) :
    (chunks.flatten.length ≤ httpDebugBodyLimit ∧ (captured chunks).truncated = false ∧
      (captured chunks).bytes = chunks.flatten) ∨
    (httpDebugBodyLimit < chunks.flatten.length ∧ (captured chunks).truncated = true) := by
  have hlimit : httpDebugBodyLimit < u64Max := by decide
  induction chunks using List.reverseRecOn with
  | nil => exact Or.inl ⟨Nat.zero_le _, rfl, rfl⟩
  | append_singleton chunks bytes ih =>
    have hkept := captured_limit chunks
    have hlength : (chunks ++ [bytes]).flatten.length = chunks.flatten.length + bytes.length := by
      rw [List.flatten_append, List.length_append, List.flatten_singleton]
    have hpush : captured (chunks ++ [bytes]) = (captured chunks).push bytes := by
      unfold captured
      rw [List.foldl_append, List.foldl_cons, List.foldl_nil]
    rw [hpush, hlength]
    rcases ih with ⟨hfits, hopen, hbytes⟩ | ⟨hover, htruncated⟩
    · have hadded : saturatingAdd (captured chunks).bytes.length bytes.length =
          min (chunks.flatten.length + bytes.length) u64Max := by
        rw [hbytes]
        rfl
      rcases push_cases _ bytes _ hkept hopen with ⟨hroom, hopen', hbytes'⟩ | ⟨hover, hclosed⟩
      · left
        refine ⟨by omega, hopen', ?_⟩
        rw [hbytes', hbytes, List.flatten_append, List.flatten_singleton]
      · right
        exact ⟨by omega, hclosed⟩
    · right
      exact ⟨by omega, push_truncated _ bytes htruncated⟩

theorem redactedBody_alike (json : SerdeJson) (contentType : Option String) (total : ℕ)
    {a b : List UInt8} (h : AlikeBodies json contentType a b) :
    redactedBody json contentType total a = redactedBody json contentType total b := by
  unfold AlikeBodies at h
  unfold redactedBody
  by_cases hsse : isSse contentType = true
  · rw [if_pos hsse] at h ⊢
    rw [if_pos hsse, redactedEvents_alike json h]
  · rw [if_neg hsse] at h ⊢
    rw [if_neg hsse]
    generalize json.fromSlice a = u at h
    generalize json.fromSlice b = v at h
    cases h with
    | none => rfl
    | some h =>
      dsimp only
      rw [redact_alike h]

theorem redacted_alike (json : SerdeJson) (contentType : Option String) (a b : List (List UInt8))
    (hlength : a.flatten.length = b.flatten.length)
    (halike : AlikeBodies json contentType a.flatten b.flatten) :
    (captured a).redacted json contentType = (captured b).redacted json contentType := by
  have htotal : (captured a).total = (captured b).total := by
    rw [captured_total, captured_total, hlength]
  have hempty : a.flatten.isEmpty = b.flatten.isEmpty := by
    rw [Bool.eq_iff_iff, List.isEmpty_iff_length_eq_zero, List.isEmpty_iff_length_eq_zero, hlength]
  unfold HttpBodyCapture.redacted
  rw [htotal]
  rcases captured_bytes a with ⟨hfits, hopen, hbytes⟩ | ⟨hover, hclosed⟩
  · rcases captured_bytes b with ⟨_, hopen', hbytes'⟩ | ⟨hover', _⟩
    · rw [hopen, hopen', hbytes, hbytes', hempty,
        redactedBody_alike json contentType _ halike]
    · omega
  · rcases captured_bytes b with ⟨hfits', _, _⟩ | ⟨_, hclosed'⟩
    · omega
    · rw [hclosed, hclosed', if_pos rfl, if_pos rfl]

theorem strings_natural (n : ℕ) : strings (natural n) = [] := rfl

theorem strings_bytes (n : ℕ) (name : String) (value : Json) :
    strings (.object [("bytes", natural n), (name, value)]) = strings value := by
  simp only [strings, stringsOfFields, strings_natural, List.nil_append, List.append_nil]

theorem strings_text {s t : String} (h : s ∈ strings (.string t)) : s = t := by
  rw [strings, List.mem_singleton] at h
  exact h

theorem strings_redactedBody (json : SerdeJson) (contentType : Option String) (total : ℕ)
    (bytes : List UInt8) :
    ∀ s ∈ strings (redactedBody json contentType total bytes), s ∈ safeTexts := by
  intro s hs
  unfold redactedBody at hs
  by_cases hsse : isSse contentType = true
  · rw [if_pos hsse, strings_bytes] at hs
    refine stringsOfItems_safe ?_ s hs
    intro v hv
    obtain ⟨data, _, rfl⟩ := List.mem_map.mp hv
    exact strings_redactedEvent json data
  · rw [if_neg hsse] at hs
    cases hparsed : json.fromSlice bytes with
    | none =>
      rw [hparsed] at hs
      dsimp only at hs
      rw [strings_bytes] at hs
      rw [strings_text hs]
      decide
    | some value =>
      rw [hparsed] at hs
      dsimp only at hs
      rw [strings_bytes] at hs
      exact strings_redact value s hs

theorem strings_redacted (json : SerdeJson) (contentType : Option String) (c : HttpBodyCapture) :
    ∀ s ∈ strings (c.redacted json contentType), s ∈ safeTexts := by
  intro s hs
  unfold HttpBodyCapture.redacted at hs
  by_cases hclosed : c.truncated = true
  · rw [if_pos hclosed, strings_bytes] at hs
    rw [strings_text hs]
    decide
  · rw [if_neg hclosed] at hs
    by_cases hempty : c.bytes.isEmpty = true
    · rw [if_pos hempty] at hs
      cases hs
    · rw [if_neg hempty] at hs
      exact strings_redactedBody json contentType c.total c.bytes s hs

/-- Bodies of one length that are alike as JSON, or as event streams, give one record, and
the strings of the record are fixed texts. -/
theorem record_hides_strings (json : SerdeJson) (contentType : Option String)
    (a b : List (List UInt8)) (hlength : a.flatten.length = b.flatten.length)
    (halike : AlikeBodies json contentType a.flatten b.flatten) :
    (captured a).redacted json contentType = (captured b).redacted json contentType ∧
      ∀ s ∈ strings ((captured a).redacted json contentType), s ∈ safeTexts :=
  ⟨redacted_alike json contentType a b hlength halike,
    strings_redacted json contentType (captured a)⟩

/-- The JSON texts `["Al"]` and `["Bo"]`. -/
def greetings : List UInt8 × List UInt8 :=
  ([0x5B, 0x22, 0x41, 0x6C, 0x22, 0x5D], [0x5B, 0x22, 0x42, 0x6F, 0x22, 0x5D])

/-- A parser that knows these two texts. -/
def greetingParser : SerdeJson where
  fromSlice bytes :=
    if bytes = greetings.1 then some (.array [.string "Al"])
    else if bytes = greetings.2 then some (.array [.string "Bo"])
    else none
  fromStr _ := none
  toText _ := "null"

theorem greetings_share_record :
    (captured [greetings.1]).redacted greetingParser (some "application/json") =
      (captured [greetings.2.take 2, greetings.2.drop 2]).redacted greetingParser
        (some "application/json") := by
  have hal : greetingParser.fromSlice [greetings.1].flatten = some (.array [.string "Al"]) := rfl
  have hbo : greetingParser.fromSlice [greetings.2.take 2, greetings.2.drop 2].flatten =
      some (.array [.string "Bo"]) := rfl
  refine (record_hides_strings greetingParser _ _ _ (by decide) ?_).1
  change AlikeTexts _ _
  rw [hal, hbo]
  exact Option.Rel.some (.array (.cons (.string (by decide) (by decide)) .nil))

/-- Frames of one length that are alike as bodies of their own. -/
def AlikeFrames (json : SerdeJson) (contentType : Option String) : Frame → Frame → Prop
  | .data a, .data b => a.length = b.length ∧ AlikeBodies json contentType a b
  | .trailers _, .trailers _ => True
  | _, _ => False

theorem rendered_alike (json : SerdeJson) (contentType : Option String) {a b : List UInt8}
    (hlength : a.length = b.length) (halike : AlikeBodies json contentType a b) :
    (HttpBodyCapture.default.push a).rendered json .safe contentType =
      (HttpBodyCapture.default.push b).rendered json .safe contentType := by
  have h := redacted_alike json contentType [a] [b]
  rw [List.flatten_singleton, List.flatten_singleton] at h
  exact h hlength halike

theorem emitted_alike (json : SerdeJson) (requestId : String) (contentType : Option String)
    {frames frames' : List Frame} (h : List.Forall₂ (AlikeFrames json contentType) frames frames')
    (index : ℕ) :
    (mapFrame (observeFrame json .safe requestId contentType) index frames).2 =
      (mapFrame (observeFrame json .safe requestId contentType) index frames').2 := by
  induction h generalizing index with
  | nil => rfl
  | @cons x y xs ys hfirst _ ih =>
    unfold mapFrame
    dsimp only
    cases x with
    | data a =>
      cases y with
      | data b =>
        obtain ⟨hlength, halike⟩ := hfirst
        dsimp only [observeFrame, frameCapture]
        rw [rendered_alike json contentType hlength halike, ih]
      | trailers _ => exact hfirst.elim
    | trailers _ =>
      cases y with
      | data b => exact hfirst.elim
      | trailers _ =>
        dsimp only [observeFrame]
        rw [ih]

/-- Setting a header leaves the others. -/
theorem headerText_setHeader (value : List UInt8) (headers : Headers) {name other : String}
    (h : other ≠ name) :
    headerText (setHeader name value headers) other = headerText headers other := by
  have hkept : (headers.filter (fun header => header.1 ≠ name)).find?
      (fun header => header.1 = other) = headers.find? (fun header => header.1 = other) := by
    rw [List.find?_filter]
    congr 1
    funext header
    by_cases hother : header.1 = other
    · simp [hother, h]
    · simp [hother]
  unfold headerText getHeader setHeader
  rw [List.find?_append, hkept, List.find?_cons_of_neg (by simp [h.symm]), List.find?_nil,
    Option.or_none]

/-- Exchanges that differ in nothing but the string values of their bodies leave the same
safe log. -/
theorem safe_log_alike (json : SerdeJson) (requestId : String) (durationMs : ℕ)
    {r r' : Request} {next next' : Request → Response}
    (hrequest : { r with body := r'.body } = r')
    (hlength : (collectedBody r).length = (collectedBody r').length)
    (hbody : AlikeBodies json (headerText r.headers "content-type") (collectedBody r)
      (collectedBody r'))
    (hresponse : { next (forwarded r) with body := (next' (forwarded r')).body } =
      next' (forwarded r'))
    (hframes : List.Forall₂ (AlikeFrames json
        (headerText (next (forwarded r)).headers "content-type"))
      (next (forwarded r)).body.frames (next' (forwarded r')).body.frames) :
    (httpDebugMiddleware json .safe requestId durationMs r next).2 =
      (httpDebugMiddleware json .safe requestId durationMs r' next').2 := by
  have hmethod := congrArg Request.method hrequest
  have hpath := congrArg Request.path hrequest
  have hheaders := congrArg Request.headers hrequest
  have hstatus := congrArg Response.status hresponse
  have hset := congrArg Response.headers hresponse
  dsimp only at hmethod hpath hheaders hstatus hset
  unfold httpDebugMiddleware
  dsimp only
  rw [← hset, headerText_setHeader _ _ (by decide), emitted_alike json requestId _ hframes]
  congr 1
  · unfold requestRecord
    dsimp only
    rw [rendered_alike json _ hlength hbody, hmethod, hpath, hheaders]
    rfl
  · unfold responseRecord
    dsimp only
    rw [hstatus]

end Cusco.SafeRecords
