import Mathlib.Data.List.Infix
import Mathlib.Tactic.Common

/-!
Event streams in the format `text/event-stream`: lines of fields, and a blank line after each
event. A reader takes one character at a time and keeps the data of the events. So it does not
matter how a stream is cut into parts, and what was read of its beginning stays.
-/

namespace Cusco.EventSource

/-- A reader within a stream: the line so far, whether a carriage return came just before, and
the data of the event so far. -/
structure Reader where
  line : List Char
  afterReturn : Bool
  data : Option (List Char)
  deriving DecidableEq

def Reader.start : Reader := ⟨[], false, none⟩

def dataField : List Char := "data:".toList

/-- The value of a `data` field; one space before it does not count. -/
def dataOf (line : List Char) : Option (List Char) :=
  if line = "data".toList then some []
  else if dataField.isPrefixOf line then
    match line.drop dataField.length with
    | ' ' :: value => some value
    | value => some value
  else none

/-- The data of an event with one more field. -/
def extend (data : Option (List Char)) (value : List Char) : List Char :=
  match data with
  | none => value
  | some data => data ++ '\n' :: value

namespace Reader

/-- The end of a line: a blank one ends the event, if it has data. -/
def endLine (r : Reader) : Reader × List (List Char) :=
  if r.line = [] then ({ r with data := none }, r.data.toList)
  else
    match dataOf r.line with
    | none => ({ r with line := [] }, [])
    | some value => ({ r with line := [], data := some (extend r.data value) }, [])

/-- Lines end with a line feed, a carriage return or both. -/
def read (r : Reader) (c : Char) : Reader × List (List Char) :=
  if c = '\n' then
    if r.afterReturn then ({ r with afterReturn := false }, []) else r.endLine
  else if c = '\r' then ({ r.endLine.1 with afterReturn := true }, r.endLine.2)
  else ({ r with line := r.line ++ [c], afterReturn := false }, [])

/-- The reader after a text, and the events that it has read. -/
def feed (r : Reader) : List Char → Reader × List (List Char)
  | [] => (r, [])
  | c :: rest =>
    let (next, events) := r.read c
    let (last, more) := next.feed rest
    (last, events ++ more)

theorem feed_append (r : Reader) (s t : List Char) :
    r.feed (s ++ t) =
      (((r.feed s).1.feed t).1, (r.feed s).2 ++ ((r.feed s).1.feed t).2) := by
  induction s generalizing r with
  | nil => rfl
  | cons c s ih =>
    simp only [List.cons_append, feed, ih, List.append_assoc]

/-- Within a line nothing is read but the line. -/
theorem feed_line {text : List Char} (hfeed : '\n' ∉ text) (hreturn : '\r' ∉ text) (r : Reader)
    (hr : r.afterReturn = false) :
    r.feed text = ({ r with line := r.line ++ text }, []) := by
  induction text generalizing r with
  | nil =>
    simp only [feed, List.append_nil]
  | cons c text ih =>
    rw [List.mem_cons, not_or] at hfeed hreturn
    have hread : r.read c = ({ r with line := r.line ++ [c] }, []) := by
      unfold read
      rw [if_neg (Ne.symm hfeed.1), if_neg (Ne.symm hreturn.1), hr]
    simp only [feed, hread, ih hfeed.2 hreturn.2 { r with line := r.line ++ [c] } hr,
      List.append_assoc, List.singleton_append, List.append_nil]

end Reader

/-- The data of the events of a text. -/
def readEvents (text : List Char) : List (List Char) := (Reader.start.feed text).2

/-- The events of a stream that comes in parts, as they are read part by part. -/
def readParts (r : Reader) : List (List Char) → List (List Char)
  | [] => []
  | part :: parts => (r.feed part).2 ++ readParts (r.feed part).1 parts

theorem readParts_flatten (r : Reader) (parts : List (List Char)) :
    readParts r parts = (r.feed parts.flatten).2 := by
  induction parts generalizing r with
  | nil => rfl
  | cons part parts ih =>
    simp only [readParts, List.flatten_cons, Reader.feed_append, ih]

/-- What was read of the beginning of a text is the beginning of what is read of all of it. -/
theorem readEvents_isPrefix {s t : List Char} (h : s <+: t) : readEvents s <+: readEvents t := by
  obtain ⟨rest, rfl⟩ := h
  unfold readEvents
  rw [Reader.feed_append]
  exact List.prefix_append _ _

/-- An event with one line of data. -/
def frame (payload : List Char) : List Char := "data: ".toList ++ payload ++ "\n\n".toList

def OneLine (payload : List Char) : Prop := '\n' ∉ payload ∧ '\r' ∉ payload

instance (payload : List Char) : Decidable (OneLine payload) :=
  inferInstanceAs (Decidable (_ ∧ _))

theorem oneLine_nil : OneLine [] := ⟨List.not_mem_nil, List.not_mem_nil⟩

@[simp] theorem oneLine_cons (c : Char) (text : List Char) :
    OneLine (c :: text) ↔ ('\n' ≠ c ∧ '\r' ≠ c) ∧ OneLine text := by
  unfold OneLine
  rw [List.mem_cons, List.mem_cons, not_or, not_or]
  tauto

@[simp] theorem oneLine_append (s t : List Char) : OneLine (s ++ t) ↔ OneLine s ∧ OneLine t := by
  unfold OneLine
  rw [List.mem_append, List.mem_append, not_or, not_or]
  tauto

theorem dataOf_data (payload : List Char) : dataOf ("data: ".toList ++ payload) = some payload := by
  have hlonger : "data: ".toList ++ payload ≠ "data".toList := by
    intro h
    have hlength := congrArg List.length h
    rw [List.length_append] at hlength
    simp at hlength
    omega
  unfold dataOf
  rw [if_neg hlonger]
  rfl

theorem feed_frame {payload : List Char} (h : OneLine payload) :
    Reader.start.feed (frame payload) = (Reader.start, [payload]) := by
  have hline : '\n' ∉ "data: ".toList ++ payload ∧ '\r' ∉ "data: ".toList ++ payload := by
    simp only [List.mem_append, not_or]
    exact ⟨⟨by decide, h.1⟩, by decide, h.2⟩
  have hdata := dataOf_data payload
  have hne : "data: ".toList ++ payload ≠ [] := by
    intro hnil
    exact absurd (List.append_eq_nil_iff.mp hnil).1 (by decide)
  unfold frame
  rw [Reader.feed_append, Reader.feed_line hline.1 hline.2 Reader.start rfl]
  simp only [Reader.start, List.nil_append]
  generalize "data: ".toList ++ payload = line at hdata hne
  have hend : Reader.endLine ⟨line, false, none⟩ = (⟨[], false, some payload⟩, []) := by
    unfold Reader.endLine
    rw [if_neg hne]
    simp only [hdata, extend]
  change Reader.feed ⟨line, false, none⟩ ['\n', '\n'] = _
  simp only [Reader.feed, Reader.read, if_true, Bool.false_eq_true, if_false, hend]
  rfl

/-- Events with one line of data each are read as they were written. -/
theorem feed_frames {payloads : List (List Char)} (h : ∀ payload ∈ payloads, OneLine payload) :
    Reader.start.feed (payloads.flatMap frame) = (Reader.start, payloads) := by
  induction payloads with
  | nil => rfl
  | cons payload payloads ih =>
    have hfirst := feed_frame (h payload List.mem_cons_self)
    have hrest := ih (fun p hp => h p (List.mem_cons_of_mem payload hp))
    rw [List.flatMap_cons, Reader.feed_append, hfirst, hrest]
    rfl

theorem readEvents_frames {payloads : List (List Char)}
    (h : ∀ payload ∈ payloads, OneLine payload) : readEvents (payloads.flatMap frame) = payloads :=
  congrArg Prod.snd (feed_frames h)

end Cusco.EventSource
