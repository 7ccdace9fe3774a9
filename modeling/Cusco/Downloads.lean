import Mathlib.Algebra.Group.Nat.Defs
import Mathlib.Data.List.Infix
import Mathlib.Tactic.Common
import Cusco.MachineIntegers

/-!
Resumable downloads. A partial file of an artifact is continued where the server's reply
starts at its end, and started over otherwise. Reads of the body and writes to the file can
fail anywhere.
-/

namespace Cusco.Downloads

structure DownloadProgress where
  total : Option ℕ
  completed : ℕ
  deriving DecidableEq

inductive Error
  | io
  | http
  deriving DecidableEq

/-- The status of a reply and its headers, as far as they are text. -/
structure Response where
  status : ℕ
  contentRange : Option (List Char)
  contentLength : Option (List Char)
  deriving DecidableEq

/-- A read of the body; the write of what was read may fail after some bytes. -/
inductive Event
  | chunk (bytes : List UInt8) (fails : Option ℕ)
  | failed
  deriving DecidableEq

/-- What the server and the file system answer. -/
structure Reply where
  response : Response
  opened : Bool
  events : List Event

/-- What a download leaves: the file at the partial path, if there is one, and what was
reported. -/
structure Outcome where
  result : Except Error Unit
  file : Option (List UInt8)
  progress : List DownloadProgress

def bufferSize : ℕ := 256 * 1024

/-- `str::parse` to a `u64`. -/
def parseU64 (text : List Char) : Option ℕ :=
  let digits := if text.head? = some '+' then text.tail else text
  if digits ≠ [] ∧ digits.all Char.isDigit ∧ Nat.ofDigitChars 10 digits 0 ≤ u64Max then
    some (Nat.ofDigitChars 10 digits 0)
  else none

/-- What follows the last slash, as `rsplit_once` gives it. -/
def afterSlash (text : List Char) : Option (List Char) :=
  if '/' ∈ text then some (text.reverse.takeWhile (· ≠ '/')).reverse else none

def responseTotal (response : Response) (offset : ℕ) : Option ℕ :=
  match (response.contentRange.bind afterSlash).bind parseU64 with
  | some total => some total
  | none =>
    (response.contentLength.bind parseU64).map (fun length => min (length + offset) u64Max)

/-- `bytes {offset}-`, with which the content range of a continued reply starts. -/
def offsetText (offset : ℕ) : List Char := "bytes ".toList ++ (Nat.toDigits 10 offset ++ ['-'])

/-- The `Range` header of the request. -/
def rangeHeader (requestedOffset : ℕ) : Option (List Char) :=
  if requestedOffset > 0 then
    some ("bytes=".toList ++ (Nat.toDigits 10 requestedOffset ++ ['-']))
  else none

def resumesAtOffset (response : Response) (requestedOffset : ℕ) : Bool :=
  response.status == 206 &&
    response.contentRange.any (fun value => (offsetText requestedOffset).isPrefixOf value)

/-- The loop over the body. -/
def writeBody (total : Option ℕ) :
    List Event → ℕ → List UInt8 → List DownloadProgress → Outcome
  | [], _, file, progress => ⟨.ok (), some file, progress⟩
  | .failed :: _, _, file, progress => ⟨.error .io, some file, progress⟩
  | .chunk [] _ :: _, _, file, progress => ⟨.ok (), some file, progress⟩
  | .chunk (b :: bytes) (some written) :: _, _, file, progress =>
    ⟨.error .io, some (file ++ (b :: bytes).take written), progress⟩
  | .chunk (b :: bytes) none :: rest, completed, file, progress =>
    let completed := min (completed + (b :: bytes).length) u64Max
    writeBody total rest completed (file ++ b :: bytes) (progress ++ [⟨total, completed⟩])

def downloadResumable (file : Option (List UInt8))
    (server : Option (List Char) → Option Reply) : Outcome :=
  let requestedOffset := (file.map List.length).getD 0
  match server (rangeHeader requestedOffset) with
  | none => ⟨.error .http, file, []⟩
  | some reply =>
    let offset := if resumesAtOffset reply.response requestedOffset then requestedOffset else 0
    let total := responseTotal reply.response offset
    if reply.opened then
      let start := if offset > 0 then file.getD [] else []
      writeBody total reply.events offset start [⟨total, offset⟩]
    else ⟨.error .io, file, []⟩

section Labels

/-- How a reply is labelled that carries this artifact: as the whole of it, or as the bytes from
one index to another. -/
inductive Label (artifact : List UInt8)
  | whole (contentRange : Option (List Char))
  | part (first last : ℕ) (hle : first ≤ last) (hlt : last < artifact.length)

variable {artifact : List UInt8}

/-- `bytes {first}-{last}/{total}`. -/
def rangeText (first last total : ℕ) : List Char :=
  "bytes ".toList ++ (Nat.toDigits 10 first ++ '-' :: (Nat.toDigits 10 last ++ '/' ::
    Nat.toDigits 10 total))

def Label.response (contentLength : Option (List Char)) : Label artifact → Response
  | .whole contentRange => ⟨200, contentRange, contentLength⟩
  | .part first last _ _ => ⟨206, some (rangeText first last artifact.length), contentLength⟩

def Label.body : Label artifact → List UInt8
  | .whole _ => artifact
  | .part first last _ _ => (artifact.drop first).take (last + 1 - first)

/-- The reads hand over this body, up to where they fail. -/
inductive Delivers : List Event → List UInt8 → Prop
  | ended : Delivers [] []
  | closed (fails : Option ℕ) (rest : List Event) : Delivers (.chunk [] fails :: rest) []
  | cut (rest : List Event) (body : List UInt8) : Delivers (.failed :: rest) body
  | full (bytes : List UInt8) (written : ℕ) (rest : List Event) (body : List UInt8)
    (hne : bytes ≠ []) (hsize : bytes.length ≤ bufferSize) :
    Delivers (.chunk bytes (some written) :: rest) (bytes ++ body)
  | chunk (bytes : List UInt8) (rest : List Event) (body : List UInt8) (hne : bytes ≠ [])
    (hsize : bytes.length ≤ bufferSize) (hrest : Delivers rest body) :
    Delivers (.chunk bytes none :: rest) (bytes ++ body)

/-- The file is the start of the artifact, and all of it if the download went well. -/
structure Safe (artifact : List UInt8) (outcome : Outcome) : Prop where
  start : outcome.file.getD [] <+: artifact
  complete : outcome.result = .ok () → outcome.file = some artifact

/-- The reply goes to the artifact's end, from where the partial file ends or from the start. -/
def Label.Continues (file : Option (List UInt8)) : Label artifact → Prop
  | .whole _ => True
  | .part first last _ _ => last + 1 = artifact.length ∧ (first = (file.getD []).length ∨ first = 0)

end Labels

section Text

theorem prefix_iff_of_not_mem {c : Char} (xs ys rest : List Char) (hx : c ∉ xs) (hy : c ∉ ys) :
    xs ++ [c] <+: ys ++ c :: rest ↔ xs = ys := by
  constructor
  · intro h
    induction xs generalizing ys with
    | nil =>
      cases ys with
      | nil => rfl
      | cons y ys =>
        obtain ⟨hsame, _⟩ := List.cons_prefix_cons.mp h
        exact absurd (hsame ▸ List.mem_cons_self) hy
    | cons x xs ih =>
      cases ys with
      | nil =>
        obtain ⟨hsame, _⟩ := List.cons_prefix_cons.mp h
        exact absurd (hsame ▸ List.mem_cons_self) hx
      | cons y ys =>
        obtain ⟨hsame, htail⟩ := List.cons_prefix_cons.mp h
        rw [hsame, ih ys (fun hmem => hx (List.mem_cons_of_mem _ hmem))
          (fun hmem => hy (List.mem_cons_of_mem _ hmem)) htail]
  · rintro rfl
    exact ⟨rest, by simp⟩

theorem toDigits_inj {m n : ℕ} (h : Nat.toDigits 10 m = Nat.toDigits 10 n) : m = n := by
  rw [← Nat.ofDigitChars_ten_toDigits (n := m), h, Nat.ofDigitChars_ten_toDigits]

theorem not_mem_toDigits {c : Char} (hc : c.isDigit = false) (n : ℕ) :
    c ∉ Nat.toDigits 10 n := by
  intro hmem
  have hdigit := Nat.isDigit_of_mem_toDigits (by decide) (by decide) hmem
  rw [hc] at hdigit
  exact Bool.false_ne_true hdigit

/-- A content range starts at the offset exactly if its first index is the offset. -/
theorem resumesAtOffset_part (first last total offset : ℕ) (contentLength : Option (List Char)) :
    resumesAtOffset ⟨206, some (rangeText first last total), contentLength⟩ offset = true ↔
      offset = first := by
  have hdash : Char.isDigit '-' = false := by decide
  simp only [resumesAtOffset, beq_self_eq_true, Bool.true_and, Option.any_some,
    List.isPrefixOf_iff_prefix]
  delta offsetText rangeText
  rw [List.prefix_append_right_inj, prefix_iff_of_not_mem _ _ _ (not_mem_toDigits hdash _)
    (not_mem_toDigits hdash _)]
  constructor
  · exact toDigits_inj
  · rintro rfl
    rfl

end Text

section Bodies

variable {artifact : List UInt8}

/-- What is written continues the file by the body, as far as it was handed over. -/
theorem writeBody_safe (total : Option ℕ) {events : List Event} {body : List UInt8}
    (h : Delivers events body) (completed : ℕ) (file : List UInt8)
    (progress : List DownloadProgress) :
    (writeBody total events completed file progress).file.getD [] <+: file ++ body ∧
      ((writeBody total events completed file progress).result = .ok () →
        (writeBody total events completed file progress).file = some (file ++ body)) := by
  induction h generalizing completed file progress with
  | ended =>
    rw [List.append_nil]
    exact ⟨List.prefix_refl _, fun _ => rfl⟩
  | closed fails rest =>
    rw [List.append_nil]
    exact ⟨List.prefix_refl _, fun _ => rfl⟩
  | cut rest body =>
    refine ⟨List.prefix_append _ _, ?_⟩
    intro hok
    cases hok
  | full bytes written rest body hne hsize =>
    cases bytes with
    | nil => exact absurd rfl hne
    | cons b bytes =>
      refine ⟨(List.prefix_append_right_inj file).mpr ?_, ?_⟩
      · exact (List.take_prefix written _).trans (List.prefix_append _ _)
      · intro hok
        cases hok
  | chunk bytes rest body hne hsize hrest ih =>
    cases bytes with
    | nil => exact absurd rfl hne
    | cons b bytes =>
      have hfile := ih (min (completed + (b :: bytes).length) u64Max) (file ++ b :: bytes)
        (progress ++ [⟨total, min (completed + (b :: bytes).length) u64Max⟩])
      rw [List.append_assoc] at hfile
      exact hfile

/-- The body handed over byte by byte. -/
def bytewise (body : List UInt8) : List Event := body.map (fun b => .chunk [b] none)

theorem delivers_bytewise (body : List UInt8) : Delivers (bytewise body) body := by
  induction body with
  | nil => exact .ended
  | cons b body ih =>
    have hfits : [b].length ≤ bufferSize := Nat.succ_pos _
    exact .chunk [b] _ body (List.cons_ne_nil b []) hfits ih

theorem writeBody_bytewise (total : Option ℕ) (body : List UInt8) (completed : ℕ)
    (file : List UInt8) (progress : List DownloadProgress) :
    (writeBody total (bytewise body) completed file progress).result = .ok () := by
  induction body generalizing completed file progress with
  | nil => rfl
  | cons b body ih => exact ih _ _ _

end Bodies

section Downloads

variable {artifact : List UInt8} {file : Option (List UInt8)}

/-- Where the download starts to write. -/
def writtenFrom (file : Option (List UInt8)) (response : Response) : List UInt8 :=
  if resumesAtOffset response (file.getD []).length then file.getD [] else []

theorem download_eq (file : Option (List UInt8)) (server : Option (List Char) → Option Reply)
    (reply : Reply)
    (hserver : server (rangeHeader ((file.map List.length).getD 0)) = some reply)
    (hopened : reply.opened = true) :
    ∃ total offset, downloadResumable file server =
      writeBody total reply.events offset (writtenFrom file reply.response) [⟨total, offset⟩] := by
  have hlength : (file.map List.length).getD 0 = (file.getD []).length := by
    cases file <;> rfl
  rw [hlength] at hserver
  unfold downloadResumable writtenFrom
  simp only [hlength, hserver, hopened, if_true]
  by_cases hresumes : resumesAtOffset reply.response (file.getD []).length = true
  · simp only [hresumes, if_true]
    by_cases hpositive : (file.getD []).length > 0
    · exact ⟨_, _, by rw [if_pos hpositive]⟩
    · have hempty : file.getD [] = [] := List.eq_nil_of_length_eq_zero (by omega)
      exact ⟨_, _, by rw [if_neg hpositive, hempty]⟩
  · simp only [hresumes, Bool.false_eq_true, if_false]
    exact ⟨_, _, rfl⟩

theorem prefix_of_length {file : List UInt8} (hfile : file <+: artifact) :
    file = artifact.take file.length :=
  List.prefix_iff_eq_take.mp hfile

theorem writtenFrom_part (file : Option (List UInt8)) (first last total : ℕ)
    (contentLength : Option (List Char)) :
    writtenFrom file ⟨206, some (rangeText first last total), contentLength⟩ =
      if (file.getD []).length = first then file.getD [] else [] := by
  unfold writtenFrom
  by_cases hresumes : (file.getD []).length = first
  · rw [if_pos hresumes, if_pos ((resumesAtOffset_part _ _ _ _ _).mpr hresumes)]
  · rw [if_neg hresumes, if_neg (fun htrue => hresumes ((resumesAtOffset_part _ _ _ _ _).mp htrue))]

/-- Where the reply continues the file, what is written is the artifact. -/
theorem written_of_continues (label : Label artifact) (contentLength : Option (List Char))
    (hfile : file.getD [] <+: artifact) (h : label.Continues file) :
    writtenFrom file (label.response contentLength) ++ label.body = artifact := by
  cases label with
  | whole contentRange => rfl
  | part first last hle hlt =>
    obtain ⟨hend, hstart⟩ := h
    have hbody : (artifact.drop first).take (last + 1 - first) = artifact.drop first := by
      apply List.take_of_length_le
      rw [List.length_drop]
      omega
    have hwritten := writtenFrom_part file first last artifact.length contentLength
    show writtenFrom file ⟨206, some (rangeText first last artifact.length), contentLength⟩ ++
      (artifact.drop first).take (last + 1 - first) = artifact
    rw [hwritten, hbody]
    split_ifs with hresumes
    · rw [prefix_of_length hfile, hresumes]
      exact List.take_append_drop first artifact
    · rcases hstart with hlength | rfl
      · exact absurd hlength.symm hresumes
      · rfl

/-- Otherwise it is not. -/
theorem written_of_not_continues (label : Label artifact) (contentLength : Option (List Char))
    (h : ¬label.Continues file) :
    writtenFrom file (label.response contentLength) ++ label.body ≠ artifact := by
  cases label with
  | whole contentRange => exact absurd trivial h
  | part first last hle hlt =>
    intro heq
    apply h
    have hlength := congrArg List.length heq
    have hwritten := writtenFrom_part file first last artifact.length contentLength
    change (writtenFrom file ⟨206, some (rangeText first last artifact.length), contentLength⟩ ++
      (artifact.drop first).take (last + 1 - first)).length = artifact.length at hlength
    rw [hwritten, List.length_append, List.length_take, List.length_drop] at hlength
    split_ifs at hlength with hresumes
    · exact ⟨by omega, Or.inl hresumes.symm⟩
    · rw [List.length_nil] at hlength
      exact ⟨by omega, Or.inr (by omega)⟩

/-- A server that gives at most such replies, with bodies that may be cut short anywhere. -/
def Serves (label : Label artifact) (contentLength : Option (List Char))
    (server : Option (List Char) → Option Reply) : Prop :=
  ∀ range reply, server range = some reply →
    reply.response = label.response contentLength ∧ Delivers reply.events label.body

/-- A download keeps the file a start of the artifact, and is complete where it succeeds,
exactly if the reply continues the file to the artifact's end or starts over. -/
theorem download_safe_iff (artifact : List UInt8) (file : Option (List UInt8))
    (hfile : file.getD [] <+: artifact) (label : Label artifact)
    (contentLength : Option (List Char)) :
    (∀ server, Serves label contentLength server → Safe artifact (downloadResumable file server)) ↔
      label.Continues file := by
  constructor
  · intro h
    by_contra hnot
    let reply : Reply := ⟨label.response contentLength, true, bytewise label.body⟩
    have hserves : Serves label contentLength (fun _ => some reply) := by
      intro range reply' hreply
      cases hreply
      exact ⟨rfl, delivers_bytewise label.body⟩
    have hsafe := h _ hserves
    obtain ⟨total, offset, heq⟩ := download_eq file (fun _ => some reply) reply rfl rfl
    rw [heq] at hsafe
    have hok := writeBody_bytewise total label.body offset
      (writtenFrom file (label.response contentLength)) [⟨total, offset⟩]
    have hwritten := (writeBody_safe total (delivers_bytewise label.body) offset
      (writtenFrom file (label.response contentLength)) [⟨total, offset⟩]).2 hok
    have hcomplete := hsafe.complete hok
    rw [hwritten] at hcomplete
    exact written_of_not_continues label contentLength hnot (Option.some.inj hcomplete)
  · intro h server hserves
    have hwritten := written_of_continues label contentLength hfile h
    cases hreply : server (rangeHeader ((file.map List.length).getD 0)) with
    | none =>
      unfold downloadResumable
      simp only [hreply]
      exact ⟨hfile, fun hok => by cases hok⟩
    | some reply =>
      obtain ⟨hresponse, hdelivers⟩ := hserves _ reply hreply
      by_cases hopened : reply.opened = true
      · obtain ⟨total, offset, heq⟩ := download_eq file server reply hreply hopened
        obtain ⟨hstart, hcomplete⟩ := writeBody_safe total hdelivers offset
          (writtenFrom file reply.response) [⟨total, offset⟩]
        rw [hresponse, hwritten] at hstart hcomplete
        rw [heq, hresponse]
        exact ⟨hstart, hcomplete⟩
      · unfold downloadResumable
        simp only [hreply, hopened, Bool.false_eq_true, if_false]
        exact ⟨hfile, fun hok => by cases hok⟩

/-- The bytes of `hello world`. -/
def helloWorld : List UInt8 := [104, 101, 108, 108, 111, 32, 119, 111, 114, 108, 100]

/-- The reply that goes on after `hello`. -/
def restOfHello : Reply :=
  ⟨⟨206, some (rangeText 5 10 11), none⟩, true, bytewise (helloWorld.drop 5)⟩

theorem helloWorld_resumed :
    Safe helloWorld
      (downloadResumable (some (helloWorld.take 5)) (fun _ => some restOfHello)) := by
  apply (download_safe_iff helloWorld (some (helloWorld.take 5))
    (List.take_prefix 5 helloWorld) (.part 5 10 (by decide) (by decide)) none).mpr ⟨rfl, Or.inl rfl⟩
  intro range reply hreply
  cases hreply
  exact ⟨rfl, delivers_bytewise (helloWorld.drop 5)⟩

/-- A reply to `hello` that starts two bytes before its end is written as if it were the start of
the artifact. -/
theorem helloWorld_misplaced :
    ∃ server, Serves (.part 3 10 (by decide) (by decide) : Label helloWorld) none server ∧
      ¬Safe helloWorld (downloadResumable (some (helloWorld.take 5)) server) := by
  refine ⟨fun _ => some ⟨⟨206, some (rangeText 3 10 11), none⟩, true,
    bytewise (helloWorld.drop 3)⟩, ?_, ?_⟩
  · intro range reply hreply
    cases hreply
    exact ⟨rfl, delivers_bytewise (helloWorld.drop 3)⟩
  · intro hsafe
    have hstart := hsafe.start
    revert hstart
    decide +kernel

end Downloads

end Cusco.Downloads
