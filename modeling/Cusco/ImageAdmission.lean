import Cusco.HubPaths
import Cusco.Runs
import Cusco.Sha256
import Cusco.Tables
import Cusco.MachineIntegers
import Mathlib.Algebra.Order.Group.Nat

/-!
The admission of images: an image is decoded as far as its header, checked against the limits of
the configuration and retained under the digest of its bytes, as long as there is room. What the
crates for base64, for images and for digests answer is a parameter.
-/

namespace Cusco.ImageAdmission

open Runs
open HubPaths (stripPrefix splitOnce)

section Model

structure VisionConfig where
  maxEncodedBytes : ℕ
  maxDecodedBytes : ℕ
  maxDimension : ℕ
  maxTotalPixels : ℕ
  retentionCapacity : ℕ

structure VisionError where
  code : String
  message : String
  field : String
  observed : Option ℕ
  limit : Option ℕ
  unit : Option String
  deriving DecidableEq

def VisionError.malformed (message : String) : VisionError :=
  ⟨"image_malformed", message, "image", none, none, none⟩

def VisionError.exceeded (field : String) (observed limit : ℕ) (unit : String) : VisionError :=
  ⟨"image_limit_exceeded", s!"{field} exceeds configured limit", field, some observed, some limit,
    some unit⟩

def VisionError.unsupported (message : String) : VisionError :=
  ⟨"image_unsupported", message, "image", none, none, none⟩

inductive ImageFormat
  | jpeg
  | png
  | webp
  | gif
  | other
  deriving DecidableEq

def ImageFormat.mimeType : ImageFormat → Option String
  | jpeg => some "image/jpeg"
  | png => some "image/png"
  | webp => some "image/webp"
  | gif => some "image/gif"
  | other => none

def ImageFormat.invalid : ImageFormat → String
  | jpeg => "invalid JPEG image"
  | png => "invalid PNG image"
  | webp => "invalid WebP image"
  | gif => "invalid GIF"
  | other => ""

/-- What the header of an image says. -/
structure Decoded where
  width : ℕ
  height : ℕ
  hasAlpha : Bool
  deriving DecidableEq

structure Codecs where
  decodeBase64 : List Char → Option (List UInt8)
  guessFormat : List UInt8 → Option ImageFormat
  decoder : ImageFormat → List UInt8 → Option Decoded
  frames : List UInt8 → ℕ
  digest : List UInt8 → String

structure AdmittedImage where
  digest : String
  mimeType : String
  width : ℕ
  height : ℕ
  pixels : ℕ
  hasAlpha : Bool
  bytes : List UInt8
  deriving DecidableEq

structure CacheState where
  bytes : ℕ
  values : Table String AdmittedImage

def CacheState.new : CacheState := ⟨0, ∅⟩

def isAsciiWhitespace (c : Char) : Bool :=
  c = ' ' ∨ c = '\t' ∨ c = '\n' ∨ c = '\r' ∨ c = Char.ofNat 0x0C

def utf8Length (text : List Char) : ℕ := (text.map Char.utf8Size).sum

variable (config : VisionConfig) (codecs : Codecs)

/-- The dimensions that the decoder of the format finds. -/
def dimensions (format : ImageFormat) (bytes : List UInt8) : Except VisionError Decoded :=
  match codecs.decoder format bytes with
  | none => .error (.malformed format.invalid)
  | some decoded =>
    if format = .gif ∧ codecs.frames bytes > 1 then
      .error (.unsupported "animated GIF images are unsupported")
    else .ok decoded

/-- The checks of an image that has been decoded. -/
def checkImage (bytes : List UInt8) (mimeType : String) (decoded : Decoded) :
    Except VisionError AdmittedImage :=
  if decoded.width > config.maxDimension then
    .error (.exceeded "width" decoded.width config.maxDimension "pixels")
  else if decoded.height > config.maxDimension then
    .error (.exceeded "height" decoded.height config.maxDimension "pixels")
  else
    let pixels := min (decoded.width * decoded.height) u64Max
    if pixels > config.maxTotalPixels then
      .error (.exceeded "total_pixels" pixels config.maxTotalPixels "pixels")
    else .ok ⟨codecs.digest bytes, mimeType, decoded.width, decoded.height, pixels,
      decoded.hasAlpha, bytes⟩

/-- The checks of `admit_base64` before the cache is locked. -/
def inspect (declaredMime : String) (encoded : List Char) : Except VisionError AdmittedImage :=
  if utf8Length encoded > config.maxEncodedBytes then
    .error (.exceeded "encoded_bytes" (utf8Length encoded) config.maxEncodedBytes "bytes")
  else
    match codecs.decodeBase64 (encoded.filter (fun c => !isAsciiWhitespace c)) with
    | none => .error (.malformed "invalid base64 image data")
    | some bytes =>
      if bytes.length > config.maxDecodedBytes then
        .error (.exceeded "decoded_bytes" bytes.length config.maxDecodedBytes "bytes")
      else
        match codecs.guessFormat bytes with
        | none => .error (.unsupported "unsupported image format")
        | some format =>
          match format.mimeType with
          | none =>
            .error (.unsupported "only JPEG, PNG, WebP, and static GIF are supported")
          | some actualMime =>
            if declaredMime ≠ actualMime then
              .error (.malformed
                s!"declared MIME type {declaredMime} does not match {actualMime}")
            else
              match dimensions codecs format bytes with
              | .error e => .error e
              | .ok decoded => checkImage config codecs bytes actualMime decoded

/-- An image that is not in the cache under its digest, or not with its bytes. -/
def store (s : CacheState) (image : AdmittedImage) :
    Except VisionError AdmittedImage × CacheState :=
  let next := min (s.bytes + image.bytes.length) u64Max
  if next > config.retentionCapacity then
    (.error (.exceeded "retention_bytes" next config.retentionCapacity "bytes"), s)
  else (.ok image, ⟨next, s.values.insert image.digest image⟩)

def retain (s : CacheState) (image : AdmittedImage) :
    Except VisionError AdmittedImage × CacheState :=
  match s.values.lookup image.digest with
  | some existing =>
    if existing.bytes = image.bytes then (.ok existing, s) else store config s image
  | none => store config s image

def stripSuffix (ending text : List Char) : Option (List Char) :=
  (stripPrefix ending.reverse text.reverse).map List.reverse

/-- The two ways in. -/
inductive Request
  | base64 (declaredMime : String) (encoded : List Char)
  | dataUri (value : List Char)

/-- A request down to the checks of its image. -/
def Request.inspected : Request → Except VisionError AdmittedImage
  | .base64 declaredMime encoded => inspect config codecs declaredMime encoded
  | .dataUri value =>
    match splitOnce ',' value with
    | none => .error (.malformed "image_url must be a base64 data URI")
    | some (header, encoded) =>
      match (stripPrefix "data:".toList header).bind (stripSuffix ";base64".toList) with
      | none => .error (.malformed "only base64 data URIs are supported")
      | some declared => inspect config codecs (String.ofList declared) encoded

/-- `admit_base64` and `admit_data_uri`. -/
def admitImage (s : CacheState) (request : Request) :
    Except VisionError AdmittedImage × CacheState :=
  match request.inspected config codecs with
  | .error e => (.error e, s)
  | .ok image => retain config s image

def Step (s : CacheState) (request : Request) (s' : CacheState) : Prop :=
  (admitImage config codecs s request).2 = s'

end Model

section Checks

variable {config : VisionConfig} {codecs : Codecs} {image : AdmittedImage}

/-- An image that meets every check. -/
structure Valid (config : VisionConfig) (codecs : Codecs) (image : AdmittedImage) : Prop where
  digest : image.digest = codecs.digest image.bytes
  decoded : image.bytes.length ≤ config.maxDecodedBytes
  format : ∃ format, codecs.guessFormat image.bytes = some format ∧
    format.mimeType = some image.mimeType ∧
    dimensions codecs format image.bytes = .ok ⟨image.width, image.height, image.hasAlpha⟩
  width : image.width ≤ config.maxDimension
  height : image.height ≤ config.maxDimension
  pixels : image.pixels = min (image.width * image.height) u64Max
  few : image.pixels ≤ config.maxTotalPixels

theorem valid_of_checkImage {bytes : List UInt8} {mimeType : String} {decoded : Decoded}
    {format : ImageFormat} (hbytes : bytes.length ≤ config.maxDecodedBytes)
    (hformat : codecs.guessFormat bytes = some format) (hmime : format.mimeType = some mimeType)
    (hdecoded : dimensions codecs format bytes = .ok decoded)
    (h : checkImage config codecs bytes mimeType decoded = .ok image) :
    Valid config codecs image := by
  unfold checkImage at h
  split_ifs at h with hwidth hheight
  dsimp only at h
  split_ifs at h with hpixels
  cases h
  exact ⟨rfl, hbytes, ⟨format, hformat, hmime, hdecoded⟩, Nat.le_of_not_lt hwidth,
    Nat.le_of_not_lt hheight, rfl, Nat.le_of_not_lt hpixels⟩

theorem valid_of_inspect {declaredMime : String} {encoded : List Char}
    (h : inspect config codecs declaredMime encoded = .ok image) : Valid config codecs image := by
  unfold inspect at h
  split_ifs at h
  split at h
  · cases h
  · next bytes hbytes =>
    split_ifs at h with hlong
    split at h
    · cases h
    · next format hformat =>
      split at h
      · cases h
      · next actualMime hmime =>
        split_ifs at h
        split at h
        · cases h
        · next decoded hdecoded =>
          exact valid_of_checkImage (Nat.le_of_not_lt hlong) hformat hmime hdecoded h

theorem valid_of_inspected {request : Request}
    (h : request.inspected config codecs = .ok image) : Valid config codecs image := by
  cases request with
  | base64 declaredMime encoded => exact valid_of_inspect h
  | dataUri value =>
    simp only [Request.inspected] at h
    split at h
    · cases h
    · next header encoded _ =>
      split at h
      · cases h
      · exact valid_of_inspect h

/-- The bytes of a valid image say everything about it. -/
theorem Valid.unique {other : AdmittedImage} (h : Valid config codecs image)
    (hother : Valid config codecs other) (hbytes : image.bytes = other.bytes) : image = other := by
  obtain ⟨format, hguess, hmime, hdecoded⟩ := h.format
  obtain ⟨format', hguess', hmime', hdecoded'⟩ := hother.format
  rw [← hbytes] at hguess' hdecoded'
  obtain rfl := Option.some.inj (hguess.symm.trans hguess')
  have hfields := Except.ok.inj (hdecoded.symm.trans hdecoded')
  have hwidth : image.width = other.width := congrArg Decoded.width hfields
  have hheight : image.height = other.height := congrArg Decoded.height hfields
  have halpha : image.hasAlpha = other.hasAlpha := congrArg Decoded.hasAlpha hfields
  have htype := Option.some.inj (hmime.symm.trans hmime')
  have hdigest : image.digest = other.digest := by rw [h.digest, hother.digest, hbytes]
  have hpixels : image.pixels = other.pixels := by rw [h.pixels, hother.pixels, hwidth, hheight]
  cases image
  cases other
  simp only [AdmittedImage.mk.injEq]
  exact ⟨hdigest, htype, hwidth, hheight, hpixels, halpha, hbytes⟩

end Checks

section Steps

theorem toOption_eq_some {ε α : Type} {x : Except ε α} {a : α} :
    x.toOption = some a ↔ x = .ok a := by
  cases x with
  | error e => simp [Except.toOption]
  | ok b => simp [Except.toOption]

variable {config : VisionConfig} {codecs : Codecs} {s s' : CacheState} {image : AdmittedImage}
  {request : Request}

/-- The bytes of the images retained. -/
def CacheState.retained (s : CacheState) : ℕ :=
  s.values.total (fun _ image => image.bytes.length)

/-- What admitting an image that meets the checks does. -/
theorem retain_cases (config : VisionConfig) (s : CacheState) (image : AdmittedImage) :
    (∃ existing, s.values.lookup image.digest = some existing ∧ existing.bytes = image.bytes ∧
      retain config s image = (.ok existing, s)) ∨
    (∀ existing, s.values.lookup image.digest = some existing → existing.bytes ≠ image.bytes) ∧
      retain config s image = store config s image := by
  unfold retain
  cases hlookup : s.values.lookup image.digest with
  | none =>
    refine Or.inr ⟨?_, rfl⟩
    intro existing h
    cases h
  | some existing =>
    by_cases hsame : existing.bytes = image.bytes
    · exact Or.inl ⟨existing, rfl, hsame, if_pos hsame⟩
    · refine Or.inr ⟨?_, if_neg hsame⟩
      intro other hother
      obtain rfl := Option.some.inj hother
      exact hsame

theorem store_cases (config : VisionConfig) (s : CacheState) (image : AdmittedImage) :
    (∃ e, store config s image = (.error e, s)) ∨
    min (s.bytes + image.bytes.length) u64Max ≤ config.retentionCapacity ∧
      store config s image = (.ok image,
        ⟨min (s.bytes + image.bytes.length) u64Max, s.values.insert image.digest image⟩) := by
  unfold store
  dsimp only
  split_ifs with hroom
  · exact Or.inl ⟨_, rfl⟩
  · exact Or.inr ⟨Nat.le_of_not_lt hroom, rfl⟩

/-- A step leaves the cache as it is or adds the image of its request. -/
theorem admitImage_cases (config : VisionConfig) (codecs : Codecs) (s : CacheState)
    (request : Request) :
    (admitImage config codecs s request).2 = s ∨
    ∃ image, request.inspected config codecs = .ok image ∧
      (∀ existing, s.values.lookup image.digest = some existing →
        existing.bytes ≠ image.bytes) ∧
      min (s.bytes + image.bytes.length) u64Max ≤ config.retentionCapacity ∧
      admitImage config codecs s request = (.ok image,
        ⟨min (s.bytes + image.bytes.length) u64Max, s.values.insert image.digest image⟩) := by
  unfold admitImage
  cases hinspected : request.inspected config codecs with
  | error e => exact Or.inl rfl
  | ok image =>
    dsimp only
    rcases retain_cases config s image with ⟨existing, _, _, hretain⟩ | ⟨hother, hretain⟩
    · rw [hretain]
      exact Or.inl rfl
    · rw [hretain]
      rcases store_cases config s image with ⟨e, hstore⟩ | ⟨hroom, hstore⟩
      · rw [hstore]
        exact Or.inl rfl
      · exact Or.inr ⟨image, rfl, hother, hroom, hstore⟩

/-- What holds of every cache: the count covers the images retained and stays within the
capacity, and every image meets the checks and is found under its digest. -/
structure Sound (config : VisionConfig) (codecs : Codecs) (s : CacheState) : Prop where
  counted : min s.retained u64Max ≤ s.bytes
  within : s.bytes ≤ config.retentionCapacity
  valid : ∀ digest image, s.values.lookup digest = some image →
    image.digest = digest ∧ Valid config codecs image

theorem sound_new (config : VisionConfig) (codecs : Codecs) :
    Sound config codecs CacheState.new where
  counted := by
    have hnone : CacheState.new.retained = 0 := AList.total_empty _
    rw [hnone]
    exact Nat.min_le_left 0 u64Max
  within := Nat.zero_le _
  valid := by
    intro digest image h
    cases h

theorem retained_insert_le (s : CacheState) (image : AdmittedImage) (bytes : ℕ) :
    CacheState.retained ⟨bytes, s.values.insert image.digest image⟩ ≤
      s.retained + image.bytes.length := by
  unfold CacheState.retained
  rw [AList.total_insert]
  have hle := AList.total_erase_le (fun _ image => image.bytes.length) s.values image.digest
  omega

theorem Sound.step (h : Sound config codecs s) (hstep : Step config codecs s request s') :
    Sound config codecs s' := by
  unfold Step at hstep
  rcases admitImage_cases config codecs s request with hsame | ⟨image, himage, _, hroom, hchange⟩
  · rw [← hstep, hsame]
    exact h
  · rw [hchange] at hstep
    subst hstep
    refine ⟨?_, hroom, ?_⟩
    · have hle := retained_insert_le s image (min (s.bytes + image.bytes.length) u64Max)
      have hcounted := h.counted
      dsimp only
      omega
    · intro digest found hfound
      rw [AList.lookup_insert_ite] at hfound
      split_ifs at hfound with hdigest
      · cases hfound
        exact ⟨hdigest.symm, valid_of_inspected himage⟩
      · exact h.valid digest found hfound

/-- The request brings no other bytes under a digest in the cache. -/
def Apart (config : VisionConfig) (codecs : Codecs) (s : CacheState) (request : Request) : Prop :=
  ∀ image existing, request.inspected config codecs = .ok image →
    s.values.lookup image.digest = some existing → existing.bytes = image.bytes

instance (config : VisionConfig) (codecs : Codecs) (s : CacheState) (request : Request) :
    Decidable (Apart config codecs s request) :=
  decidable_of_iff (∀ image ∈ (request.inspected config codecs).toOption,
      ∀ existing ∈ s.values.lookup image.digest, existing.bytes = image.bytes) <| by
    simp only [Apart, Option.mem_def, toOption_eq_some]
    exact ⟨fun h image existing himage => h image himage existing,
      fun h image himage existing => h image existing himage⟩

/-- The count is exact. -/
def Exact (s : CacheState) : Prop := s.bytes = min s.retained u64Max

theorem exact_step (h : Exact s) (hapart : Apart config codecs s request)
    (hstep : Step config codecs s request s') : Exact s' := by
  unfold Step at hstep
  rcases admitImage_cases config codecs s request with hsame | ⟨image, himage, hother, _, hchange⟩
  · rw [← hstep, hsame]
    exact h
  · have hnew : s.values.lookup image.digest = none := by
      by_contra hsome
      obtain ⟨existing, hexisting⟩ := Option.ne_none_iff_exists'.mp hsome
      exact hother existing hexisting (hapart image existing himage hexisting)
    rw [hchange] at hstep
    subst hstep
    have htotal : CacheState.retained ⟨min (s.bytes + image.bytes.length) u64Max,
        s.values.insert image.digest image⟩ = image.bytes.length + s.retained :=
      AList.total_insert_new _ _ _ _ hnew
    unfold Exact at h ⊢
    rw [htotal]
    dsimp only
    omega

/-- The image is in the cache. -/
def Holds (image : AdmittedImage) (s : CacheState) : Prop :=
  s.values.lookup image.digest = some image

theorem holds_step (h : Holds image s) (hapart : Apart config codecs s request)
    (hstep : Step config codecs s request s') :
    Holds image s' := by
  unfold Step at hstep
  rcases admitImage_cases config codecs s request with hsame | ⟨added, hadded, hother, _, hchange⟩
  · rw [← hstep, hsame]
    exact h
  · rw [hchange] at hstep
    subst hstep
    have hne : image.digest ≠ added.digest := by
      intro hsame
      unfold Holds at h
      rw [hsame] at h
      exact hother image h (hapart added image hadded h)
    unfold Holds
    rw [AList.lookup_insert_ne hne]
    exact h

/-- An image is in the cache as soon as it is admitted. -/
theorem holds_admitted (hsound : Sound config codecs s)
    (h : (admitImage config codecs s request).1 = .ok image) :
    Holds image (admitImage config codecs s request).2 := by
  unfold admitImage at h ⊢
  cases hinspected : request.inspected config codecs with
  | error e =>
    rw [hinspected] at h
    cases h
  | ok found =>
    rw [hinspected] at h
    dsimp only at h ⊢
    rcases retain_cases config s found with ⟨existing, hlookup, hbytes, hretain⟩ | ⟨_, hretain⟩
    · rw [hretain] at h ⊢
      cases h
      obtain ⟨hdigest, _⟩ := hsound.valid _ _ hlookup
      unfold Holds
      rw [hdigest]
      exact hlookup
    · rw [hretain] at h ⊢
      rcases store_cases config s found with ⟨e, hstore⟩ | ⟨_, hstore⟩
      · rw [hstore] at h
        cases h
      · rw [hstore] at h ⊢
        cases h
        exact AList.lookup_insert _

/-- The same bytes again are answered with the image in the cache. -/
theorem admit_held (hsound : Sound config codecs s) (h : Holds image s) {again : AdmittedImage}
    (hagain : request.inspected config codecs = .ok again) (hbytes : again.bytes = image.bytes) :
    admitImage config codecs s request = (.ok image, s) := by
  have himage := (hsound.valid _ _ h).2
  obtain rfl := (valid_of_inspected hagain).unique himage hbytes
  unfold admitImage
  rw [hagain]
  dsimp only
  rcases retain_cases config s again with ⟨existing, hlookup, _, hretain⟩ | ⟨hother, _⟩
  · obtain rfl := Option.some.inj (hlookup.symm.trans h)
    exact hretain
  · exact absurd rfl (hother again h)

theorem admitImage_error {e : VisionError} (h : (admitImage config codecs s request).1 = .error e) :
    (admitImage config codecs s request).2 = s := by
  rcases admitImage_cases config codecs s request with hsame | ⟨image, _, _, _, hchange⟩
  · exact hsame
  · rw [hchange] at h
    cases h

end Steps

section Runs

variable (config : VisionConfig) (codecs : Codecs)

theorem sound_of_reaches {s : CacheState} (h : Reaches (Step config codecs) CacheState.new s) :
    Sound config codecs s :=
  h.invariant (Sound config codecs) (fun _ _ _ hs hstep => hs.step hstep)
    (sound_new config codecs)

/-- In every cache that admissions reach, the images retained take no more than the capacity and
meet every check. A refused request changes nothing, and a granted one is answered with an image
that meets every check and is in the cache afterwards. -/
theorem admissions_bounded (s : CacheState)
    (hreach : Reaches (Step config codecs) CacheState.new s) :
    min s.retained u64Max ≤ s.bytes ∧ s.bytes ≤ config.retentionCapacity ∧
      (∀ digest image, s.values.lookup digest = some image →
        image.digest = digest ∧ Valid config codecs image) ∧
      ∀ request,
        (∀ e, (admitImage config codecs s request).1 = .error e →
          (admitImage config codecs s request).2 = s) ∧
        ∀ image, (admitImage config codecs s request).1 = .ok image →
          Valid config codecs image ∧ Holds image (admitImage config codecs s request).2 := by
  have hsound := sound_of_reaches config codecs hreach
  refine ⟨hsound.counted, hsound.within, hsound.valid, ?_⟩
  intro request
  refine ⟨fun e he => admitImage_error he, ?_⟩
  intro image himage
  have hholds := holds_admitted hsound himage
  have hnext : Sound config codecs (admitImage config codecs s request).2 := hsound.step rfl
  exact ⟨(hnext.valid _ _ hholds).2, hholds⟩

/-- As long as no request brings other bytes under a digest in the cache, the count is exact and
an image that was admitted stays: its bytes are answered with it again, and nothing is added. -/
theorem admissions_deduplicated (run : List (Request × CacheState))
    (hrun : IsRun (Step config codecs) CacheState.new run)
    (hapart : Meets (Apart config codecs) CacheState.new run) :
    (∀ x ∈ run, x.2.bytes = min x.2.retained u64Max) ∧
      ∀ before request s after, run = before ++ (request, s) :: after → ∀ image,
        (admitImage config codecs (last CacheState.new before) request).1 = .ok image →
        ∀ request' again, request'.inspected config codecs = .ok again →
          again.bytes = image.bytes →
          admitImage config codecs (last CacheState.new run) request' =
            (.ok image, last CacheState.new run) := by
  constructor
  · have hnew : Exact CacheState.new := by
      have hnone : CacheState.new.retained = 0 := AList.total_empty _
      unfold Exact
      rw [hnone]
      rfl
    have hexact := along_of_meets (Step config codecs) Exact (Apart config codecs)
      (fun _ _ _ hs hcond hstep => exact_step hs hcond hstep) CacheState.new run hnew hrun hapart
    exact hexact
  · rintro before request s after rfl image himage request' again hagain hbytes
    obtain ⟨hbefore, hstep, hafter⟩ := (isRun_append _ _ _ _).mp hrun
    obtain ⟨_, _, hmeets⟩ := (meets_append _ _ _ _).mp hapart
    have hsound := sound_of_reaches config codecs ⟨before, hbefore, rfl⟩
    have hholds := holds_admitted hsound himage
    have hstep' : (admitImage config codecs (last CacheState.new before) request).2 = s := hstep
    rw [hstep'] at hholds
    have hsteps := isRun_of_meets _ _ _ _ hafter hmeets
    have hend := invariant_of_run _ (fun s => Sound config codecs s ∧ Holds image s)
      (fun _ _ _ hs hstep => ⟨hs.1.step hstep.1, holds_step hs.2 hstep.2 hstep.1⟩) s after
      ⟨hsound.step hstep, hholds⟩ hsteps
    have hlast : last CacheState.new (before ++ (request, s) :: after) = last s after :=
      last_append _ _ _
    rw [hlast]
    exact admit_held hend.1 hend.2 hagain hbytes

end Runs

section Pixel

/-- The values of `VisionConfig::default`. -/
def VisionConfig.default : VisionConfig := ⟨16 * 2 ^ 20, 12 * 2 ^ 20, 8192, 32000000, 256 * 2 ^ 20⟩

/-- A GIF of one pixel, white in the second place of its palette. -/
def pixel : List UInt8 :=
  [71, 73, 70, 56, 57, 97, 1, 0, 1, 0, 128, 0, 0, 0, 0, 0, 255, 255, 255, 33, 249, 4, 1, 0, 0,
    0, 0, 44, 0, 0, 0, 0, 1, 0, 1, 0, 0, 2, 1, 68, 0, 59]

def pixelText : List Char := "R0lGODlhAQABAIAAAAAAAP///yH5BAEAAAAALAAAAAABAAEAAAIBRAA7".toList

/-- The pixel with its palette the other way round. -/
def whitePixel : List UInt8 :=
  [71, 73, 70, 56, 57, 97, 1, 0, 1, 0, 128, 0, 0, 255, 255, 255, 0, 0, 0, 33, 249, 4, 1, 0, 0,
    0, 0, 44, 0, 0, 0, 0, 1, 0, 1, 0, 0, 2, 1, 68, 0, 59]

def whitePixelText : List Char :=
  "R0lGODlhAQABAIAAAP///wAAACH5BAEAAAAALAAAAAABAAEAAAIBRAA7".toList

/-- What the crates answer about the two pixels. -/
def pixelCodecs : Codecs where
  decodeBase64 text :=
    if text = pixelText then some pixel
    else if text = whitePixelText then some whitePixel
    else none
  guessFormat bytes := if (pixel.take 6).isPrefixOf bytes then some .gif else none
  decoder format bytes :=
    if format = .gif ∧ (bytes = pixel ∨ bytes = whitePixel) then some ⟨1, 1, true⟩ else none
  frames _ := 1
  digest bytes := hexEncode (Sha256.sha256 bytes).toList

def pixelRequest : Request := .dataUri ("data:image/gif;base64,".toList ++ pixelText)

def whitePixelRequest : Request := .base64 "image/gif" whitePixelText

/-- The pixel under another type, which is refused. -/
def mistypedRequest : Request := .base64 "image/png" pixelText

def pixelCache : CacheState := (admitImage .default pixelCodecs .new pixelRequest).2

def refusedCache : CacheState := (admitImage .default pixelCodecs pixelCache mistypedRequest).2

def pixelsCache : CacheState :=
  (admitImage .default pixelCodecs refusedCache whitePixelRequest).2

def pixelRun : List (Request × CacheState) :=
  [(pixelRequest, pixelCache), (mistypedRequest, refusedCache), (whitePixelRequest, pixelsCache)]

theorem pixel_bounded :
    pixelsCache.bytes = 84 ∧ min pixelsCache.retained u64Max ≤ pixelsCache.bytes ∧
      pixelsCache.bytes ≤ VisionConfig.default.retentionCapacity := by
  have hreach : Reaches (Step .default pixelCodecs) CacheState.new pixelsCache :=
    ⟨pixelRun, ⟨rfl, rfl, rfl, trivial⟩, rfl⟩
  have hbounds := admissions_bounded .default pixelCodecs pixelsCache hreach
  exact ⟨by decide +kernel, hbounds.1, hbounds.2.1⟩

/-- White space within the text makes no other image of it, whatever was admitted since. -/
theorem pixel_deduplicated : ∃ image,
    (admitImage .default pixelCodecs .new pixelRequest).1 = .ok image ∧
      admitImage .default pixelCodecs pixelsCache (.base64 "image/gif" ('\n' :: pixelText)) =
        (.ok image, pixelsCache) := by
  have hrun : IsRun (Step .default pixelCodecs) CacheState.new pixelRun :=
    ⟨rfl, rfl, rfl, trivial⟩
  have hapart : Meets (Apart .default pixelCodecs) CacheState.new pixelRun := by decide +kernel
  have himage : ((admitImage .default pixelCodecs .new pixelRequest).1.toOption.any (fun image =>
      ((Request.base64 "image/gif" ('\n' :: pixelText)).inspected .default
        pixelCodecs).toOption.any (fun again => decide (again.bytes = image.bytes)))) = true := by
    decide +kernel
  obtain ⟨image, hsome, hagain⟩ := (Option.any_eq_true _ _).mp himage
  obtain ⟨again, hinspected, hbytes⟩ := (Option.any_eq_true _ _).mp hagain
  have hadmitted := toOption_eq_some.mp hsome
  have hkept := (admissions_deduplicated .default pixelCodecs _ hrun hapart).2 [] pixelRequest
    pixelCache _ rfl image hadmitted _ again (toOption_eq_some.mp hinspected)
    (of_decide_eq_true hbytes)
  exact ⟨image, hadmitted, hkept⟩

end Pixel

end Cusco.ImageAdmission
