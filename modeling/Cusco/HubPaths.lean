import Cusco.UnixPaths
import Mathlib.Data.List.TakeWhile

/-!
Paths of the Hub cache. A URI names a repository, a revision and a file; the revision is
resolved to a commit, through a reference file or the Hub, and the artifact, its unfinished
download and its stamp are files of one directory per repository and commit.
-/

namespace Cusco.HubPaths

open UnixPaths

inductive Error
  | invalidUri
  | io
  | http
  | json
  deriving DecidableEq

def stripPrefix (start text : List Char) : Option (List Char) :=
  if start.isPrefixOf text then some (text.drop start.length) else none

/-- `split_once`, at the first separator. -/
def splitOnce (separator : Char) (text : List Char) : Option (List Char × List Char) :=
  if separator ∈ text then
    some (text.takeWhile (· ≠ separator), (text.dropWhile (· ≠ separator)).tail)
  else none

/-- `rsplit_once`, at the last separator. -/
def rsplitOnce (separator : Char) (text : List Char) : Option (List Char × List Char) :=
  if separator ∈ text then
    some ((text.reverse.dropWhile (· ≠ separator)).tail.reverse,
      (text.reverse.takeWhile (· ≠ separator)).reverse)
  else none

/-- The repository, the requested revision and the file that a URI names. -/
structure Source where
  repo : List Char
  revision : List Char
  file : List Char
  deriving DecidableEq

/-- The only component of the file, if there is one and it is a name. -/
def simpleFile (file : List Char) : Option (List Char) :=
  match components file with
  | [.normal name] => some name
  | _ => none

def parseHf (uri : List Char) : Except Error Source :=
  match (stripPrefix "hf://models/".toList uri).or (stripPrefix "hf://".toList uri) with
  | none => .error .invalidUri
  | some rest =>
    match splitOnce '/' rest with
    | none => .error .invalidUri
    | some (org, remainder) =>
      match splitOnce '/' remainder with
      | none => .error .invalidUri
      | some (modelRevision, file) =>
        let (model, revision) :=
          (rsplitOnce '@' modelRevision).getD (modelRevision, "main".toList)
        if org = [] ∨ model = [] ∨ revision = [] ∨ '/' ∈ revision ∨ file = [] ∨
            simpleFile file = none then .error .invalidUri
        else .ok ⟨org ++ '/' :: model, revision, file⟩

def isAsciiHexdigit (c : Char) : Bool :=
  ('0' ≤ c && c ≤ '9') || ('a' ≤ c && c ≤ 'f') || ('A' ≤ c && c ≤ 'F')

/-- Forty hexadecimal digits. -/
def isCommit (text : List Char) : Bool := text.length = 40 && text.all isAsciiHexdigit

/-- The Unicode property that `trim` goes by. -/
def isWhiteSpace (c : Char) : Bool :=
  c.toNat ∈ [9, 10, 11, 12, 13, 32, 0x85, 0xA0, 0x1680, 0x2028, 0x2029, 0x202F, 0x205F, 0x3000] ||
    (0x2000 ≤ c.toNat && c.toNat ≤ 0x200A)

def trim (text : List Char) : List Char :=
  ((text.dropWhile isWhiteSpace).reverse.dropWhile isWhiteSpace).reverse

/-- `repo.replace('/', "--")`. -/
def sanitize (repo : List Char) : List Char :=
  repo.flatMap (fun c => if c = '/' then ['-', '-'] else [c])

def referencePath (cache : Path) (repo revision : List Char) : Path :=
  join (join (join cache "refs".toList) (sanitize repo)) revision

/-- What the reference file holds, if it can be read, the `sha` that the Hub answers, and
whether the directory and the file of the reference can be written. -/
structure Answers where
  stored : Option (List Char)
  hub : Except Error (Option (List Char))
  written : Except Error Unit

def resolveRevision (a : Answers) (revision : List Char) : Except Error (List Char) :=
  if isCommit revision then .ok (revision.map Char.toLower)
  else
    match (a.stored.map trim).filter isCommit with
    | some value => .ok (value.map Char.toLower)
    | none =>
      match a.hub with
      | .error e => .error e
      | .ok none => .error .invalidUri
      | .ok (some sha) =>
        if isCommit sha then
          match a.written with
          | .error e => .error e
          | .ok _ => .ok (sha.map Char.toLower)
        else .error .invalidUri

/-- A commit that the revision may be resolved to. -/
def Resolves (revision commit : List Char) : Prop :=
  ∃ a, resolveRevision a revision = .ok commit

def destination (cache : Path) (source : Source) (commit : List Char) : Path :=
  join (join (join (join cache "models".toList) (sanitize source.repo)) commit) source.file

/-- Where the download is collected, until it is renamed. -/
def downloadPath (destination : Path) : Path := withExtension destination "partial".toList

def stampPath (destination : Path) : Path := withExtension destination "cache.json".toList

/-- The files of an artifact. -/
def artifactPaths (cache : Path) (source : Source) (commit : List Char) : List Path :=
  [destination cache source commit, downloadPath (destination cache source commit),
    stampPath (destination cache source commit)]

/-- The reference that resolves the revision, unless it is a commit itself. -/
def referencePaths (cache : Path) (source : Source) : List Path :=
  if isCommit source.revision then [] else [referencePath cache source.repo source.revision]

/-- The parts of an accepted URI. -/
structure Accepted (source : Source) (org model name : List Char) : Prop where
  repo : source.repo = org ++ '/' :: model
  org : org ≠ [] ∧ '/' ∉ org
  model : model ≠ [] ∧ '/' ∉ model
  revision : source.revision ≠ [] ∧ '/' ∉ source.revision
  file : components source.file = [.normal name]

theorem of_splitOnce {separator : Char} {text before after : List Char}
    (h : splitOnce separator text = some (before, after)) : separator ∉ before := by
  unfold splitOnce at h
  by_cases hmem : separator ∈ text
  · rw [if_pos hmem] at h
    cases h
    intro hbefore
    have hkept := List.mem_takeWhile_imp hbefore
    simp at hkept
  · rw [if_neg hmem] at h
    cases h

theorem of_rsplitOnce {separator : Char} {text before after : List Char}
    (h : rsplitOnce separator text = some (before, after)) :
    ∀ c, c ∈ before → c ∈ text := by
  unfold rsplitOnce at h
  by_cases hmem : separator ∈ text
  · rw [if_pos hmem] at h
    cases h
    intro c hc
    have hdropped := List.mem_of_mem_tail (List.mem_reverse.mp hc)
    exact List.mem_reverse.mp ((List.dropWhile_sublist _).subset hdropped)
  · rw [if_neg hmem] at h
    cases h

theorem of_simpleFile {file : List Char} (h : simpleFile file ≠ none) :
    ∃ name, components file = [.normal name] := by
  unfold simpleFile at h
  split at h
  · next name hfile => exact ⟨name, hfile⟩
  · exact absurd rfl h

/-- An accepted URI has a repository of two names, a revision and a file of one name. -/
theorem accepted_of_parseHf {uri : List Char} {source : Source} (h : parseHf uri = .ok source) :
    ∃ org model name, Accepted source org model name := by
  unfold parseHf at h
  split at h
  · cases h
  split at h
  · cases h
  next rest hrest org remainder hsplit =>
  split at h
  · cases h
  next modelRevision file hsplit' =>
  obtain ⟨⟨model, revision⟩, hparts⟩ : ∃ parts, parts =
      (rsplitOnce '@' modelRevision).getD (modelRevision, "main".toList) := ⟨_, rfl⟩
  rw [← hparts] at h
  simp only at h
  by_cases hbad : org = [] ∨ model = [] ∨ revision = [] ∨ '/' ∈ revision ∨ file = [] ∨
      simpleFile file = none
  · rw [if_pos hbad] at h
    cases h
  rw [if_neg hbad] at h
  cases h
  simp only [not_or] at hbad
  obtain ⟨horg, hmodel, hrevision, hslash, _, hsimple⟩ := hbad
  obtain ⟨name, hname⟩ := of_simpleFile hsimple
  have hmodelSlash : '/' ∉ model := by
    intro hmem
    apply of_splitOnce hsplit'
    cases hat : rsplitOnce '@' modelRevision with
    | none =>
      rw [hat] at hparts
      cases hparts
      exact hmem
    | some parts =>
      rw [hat] at hparts
      cases hparts
      exact of_rsplitOnce hat '/' hmem
  exact ⟨org, model, name, rfl, ⟨horg, of_splitOnce hsplit⟩, ⟨hmodel, hmodelSlash⟩,
    ⟨hrevision, hslash⟩, hname⟩

theorem toLower_ne_slash {c : Char} (h : isAsciiHexdigit c = true) : c.toLower ≠ '/' := by
  have hall : ∀ n < 103, isAsciiHexdigit (Char.ofNat n) = true →
      (Char.ofNat n).toLower ≠ '/' := by decide
  have hbound : c.toNat < 103 := by
    unfold isAsciiHexdigit at h
    simp only [Bool.or_eq_true, Bool.and_eq_true, decide_eq_true_eq, Char.le_def,
      UInt32.le_iff_toNat_le] at h
    have hlast : 'f'.val.toNat = 102 ∧ '9'.val.toNat = 57 ∧ 'F'.val.toNat = 70 := by decide
    change c.val.toNat < 103
    omega
  have hc := hall c.toNat hbound
  rw [Char.ofNat_toNat] at hc
  exact hc h

/-- A commit in lower case is a name of its own. -/
theorem commit_plain {text : List Char} (h : isCommit text = true) :
    (text.map Char.toLower).length = 40 ∧ '/' ∉ text.map Char.toLower := by
  unfold isCommit at h
  obtain ⟨hlength, hdigits⟩ := Bool.and_eq_true_iff.mp h
  refine ⟨?_, ?_⟩
  · rw [List.length_map]
    exact of_decide_eq_true hlength
  · intro hslash
    obtain ⟨c, hc, hlower⟩ := List.mem_map.mp hslash
    exact toLower_ne_slash (List.all_eq_true.mp hdigits c hc) hlower

theorem commit_of_resolves {revision commit : List Char} (h : Resolves revision commit) :
    commit.length = 40 ∧ '/' ∉ commit := by
  obtain ⟨a, h⟩ := h
  unfold resolveRevision at h
  by_cases hcommit : isCommit revision = true
  · rw [if_pos hcommit] at h
    cases h
    exact commit_plain hcommit
  rw [if_neg hcommit] at h
  split at h
  · next value hstored =>
    cases h
    exact commit_plain (Option.filter_eq_some_iff.mp hstored).2
  · split at h
    · cases h
    · cases h
    · next sha _ =>
      by_cases hsha : isCommit sha = true
      · rw [if_pos hsha] at h
        split at h
        · cases h
        · cases h
          exact commit_plain hsha
      · rw [if_neg hsha] at h
        cases h

end Cusco.HubPaths
