import Mathlib.Data.Nat.Notation
import Mathlib.Tactic.Common

/-!
Paths as the components of their text. Empty components and inner dots are dropped when a
text is read; a parent component is kept until a path is located, which cancels it against
the name before it. The extension of a file name starts at its last dot, unless that is also
its first letter.
-/

namespace Cusco.UnixPaths

inductive Component
  | rootDir
  | curDir
  | parentDir
  | normal (name : List Char)
  deriving DecidableEq

abbrev Path := List Component

/-- A component after the first; dots for the same directory are dropped. -/
def inner (segment : List Char) : Option Component :=
  if segment = [] then none
  else if segment = ['.'] then none
  else if segment = ['.', '.'] then some .parentDir
  else some (.normal segment)

/-- The first component of a text that is not empty. -/
def leading (segment : List Char) : Option Component :=
  if segment = [] then some .rootDir
  else if segment = ['.'] then some .curDir
  else inner segment

def components (text : List Char) : Path :=
  if text = [] then []
  else
    match text.splitOn '/' with
    | [] => []
    | first :: rest => (leading first).toList ++ rest.filterMap inner

/-- A text that starts at the root replaces the path. -/
def join (base : Path) (text : List Char) : Path :=
  if text.head? = some '/' then components text
  else if base = [] then components text
  else base ++ (components text).filter (fun c => c ≠ .curDir)

/-- What stands before the last dot, and after it. -/
def splitAtDot (name : List Char) : List Char × List Char :=
  ((name.reverse.dropWhile (· ≠ '.')).tail.reverse,
    (name.reverse.takeWhile (· ≠ '.')).reverse)

def fileStem (name : List Char) : List Char :=
  if name = ['.', '.'] ∨ '.' ∉ name ∨ (splitAtDot name).1 = [] then name
  else (splitAtDot name).1

def withExtension (path : Path) (extension : List Char) : Path :=
  match path.getLast? with
  | some (.normal name) => path.dropLast ++ [.normal (fileStem name ++ '.' :: extension)]
  | _ => path

/-- The components of a directory after one more. -/
def enter (directory : Path) : Component → Path
  | .curDir => directory
  | .parentDir =>
    match directory.getLast? with
    | some (.normal _) => directory.dropLast
    | some .rootDir => directory
    | _ => directory ++ [.parentDir]
  | c => directory ++ [c]

/-- The place that a path names, as far as its text tells. -/
def location (path : Path) : Path := path.foldl enter []

/-- Below a directory, and not the directory itself. -/
def Inside (directory path : Path) : Prop :=
  ∃ rest, rest ≠ [] ∧ location path = location directory ++ rest

theorem components_plain {text : List Char} (hslash : '/' ∉ text) (hne : text ≠ []) :
    components text = (leading text).toList := by
  unfold components
  rw [if_neg hne, List.splitOn_eq_singleton hslash]
  simp only [List.filterMap_nil, List.append_nil]

theorem components_normal {text : List Char} (hslash : '/' ∉ text) (hne : text ≠ [])
    (hdot : text ≠ ['.']) (hdots : text ≠ ['.', '.']) :
    components text = [.normal text] := by
  rw [components_plain hslash hne]
  unfold leading inner
  rw [if_neg hne, if_neg hdot, if_neg hne, if_neg hdot, if_neg hdots]
  rfl

theorem components_root (rest : List Char) :
    ∃ names, components ('/' :: rest) = .rootDir :: names := by
  unfold components
  rw [if_neg (List.cons_ne_nil '/' rest), List.splitOn_cons_eq_if_modifyHead]
  exact ⟨_, rfl⟩

/-- A text of one name does not start at the root. -/
theorem head_of_components {text name : List Char} (h : components text = [.normal name]) :
    text.head? ≠ some '/' := by
  cases text with
  | nil => simp
  | cons c rest =>
    intro hhead
    obtain ⟨names, hroot⟩ := components_root rest
    rw [Option.some.inj hhead, hroot] at h
    cases h

theorem join_components {base : Path} {text : List Char} (hbase : base ≠ [])
    (hslash : text.head? ≠ some '/') :
    join base text = base ++ (components text).filter (fun c => c ≠ .curDir) := by
  unfold join
  rw [if_neg hslash, if_neg hbase]

theorem join_normal {text : List Char} (base : Path) (hslash : '/' ∉ text) (hne : text ≠ [])
    (hdot : text ≠ ['.']) (hdots : text ≠ ['.', '.']) :
    join base text = base ++ [.normal text] := by
  have hhead : text.head? ≠ some '/' := by
    intro h
    exact hslash (List.mem_of_mem_head? h)
  unfold join
  rw [if_neg hhead, components_normal hslash hne hdot hdots]
  by_cases hbase : base = []
  · rw [if_pos hbase, hbase, List.nil_append]
  · rw [if_neg hbase]
    rfl

/-- The names in a text are neither empty nor dots. -/
theorem name_of_components {text name : List Char} (h : .normal name ∈ components text) :
    name ≠ [] ∧ name ≠ ['.'] ∧ name ≠ ['.', '.'] := by
  have hinner : ∀ {segment : List Char}, inner segment = some (.normal name) →
      name ≠ [] ∧ name ≠ ['.'] ∧ name ≠ ['.', '.'] := by
    intro segment hsegment
    unfold inner at hsegment
    by_cases hne : segment = []
    · rw [if_pos hne] at hsegment
      cases hsegment
    rw [if_neg hne] at hsegment
    by_cases hdot : segment = ['.']
    · rw [if_pos hdot] at hsegment
      cases hsegment
    rw [if_neg hdot] at hsegment
    by_cases hdots : segment = ['.', '.']
    · rw [if_pos hdots] at hsegment
      cases hsegment
    rw [if_neg hdots] at hsegment
    cases hsegment
    exact ⟨hne, hdot, hdots⟩
  unfold components at h
  by_cases hempty : text = []
  · rw [if_pos hempty] at h
    cases h
  rw [if_neg hempty] at h
  cases hsplit : text.splitOn '/' with
  | nil =>
    rw [hsplit] at h
    cases h
  | cons first rest =>
    rw [hsplit] at h
    rcases List.mem_append.mp h with hfirst | hrest
    · have hleading := Option.mem_toList.mp hfirst
      unfold leading at hleading
      by_cases hroot : first = []
      · rw [if_pos hroot] at hleading
        cases hleading
      rw [if_neg hroot] at hleading
      by_cases hdot : first = ['.']
      · rw [if_pos hdot] at hleading
        cases hleading
      rw [if_neg hdot] at hleading
      exact hinner hleading
    · obtain ⟨segment, _, hsegment⟩ := List.mem_filterMap.mp hrest
      exact hinner hsegment

theorem splitAtDot_append (stem : List Char) {extension : List Char} (h : '.' ∉ extension) :
    splitAtDot (stem ++ '.' :: extension) = (stem, extension) := by
  have hrun : ∀ c ∈ extension.reverse, (decide (c ≠ '.')) = true := by
    intro c hc
    have hne : c ≠ '.' := by
      intro heq
      rw [heq] at hc
      exact h (List.mem_reverse.mp hc)
    exact decide_eq_true hne
  unfold splitAtDot
  simp only [List.reverse_append, List.reverse_cons, List.append_assoc, List.singleton_append]
  rw [List.dropWhile_append_of_pos hrun, List.takeWhile_append_of_pos hrun]
  simp

theorem fileStem_append {stem extension : List Char} (hstem : stem ≠ [])
    (hextension : '.' ∉ extension) (hne : extension ≠ []) :
    fileStem (stem ++ '.' :: extension) = stem := by
  have hsplit := splitAtDot_append stem hextension
  have hlong : stem ++ '.' :: extension ≠ ['.', '.'] := by
    intro h
    have hlength := congrArg List.length h
    have hpositive := List.length_pos_iff.mpr hstem
    have hpositive' := List.length_pos_iff.mpr hne
    simp only [List.length_append, List.length_cons, List.length_nil] at hlength
    omega
  unfold fileStem
  rw [hsplit, if_neg]
  intro h
  rcases h with h | h | h
  · exact hlong h
  · exact h (List.mem_append_right _ List.mem_cons_self)
  · exact hstem h

theorem fileStem_ne_nil {name : List Char} (h : name ≠ []) : fileStem name ≠ [] := by
  unfold fileStem
  by_cases hcases : name = ['.', '.'] ∨ '.' ∉ name ∨ (splitAtDot name).1 = []
  · rw [if_pos hcases]
    exact h
  · rw [if_neg hcases]
    intro hnil
    exact hcases (Or.inr (Or.inr hnil))

theorem withExtension_append (directory : Path) (name extension : List Char) :
    withExtension (directory ++ [.normal name]) extension =
      directory ++ [.normal (fileStem name ++ '.' :: extension)] := by
  unfold withExtension
  rw [List.getLast?_concat]
  simp only [List.dropLast_concat]

theorem location_append (base rest : Path) :
    location (base ++ rest) = rest.foldl enter (location base) := by
  unfold location
  rw [List.foldl_append]

theorem enter_names (directory : Path) (names : List (List Char)) :
    (names.map Component.normal).foldl enter directory = directory ++ names.map .normal := by
  induction names generalizing directory with
  | nil => exact (List.append_nil _).symm
  | cons name names ih =>
    rw [List.map_cons, List.foldl_cons, ih]
    simp only [enter, List.append_assoc, List.singleton_append]

theorem location_names (base : Path) (names : List (List Char)) :
    location (base ++ names.map .normal) = location base ++ names.map .normal := by
  rw [location_append, enter_names]

theorem location_parent (base : Path) (name : List Char) :
    location (base ++ [.normal name, .parentDir]) = location base := by
  rw [location_append]
  simp only [List.foldl_cons, List.foldl_nil, enter, List.getLast?_concat, List.dropLast_concat]

theorem inside_names (base : Path) {names : List (List Char)} (h : names ≠ []) :
    Inside base (base ++ names.map .normal) := by
  refine ⟨names.map .normal, ?_, location_names base names⟩
  intro hnil
  exact h (List.map_eq_nil_iff.mp hnil)

end Cusco.UnixPaths
