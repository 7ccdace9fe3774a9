import Cusco.HubPaths

/-!
Whether two fetches share a file of the cache. The directory of an artifact forgets where
the slash of its repository stood, and the unfinished download and the stamp forget the
extension of the file; apart from these, different artifacts have different files, and no
path leaves the cache.
-/

namespace Cusco.CachePaths

open UnixPaths HubPaths

/-- The only name of the file of an accepted URI. -/
def fileName (file : List Char) : List Char := (simpleFile file).getD []

def downloadName (name : List Char) : List Char := fileStem name ++ '.' :: "partial".toList

def stampName (name : List Char) : List Char := fileStem name ++ '.' :: "cache.json".toList

/-- The names of an artifact, its unfinished download and its stamp. -/
def artifactNames (name : List Char) : List (List Char) :=
  [name, downloadName name, stampName name]

/-- Two fetches of different artifacts, or of references of different repositories, name
different places, all of them in the cache. -/
structure Separate (cache : Path) (a b : Source) (r q : List Char) : Prop where
  artifacts : (a.repo, r, a.file) ≠ (b.repo, q, b.file) →
    ∀ x ∈ artifactPaths cache a r, ∀ y ∈ artifactPaths cache b q, location x ≠ location y
  references : a.repo ≠ b.repo →
    ∀ x ∈ referencePaths cache a, ∀ y ∈ referencePaths cache b, location x ≠ location y
  inside : ∀ x ∈ artifactPaths cache a r ++ artifactPaths cache b q ++
    referencePaths cache a ++ referencePaths cache b, Inside cache x

/-- What keeps the paths of two fetches apart. -/
structure Distinct (a b : Source) (r q : List Char) : Prop where
  artifacts : (a.repo, r, a.file) = (b.repo, q, b.file) ∨ sanitize a.repo ≠ sanitize b.repo ∨
    r ≠ q ∨ (fileStem (fileName a.file) ≠ fileStem (fileName b.file) ∧
      fileName a.file ≠ stampName (fileName b.file) ∧
      fileName b.file ≠ stampName (fileName a.file))
  references : a.repo = b.repo ∨ isCommit a.revision = true ∨ isCommit b.revision = true ∨
    a.revision ≠ b.revision ∨
    (a.revision ≠ ['.', '.'] ∧ sanitize a.repo ≠ sanitize b.repo)

theorem fileStem_downloadName {name : List Char} (h : name ≠ []) :
    fileStem (downloadName name) = fileStem name :=
  fileStem_append (fileStem_ne_nil h) (by decide) (by decide)

theorem downloadName_ne_stampName (n m : List Char) : downloadName n ≠ stampName m := by
  intro h
  have hlast := congrArg List.getLast? h
  have hdownload : (downloadName n).getLast? = some 'l' := by
    unfold downloadName
    rw [List.getLast?_append]
    rfl
  have hstamp : (stampName m).getLast? = some 'n' := by
    unfold stampName
    rw [List.getLast?_append]
    rfl
  rw [hdownload, hstamp] at hlast
  exact absurd hlast (by decide)

/-- Two artifacts of one directory share no file exactly when their stems differ and neither
is the stamp of the other. -/
theorem artifactNames_apart_iff {n m : List Char} (hn : n ≠ []) (hm : m ≠ []) :
    (∀ x ∈ artifactNames n, ∀ y ∈ artifactNames m, x ≠ y) ↔
      fileStem n ≠ fileStem m ∧ n ≠ stampName m ∧ m ≠ stampName n := by
  simp only [artifactNames, List.forall_mem_cons, List.not_mem_nil, false_implies, implies_true,
    and_true]
  constructor
  · rintro ⟨⟨_, _, hstamp⟩, ⟨_, hdownloads, _⟩, ⟨hstamp', _, _⟩⟩
    refine ⟨?_, hstamp, hstamp'.symm⟩
    intro hstem
    apply hdownloads
    unfold downloadName
    rw [hstem]
  · rintro ⟨hstem, hstamp, hstamp'⟩
    refine ⟨⟨?_, ?_, hstamp⟩, ⟨?_, ?_, downloadName_ne_stampName n m⟩, ⟨hstamp'.symm, ?_, ?_⟩⟩
    · intro h
      exact hstem (congrArg fileStem h)
    · intro h
      apply hstem
      rw [h, fileStem_downloadName hm]
    · intro h
      apply hstem
      rw [← h, fileStem_downloadName hn]
    · intro h
      exact hstem (List.append_cancel_right h)
    · exact (downloadName_ne_stampName m n).symm
    · intro h
      exact hstem (List.append_cancel_right h)

theorem sanitize_append (org model : List Char) :
    sanitize (org ++ '/' :: model) = sanitize org ++ '-' :: '-' :: sanitize model := by
  unfold sanitize
  rw [List.flatMap_append, List.flatMap_cons]
  rfl

theorem slash_notMem_sanitize (repo : List Char) : '/' ∉ sanitize repo := by
  intro h
  obtain ⟨c, _, hc⟩ := List.mem_flatMap.mp h
  by_cases hslash : c = '/'
  · simp [hslash] at hc
  · rw [if_neg hslash] at hc
    exact hslash (List.mem_singleton.mp hc).symm

theorem sanitize_long {source : Source} {org model name : List Char}
    (h : Accepted source org model name) : 2 < (sanitize source.repo).length := by
  have horg : sanitize org ≠ [] := by
    intro hnil
    obtain ⟨c, rest, hcons⟩ := List.exists_cons_of_ne_nil h.org.1
    rw [hcons] at hnil
    unfold sanitize at hnil
    rw [List.flatMap_cons] at hnil
    have hhead := (List.append_eq_nil_iff.mp hnil).1
    by_cases hslash : c = '/'
    · simp [hslash] at hhead
    · simp [hslash] at hhead
  have hpositive := List.length_pos_iff.mpr horg
  rw [h.repo, sanitize_append]
  simp only [List.length_append, List.length_cons]
  omega

theorem join_long (base : Path) {text : List Char} (hslash : '/' ∉ text)
    (hlong : 2 < text.length) : join base text = base ++ [.normal text] := by
  apply join_normal base hslash
  · intro h
    rw [h] at hlong
    simp at hlong
  · intro h
    rw [h] at hlong
    simp at hlong
  · intro h
    rw [h] at hlong
    simp at hlong

theorem artifactPaths_eq (cache : Path) {source : Source} {org model name commit : List Char}
    (h : Accepted source org model name) (hcommit : commit.length = 40 ∧ '/' ∉ commit) :
    artifactPaths cache source commit = (artifactNames name).map (fun file =>
      cache ++ ["models".toList, sanitize source.repo, commit, file].map .normal) := by
  have hdestination : destination cache source commit =
      (cache ++ ["models".toList, sanitize source.repo, commit].map .normal) ++
        [.normal name] := by
    unfold destination
    have hlong : 2 < commit.length := by omega
    rw [join_long cache (by decide) (by decide), join_long _ (slash_notMem_sanitize _)
      (sanitize_long h), join_long _ hcommit.2 hlong]
    rw [join_components (by simp) (head_of_components h.file), h.file]
    simp [List.append_assoc]
  unfold artifactPaths downloadPath stampPath
  rw [hdestination, withExtension_append, withExtension_append]
  simp only [artifactNames, downloadName, stampName, List.map_cons, List.map_nil,
    List.append_assoc, List.cons_append, List.nil_append]

/-- The names below the cache that a reference is kept under. -/
def referenceNames (repo revision : List Char) : List (List Char) :=
  if revision = ['.', '.'] then ["refs".toList]
  else if revision = ['.'] then ["refs".toList, sanitize repo]
  else ["refs".toList, sanitize repo, revision]

theorem location_referencePath (cache : Path) {source : Source} {org model name : List Char}
    (h : Accepted source org model name) :
    location (referencePath cache source.repo source.revision) =
      location cache ++ (referenceNames source.repo source.revision).map .normal := by
  have hdirectory : join (join cache "refs".toList) (sanitize source.repo) =
      cache ++ ["refs".toList, sanitize source.repo].map .normal := by
    rw [join_long cache (by decide) (by decide), join_long _ (slash_notMem_sanitize _)
      (sanitize_long h), List.append_assoc]
    rfl
  have hne : cache ++ ["refs".toList, sanitize source.repo].map .normal ≠ [] := by simp
  have hhead : source.revision.head? ≠ some '/' := by
    intro hroot
    exact h.revision.2 (List.mem_of_mem_head? hroot)
  unfold referencePath referenceNames
  rw [hdirectory]
  by_cases hdots : source.revision = ['.', '.']
  · have hparent : components source.revision = [.parentDir] := by
      rw [hdots]
      decide
    rw [if_pos hdots, join_components hne hhead, hparent]
    have hsplit : (cache ++ ["refs".toList, sanitize source.repo].map .normal) ++
        [Component.parentDir].filter (fun c => c ≠ .curDir) =
        (cache ++ ["refs".toList].map .normal) ++
          [.normal (sanitize source.repo), .parentDir] := by
      simp [List.append_assoc]
    rw [hsplit, location_parent, location_names]
  rw [if_neg hdots]
  by_cases hdot : source.revision = ['.']
  · have hcurrent : components source.revision = [.curDir] := by
      rw [hdot]
      decide
    rw [if_pos hdot, join_components hne hhead, hcurrent]
    have hsame : (cache ++ ["refs".toList, sanitize source.repo].map .normal) ++
        [Component.curDir].filter (fun c => c ≠ .curDir) =
        cache ++ ["refs".toList, sanitize source.repo].map .normal := by
      simp
    rw [hsame, location_names]
  · rw [if_neg hdot, join_normal _ h.revision.2 h.revision.1 hdot hdots, ← location_names]
    simp only [List.map_cons, List.map_nil, List.append_assoc, List.cons_append, List.nil_append]

theorem referenceNames_eq_iff {repo repo' revision revision' : List Char} :
    referenceNames repo revision = referenceNames repo' revision' ↔
      revision = revision' ∧ (revision = ['.', '.'] ∨ sanitize repo = sanitize repo') := by
  unfold referenceNames
  by_cases hdots : revision = ['.', '.']
  · by_cases hdots' : revision' = ['.', '.']
    · simp [hdots, hdots']
    · rw [if_pos hdots, if_neg hdots', hdots]
      have hne : ¬ (['.', '.'] : List Char) = revision' := fun h => hdots' h.symm
      by_cases hdot' : revision' = ['.']
      · simp [hdot']
      · simp [hdot', hne]
  · by_cases hdots' : revision' = ['.', '.']
    · rw [if_neg hdots, if_pos hdots', hdots']
      by_cases hdot : revision = ['.']
      · simp [hdot]
      · simp [hdot, hdots]
    · rw [if_neg hdots, if_neg hdots']
      by_cases hdot : revision = ['.']
      · by_cases hdot' : revision' = ['.']
        · simp [hdot, hdot']
        · have hne : ¬ (['.'] : List Char) = revision' := fun h => hdot' h.symm
          simp [hdot, hdot', hne]
      · by_cases hdot' : revision' = ['.']
        · simp [hdot, hdot']
        · simp only [if_neg hdot, if_neg hdot', hdots, List.cons.injEq, true_and, and_true,
            false_or]
          exact And.comm

theorem mem_artifactPaths {cache : Path} {source : Source} {org model name commit : List Char}
    (h : Accepted source org model name) (hcommit : commit.length = 40 ∧ '/' ∉ commit) (x : Path) :
    x ∈ artifactPaths cache source commit ↔ ∃ file ∈ artifactNames name,
      x = cache ++ ["models".toList, sanitize source.repo, commit, file].map .normal := by
  rw [artifactPaths_eq cache h hcommit, List.mem_map]
  constructor
  · rintro ⟨file, hfile, hx⟩
    exact ⟨file, hfile, hx.symm⟩
  · rintro ⟨file, hfile, hx⟩
    exact ⟨file, hfile, hx.symm⟩

theorem fileName_of_accepted {source : Source} {org model name : List Char}
    (h : Accepted source org model name) : fileName source.file = name := by
  unfold fileName simpleFile
  rw [h.file]
  rfl

theorem name_ne_nil {source : Source} {org model name : List Char}
    (h : Accepted source org model name) : name ≠ [] := by
  have hmem : .normal name ∈ components source.file := by
    rw [h.file]
    exact List.mem_singleton.mpr rfl
  exact (name_of_components hmem).1

/-- Files of two artifacts are at one place exactly when everything but the repository's slash
agrees. -/
theorem artifacts_apart_iff (cache : Path) {a b : Source} {r q : List Char}
    {orgA modelA nameA orgB modelB nameB : List Char} (ha : Accepted a orgA modelA nameA)
    (hb : Accepted b orgB modelB nameB) (hr : r.length = 40 ∧ '/' ∉ r)
    (hq : q.length = 40 ∧ '/' ∉ q) :
    (∀ x ∈ artifactPaths cache a r, ∀ y ∈ artifactPaths cache b q, location x ≠ location y) ↔
      sanitize a.repo ≠ sanitize b.repo ∨ r ≠ q ∨
        ∀ x ∈ artifactNames nameA, ∀ y ∈ artifactNames nameB, x ≠ y := by
  constructor
  · intro h
    by_cases hrepo : sanitize a.repo = sanitize b.repo
    · by_cases hcommit : r = q
      · refine Or.inr (Or.inr ?_)
        intro x hx y hy hsame
        refine h _ ((mem_artifactPaths ha hr _).mpr ⟨x, hx, rfl⟩) _
          ((mem_artifactPaths hb hq _).mpr ⟨y, hy, rfl⟩) ?_
        rw [hrepo, hcommit, hsame]
      · exact Or.inr (Or.inl hcommit)
    · exact Or.inl hrepo
  · intro h x hx y hy hsame
    obtain ⟨file, hfile, rfl⟩ := (mem_artifactPaths ha hr x).mp hx
    obtain ⟨file', hfile', rfl⟩ := (mem_artifactPaths hb hq y).mp hy
    rw [location_names, location_names] at hsame
    have hnames := List.append_cancel_left hsame
    simp only [List.map_cons, List.map_nil, List.cons.injEq, Component.normal.injEq, true_and,
      and_true] at hnames
    obtain ⟨hrepo, hcommit, hname⟩ := hnames
    rcases h with h | h | h
    · exact h hrepo
    · exact h hcommit
    · exact h file hfile file' hfile' hname

theorem references_apart_iff (cache : Path) {a b : Source}
    {orgA modelA nameA orgB modelB nameB : List Char} (ha : Accepted a orgA modelA nameA)
    (hb : Accepted b orgB modelB nameB) :
    (∀ x ∈ referencePaths cache a, ∀ y ∈ referencePaths cache b, location x ≠ location y) ↔
      isCommit a.revision = true ∨ isCommit b.revision = true ∨ a.revision ≠ b.revision ∨
        (a.revision ≠ ['.', '.'] ∧ sanitize a.repo ≠ sanitize b.repo) := by
  unfold referencePaths
  by_cases hcommit : isCommit a.revision = true
  · simp [hcommit]
  by_cases hcommit' : isCommit b.revision = true
  · simp [hcommit']
  rw [if_neg hcommit, if_neg hcommit', List.forall_mem_singleton, List.forall_mem_singleton,
    location_referencePath cache ha, location_referencePath cache hb]
  have hcancel : location cache ++ (referenceNames a.repo a.revision).map Component.normal =
      location cache ++ (referenceNames b.repo b.revision).map Component.normal ↔
      referenceNames a.repo a.revision = referenceNames b.repo b.revision := by
    rw [List.append_cancel_left_eq]
    exact List.map_inj_right (fun _ _ h => Component.normal.inj h)
  rw [ne_eq, hcancel, referenceNames_eq_iff]
  simp only [hcommit, hcommit', false_or, not_and_or, not_or, ne_eq, Bool.false_eq_true]

theorem inside_artifactPaths (cache : Path) {source : Source}
    {org model name commit : List Char} (h : Accepted source org model name)
    (hcommit : commit.length = 40 ∧ '/' ∉ commit) :
    ∀ x ∈ artifactPaths cache source commit, Inside cache x := by
  intro x hx
  obtain ⟨file, _, rfl⟩ := (mem_artifactPaths h hcommit x).mp hx
  exact inside_names cache (List.cons_ne_nil _ _)

theorem inside_referencePaths (cache : Path) {source : Source} {org model name : List Char}
    (h : Accepted source org model name) : ∀ x ∈ referencePaths cache source, Inside cache x := by
  intro x hx
  unfold referencePaths at hx
  by_cases hcommit : isCommit source.revision = true
  · rw [if_pos hcommit] at hx
    cases hx
  · rw [if_neg hcommit] at hx
    rw [List.mem_singleton.mp hx]
    refine ⟨_, ?_, location_referencePath cache h⟩
    unfold referenceNames
    intro hnil
    have hnames := List.map_eq_nil_iff.mp hnil
    split at hnames
    · cases hnames
    · split at hnames
      · cases hnames
      · cases hnames

/-- The paths of two fetches are separate exactly when the merged names keep them apart. -/
theorem paths_separate_iff (cache : Path) {uri uri' : List Char} {a b : Source}
    {r q : List Char} (ha : parseHf uri = .ok a) (hb : parseHf uri' = .ok b)
    (hr : Resolves a.revision r) (hq : Resolves b.revision q) :
    Separate cache a b r q ↔ Distinct a b r q := by
  obtain ⟨orgA, modelA, nameA, ha⟩ := accepted_of_parseHf ha
  obtain ⟨orgB, modelB, nameB, hb⟩ := accepted_of_parseHf hb
  replace hr := commit_of_resolves hr
  replace hq := commit_of_resolves hq
  have hartifacts := artifacts_apart_iff cache ha hb hr hq
  rw [artifactNames_apart_iff (name_ne_nil ha) (name_ne_nil hb)] at hartifacts
  have hreferences := references_apart_iff cache ha hb
  constructor
  · intro h
    constructor
    · rw [fileName_of_accepted ha, fileName_of_accepted hb]
      by_cases hsame : (a.repo, r, a.file) = (b.repo, q, b.file)
      · exact Or.inl hsame
      · exact Or.inr (hartifacts.mp (h.artifacts hsame))
    · by_cases hsame : a.repo = b.repo
      · exact Or.inl hsame
      · exact Or.inr (hreferences.mp (h.references hsame))
  · intro h
    have hdistinct := h.artifacts
    rw [fileName_of_accepted ha, fileName_of_accepted hb] at hdistinct
    refine ⟨?_, ?_, ?_⟩
    · intro hne
      exact hartifacts.mpr (hdistinct.resolve_left hne)
    · intro hne
      exact hreferences.mpr (h.references.resolve_left hne)
    · intro x hx
      simp only [List.mem_append] at hx
      rcases hx with ((hx | hx) | hx) | hx
      · exact inside_artifactPaths cache ha hr x hx
      · exact inside_artifactPaths cache hb hq x hx
      · exact inside_referencePaths cache ha x hx
      · exact inside_referencePaths cache hb x hx

/-- A commit of forty equal digits. -/
def smallCommit : List Char := List.replicate 40 'a'

/-- The Hub answers the small commit. -/
theorem resolves_small {revision : List Char} (h : isCommit revision = false) :
    Resolves revision smallCommit := by
  refine ⟨⟨none, .ok (some smallCommit), .ok ()⟩, ?_⟩
  unfold resolveRevision
  rw [if_neg (by rw [h]; decide)]
  decide

def smallCache : Path := components "/models/hub".toList

/-- A source of the main branch. -/
def mainSource (repo file : String) : Source := ⟨repo.toList, "main".toList, file.toList⟩

theorem two_files_separate :
    parseHf "hf://models/o/m/x.gguf".toList = .ok (mainSource "o/m" "x.gguf") ∧
    parseHf "hf://o/m@main/y.gguf".toList = .ok (mainSource "o/m" "y.gguf") ∧
    Separate smallCache (mainSource "o/m" "x.gguf") (mainSource "o/m" "y.gguf") smallCommit
      smallCommit := by
  have hx : parseHf "hf://models/o/m/x.gguf".toList = .ok (mainSource "o/m" "x.gguf") := by
    decide +kernel
  have hy : parseHf "hf://o/m@main/y.gguf".toList = .ok (mainSource "o/m" "y.gguf") := by
    decide +kernel
  have hmain : isCommit "main".toList = false := by decide
  refine ⟨hx, hy, ?_⟩
  refine (paths_separate_iff smallCache hx hy (resolves_small hmain)
    (resolves_small hmain)).mpr ⟨?_, Or.inl rfl⟩
  refine Or.inr (Or.inr (Or.inr ?_))
  decide +kernel

/-- Files that differ in their extension share the unfinished download, and repositories that
differ in the place of their slash share everything. -/
theorem paths_merge :
    (parseHf "hf://o/m/x.gguf".toList = .ok (mainSource "o/m" "x.gguf") ∧
      parseHf "hf://o/m/x.bin".toList = .ok (mainSource "o/m" "x.bin") ∧
      Resolves "main".toList smallCommit ∧
      downloadPath (destination smallCache (mainSource "o/m" "x.gguf") smallCommit) =
        downloadPath (destination smallCache (mainSource "o/m" "x.bin") smallCommit) ∧
      ¬ Separate smallCache (mainSource "o/m" "x.gguf") (mainSource "o/m" "x.bin") smallCommit
        smallCommit) ∧
    (parseHf "hf://a--b/c/x.gguf".toList = .ok (mainSource "a--b/c" "x.gguf") ∧
      parseHf "hf://a/b--c/x.gguf".toList = .ok (mainSource "a/b--c" "x.gguf") ∧
      destination smallCache (mainSource "a--b/c" "x.gguf") smallCommit =
        destination smallCache (mainSource "a/b--c" "x.gguf") smallCommit ∧
      referencePath smallCache "a--b/c".toList "main".toList =
        referencePath smallCache "a/b--c".toList "main".toList ∧
      ¬ Separate smallCache (mainSource "a--b/c" "x.gguf") (mainSource "a/b--c" "x.gguf")
        smallCommit smallCommit) := by
  have hmain : isCommit "main".toList = false := by decide
  have hdownload :
      downloadPath (destination smallCache (mainSource "o/m" "x.gguf") smallCommit) =
        downloadPath (destination smallCache (mainSource "o/m" "x.bin") smallCommit) := by
    decide +kernel
  have hdestination : destination smallCache (mainSource "a--b/c" "x.gguf") smallCommit =
      destination smallCache (mainSource "a/b--c" "x.gguf") smallCommit := by
    decide +kernel
  refine ⟨⟨by decide +kernel, by decide +kernel, resolves_small hmain, hdownload, ?_⟩,
    by decide +kernel, by decide +kernel, hdestination, by decide +kernel, ?_⟩
  · intro h
    refine h.artifacts (by decide) _ (List.mem_cons_of_mem _ List.mem_cons_self) _
      (List.mem_cons_of_mem _ List.mem_cons_self) (congrArg location hdownload)
  · intro h
    exact h.artifacts (by decide) _ List.mem_cons_self _ List.mem_cons_self
      (congrArg location hdestination)

end Cusco.CachePaths
