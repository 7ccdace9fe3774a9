import Cusco.MeasuredProfiles
import Cusco.Sha256

/-!
Loading a model again and again. A load publishes what it measured, with headroom for its
device bytes next to it; the profile read back counts the headroom as measured, so that the
next load adds headroom to headroom. Below twenty device bytes there is no headroom and the
profile is a fixed point of publishing and loading.
-/

namespace Cusco.ProfileStability

open Admission (ControlState Error)
open Calls Residency MeasuredProfiles Runs

variable {settings : Settings}

/-- A load, from the engine as the unloading and everything else left it. -/
structure Cycle where
  engine : Engine
  answers : Answers

section Observations

variable (settings : Settings) (model : Model)

/-- A load that succeeds, of a model that is not resident. The row of the model in the
catalog is the one of the cycle before, and the loader returns the same point each time. -/
structure Reloads (loaded : OperatingPoint) (before : Profiles) (c : Cycle) (after : Profiles) :
    Prop where
  row : ∃ rows, c.engine.catalog = some rows ∧
    rows.lookup (profileKey settings model) = before.lookup (profileKey settings model)
  unloaded : c.engine.state.entries.lookup model.record.key = none
  sorted : c.engine.state.SortedIdle (idleFor c.engine.state model.record) c.answers.idle
  loader : c.answers.loaded = .ok loaded
  returned : ∃ m e', (load settings model c.answers).run c.engine = .returns (.ok m) e' ∧
    e'.catalog = some after

/-- The estimate that a cycle is admitted by. -/
def admission (c : Cycle) : Option OperatingPoint :=
  match (estimate settings c.answers.query c.answers.file model).run c.engine with
  | .returns (.ok point) _ => some point
  | _ => none

/-- The point that a cycle enters the model with. -/
def admitted (c : Cycle) : Option Point :=
  match (load settings model c.answers).run c.engine with
  | .returns (.ok m) e' => some (e'.state.model m).point
  | _ => none

end Observations

/-- A point needs no more bytes than another. -/
structure Within (p q : Point) : Prop where
  model : p.modelBytes ≤ q.modelBytes
  context : p.contextBytes ≤ q.contextBytes
  device : p.deviceBytes ≤ q.deviceBytes
  host : p.hostBytes ≤ q.hostBytes

/-- What a sequence of cycles should keep: the profile that the first one published, room for
the cached point where the first was admitted, and estimates that do not grow. -/
structure Stable (settings : Settings) (model : Model) (first : Cycle) (after : Profiles)
    (rest : List (Cycle × Profiles)) : Prop where
  published : ∀ x ∈ rest, x.2.lookup (profileKey settings model) =
    after.lookup (profileKey settings model)
  readmitted : ∀ x ∈ rest, ∃ cached,
    (cachedProfile settings none model).run x.1.engine =
      .returns (.ok (some cached)) x.1.engine ∧
    ∀ p, admitted settings model first = some p → Within cached.toPoint p
  estimates : (first :: rest.map Prod.fst).Pairwise (fun c d => ∀ p q,
    admission settings model c = some p → admission settings model d = some q →
      Within q.toPoint p.toPoint)

/-- What the catalog or else the configuration reserves before the first load covers what
the loader reports, with fewer than twenty bytes on the device. -/
def Covers (settings : Settings) (model : Model) (loaded : OperatingPoint) (first : Cycle) :
    Prop :=
  ∀ rows, first.engine.catalog = some rows →
    match reusable settings model rows with
    | some p =>
      loaded.modelBytes ≤ p.modelBytes ∧ loaded.contextBytes ≤ p.contextStateBytes ∧
        loaded.deviceBytes ≤
          p.deviceModelBytes + p.deviceExecutionReserveBytes + p.allocatorHeadroomBytes ∧
        p.deviceModelBytes + p.deviceExecutionReserveBytes + p.allocatorHeadroomBytes < 20 ∧
        loaded.hostBytes ≤ p.hostModelBytes + p.hostStagingBytes
    | none => ∀ bytes, declaredBytes model.record first.answers.file = .ok bytes →
      loaded.modelBytes ≤ bytes ∧ loaded.contextBytes ≤ settings.config.contextReserveBytes ∧
        loaded.deviceBytes = 0 ∧
        loaded.hostBytes ≤ saturatingAdd bytes settings.config.contextReserveBytes

theorem of_checkedAdd {a b c : ℕ} (h : checkedAdd a b = some c) : c = a + b ∧ c ≤ u64Max := by
  unfold checkedAdd at h
  by_cases hfits : a + b ≤ u64Max
  · rw [if_pos hfits] at h
    cases h
    exact ⟨rfl, hfits⟩
  · rw [if_neg hfits] at h
    cases h

/-- The point of a cached profile has the sums of its parts. -/
theorem of_cachedPoint {p : MeasuredExecutionProfile} {q : OperatingPoint}
    (h : cachedPoint settings p = some q) :
    q.toPoint = ⟨p.modelBytes, p.contextStateBytes,
      p.deviceModelBytes + p.deviceExecutionReserveBytes + p.allocatorHeadroomBytes,
      p.hostModelBytes + p.hostStagingBytes, p.competent⟩ ∧ q.deviceBytes ≤ u64Max := by
  unfold cachedPoint at h
  obtain ⟨placed, hplaced, h⟩ := Option.bind_eq_some_iff.mp h
  obtain ⟨device, hdevice, h⟩ := Option.bind_eq_some_iff.mp h
  obtain ⟨host, hhost, h⟩ := Option.bind_eq_some_iff.mp h
  cases h
  rw [(of_checkedAdd hplaced).1] at hdevice
  obtain ⟨rfl, hbound⟩ := of_checkedAdd hdevice
  obtain ⟨rfl, _⟩ := of_checkedAdd hhost
  exact ⟨rfl, hbound⟩

/-- The profile of a measured point is read back with its headroom on the device. -/
theorem of_cachedPoint_profileOf {m q : OperatingPoint}
    (h : cachedPoint settings (profileOf settings m) = some q) :
    q.toPoint = ⟨m.modelBytes, m.contextBytes, m.deviceBytes + m.deviceBytes / 20, m.hostBytes,
      m.competent⟩ ∧ m.deviceBytes + m.deviceBytes / 20 ≤ u64Max := by
  obtain ⟨hq, hbound⟩ := of_cachedPoint h
  have hdevice : q.deviceBytes = m.deviceBytes + m.deviceBytes / 20 :=
    congrArg Point.deviceBytes hq
  rw [hdevice] at hbound
  exact ⟨hq, hbound⟩

theorem reusable_profileOf {model : Model} {rows : Profiles} {m : OperatingPoint}
    (h : rows.lookup (profileKey settings model) =
      some ⟨profileSchemaMajor, profileOf settings m⟩) :
    reusable settings model rows = some (profileOf settings m) := by
  unfold reusable
  rw [h]
  simp [Row.usable, profileOf]

/-- What a cycle was admitted by, published and entered. -/
theorem Reloads.effect {model : Model} {loaded : OperatingPoint} {before after : Profiles}
    {c : Cycle} (hcpu : settings.config.gpuLayers ≤ 0)
    (h : Reloads settings model loaded before c after) :
    ∃ p, (estimate settings c.answers.query c.answers.file model).run c.engine =
        .returns (.ok p) c.engine ∧
      admission settings model c = some p ∧
      after.lookup (profileKey settings model) =
        some ⟨profileSchemaMajor, profileOf settings (measured p loaded)⟩ ∧
      admitted settings model c = some (withHeadroom (measured p loaded)).toPoint := by
  obtain ⟨rows, hrows, _⟩ := h.row
  obtain ⟨m, e', hload, hafter⟩ := h.returned
  obtain ⟨p, loaded', hestimate, hloaded, hcatalog, hpoint⟩ := load_ok hcpu hrows h.unloaded hload
  have hsame : loaded' = loaded := by
    rw [h.loader] at hloaded
    cases hloaded
    rfl
  rw [hsame] at hcatalog hpoint
  refine ⟨p, hestimate, ?_, ?_, ?_⟩
  · unfold admission
    rw [hestimate]
  · rw [hcatalog] at hafter
    cases hafter
    exact AList.lookup_insert _
  · unfold admitted
    rw [hload]
    simp only [hpoint]

/-- A cycle that finds the profile of a measured point is admitted by it. -/
theorem Reloads.readmission {model : Model} {loaded m : OperatingPoint} {before after : Profiles}
    {c : Cycle} (hcpu : settings.config.gpuLayers ≤ 0)
    (h : Reloads settings model loaded before c after)
    (hbefore : before.lookup (profileKey settings model) =
      some ⟨profileSchemaMajor, profileOf settings m⟩) :
    ∃ q, cachedPoint settings (profileOf settings m) = some q ∧
      admission settings model c = some q ∧
      (cachedProfile settings none model).run c.engine =
        .returns (.ok (some q)) c.engine ∧
      after.lookup (profileKey settings model) =
        some ⟨profileSchemaMajor, profileOf settings (measured q loaded)⟩ := by
  obtain ⟨rows, hrows, hrow⟩ := h.row
  obtain ⟨p, hestimate, hadmission, hafter, _⟩ := h.effect hcpu
  have hreusable : reusable settings model rows = some (profileOf settings m) :=
    reusable_profileOf (hrow.trans hbefore)
  rcases (estimate_ok hestimate).2 with ⟨rows', profile, _, hrows', hprofile, hpoint⟩ |
    ⟨hnone, _⟩
  · have hsame : rows' = rows := by
      rw [hrows] at hrows'
      cases hrows'
      rfl
    rw [hsame, hreusable] at hprofile
    cases hprofile
    exact ⟨p, hpoint, hadmission, cachedProfile_of_reusable hcpu hrows hreusable hpoint, hafter⟩
  · have habsent := hnone hcpu rows hrows
    rw [hreusable] at habsent
    cases habsent

/-- The condition says that the first estimate covers the loaded point. -/
theorem covers_iff {model : Model} {loaded p : OperatingPoint} {first : Cycle}
    (hcpu : settings.config.gpuLayers ≤ 0) (hattached : first.engine.catalog.isSome = true)
    (h : (estimate settings first.answers.query first.answers.file model).run first.engine =
      .returns (.ok p) first.engine) :
    Covers settings model loaded first ↔
      Within loaded.toPoint p.toPoint ∧ p.deviceBytes < 20 := by
  have hgpu : ¬ settings.config.gpuLayers > 0 := by omega
  obtain ⟨rows, hrows⟩ := Option.isSome_iff_exists.mp hattached
  unfold Covers
  simp only [hrows, Option.some.injEq, forall_eq']
  rcases (estimate_ok h).2 with ⟨rows', profile, _, hrows', hprofile, hpoint⟩ |
    ⟨hnone, bytes, hbytes, _, hassumed⟩
  · have hsame : rows' = rows := by
      rw [hrows] at hrows'
      cases hrows'
      rfl
    rw [hsame] at hprofile
    obtain ⟨hp, _⟩ := of_cachedPoint hpoint
    simp only [hprofile, hp]
    constructor
    · rintro ⟨hmodel, hcontext, hplaced, hsmall, hhost⟩
      exact ⟨⟨hmodel, hcontext, hplaced, hhost⟩, hsmall⟩
    · rintro ⟨hwithin, hsmall⟩
      exact ⟨hwithin.model, hwithin.context, hwithin.device, hsmall, hwithin.host⟩
  · have habsent := hnone hcpu rows hrows
    simp only [habsent, hbytes, Except.ok.injEq, forall_eq']
    have hboot : p.toPoint = ⟨bytes, settings.config.contextReserveBytes, 0,
        saturatingAdd bytes settings.config.contextReserveBytes,
        (bootstrapPoint settings.config bytes).competent⟩ := by
      rw [hassumed]
      simp only [bootstrapPoint, if_neg hgpu]
    rw [hboot]
    constructor
    · rintro ⟨hmodel, hcontext, hplaced, hhost⟩
      exact ⟨⟨hmodel, hcontext, le_of_eq hplaced, hhost⟩, Nat.zero_lt_succ 19⟩
    · rintro ⟨hwithin, _⟩
      exact ⟨hwithin.model, hwithin.context, Nat.le_zero.mp hwithin.device, hwithin.host⟩

/-- Read back without headroom, a measured point measures the same again. -/
theorem profileOf_again {p q loaded : OperatingPoint}
    (hq : cachedPoint settings (profileOf settings (measured p loaded)) = some q)
    (hsmall : (measured p loaded).deviceBytes < 20) :
    profileOf settings (measured q loaded) = profileOf settings (measured p loaded) := by
  obtain ⟨hpoint, _⟩ := of_cachedPoint_profileOf hq
  have hmodel : q.modelBytes = (measured p loaded).modelBytes := by
    rw [hpoint]
  have hcontext : q.contextBytes = (measured p loaded).contextBytes := by
    rw [hpoint]
  have hhost : q.hostBytes = (measured p loaded).hostBytes := by rw [hpoint]
  have hsum : q.deviceBytes =
      (measured p loaded).deviceBytes + (measured p loaded).deviceBytes / 20 := by
    rw [hpoint]
  have hdevice : q.deviceBytes = (measured p loaded).deviceBytes := by omega
  simp only [measured, Point.measured] at hmodel hcontext hhost hdevice
  simp only [profileOf, measured, Point.measured, hmodel, hcontext, hhost, hdevice]
  have hidle : ∀ a b : ℕ, max a (max a b) = max a b := by
    intro a b
    omega
  simp only [hidle]

/-- Without headroom every later cycle finds and publishes the profile of the first. -/
theorem cycles_fixed {model : Model} {loaded p : OperatingPoint}
    (hcpu : settings.config.gpuLayers ≤ 0) (hsmall : (measured p loaded).deviceBytes < 20)
    {before : Profiles}
    (hbefore : before.lookup (profileKey settings model) =
      some ⟨profileSchemaMajor, profileOf settings (measured p loaded)⟩)
    {rest : List (Cycle × Profiles)} (hrun : IsRun (Reloads settings model loaded) before rest) :
    ∀ x ∈ rest, x.2.lookup (profileKey settings model) =
        some ⟨profileSchemaMajor, profileOf settings (measured p loaded)⟩ ∧
      ∃ q, cachedPoint settings (profileOf settings (measured p loaded)) = some q ∧
        admission settings model x.1 = some q ∧
        (cachedProfile settings none model).run x.1.engine =
          .returns (.ok (some q)) x.1.engine := by
  induction rest generalizing before with
  | nil =>
    intro x hx
    cases hx
  | cons head rest ih =>
    obtain ⟨c, after⟩ := head
    obtain ⟨hstep, hrest⟩ := hrun
    obtain ⟨q, hq, hadmission, hcached, hafter⟩ := hstep.readmission hcpu hbefore
    rw [profileOf_again hq hsmall] at hafter
    intro x hx
    rcases List.mem_cons.mp hx with rfl | hx
    · exact ⟨hafter, q, hq, hadmission, hcached⟩
    · exact ih hafter hrest x hx

/-- Any number of cycles on a processor without GPU layers are stable exactly when there is
only one, or what is reserved before the first covers what the loader reports. -/
theorem profile_stable_iff {settings : Settings} {model : Model} {loaded : OperatingPoint}
    {before after : Profiles} {first : Cycle} {rest : List (Cycle × Profiles)}
    (hcpu : settings.config.gpuLayers ≤ 0)
    (hrun : IsRun (Reloads settings model loaded) before ((first, after) :: rest)) :
    Stable settings model first after rest ↔
      rest = [] ∨ Covers settings model loaded first := by
  obtain ⟨hfirst, hrest⟩ := hrun
  obtain ⟨p, hestimate, hadmission, hafter, hadmitted⟩ := hfirst.effect hcpu
  have hattached : first.engine.catalog.isSome = true := by
    obtain ⟨rows, hrows, _⟩ := hfirst.row
    rw [hrows]
    rfl
  rw [covers_iff hcpu hattached hestimate]
  constructor
  · intro hstable
    cases rest with
    | nil => exact Or.inl rfl
    | cons head tail =>
      right
      obtain ⟨c, next⟩ := head
      obtain ⟨q, hq, hsecond, _, _⟩ := hrest.1.readmission hcpu hafter
      have hgrowth := (List.pairwise_cons.mp hstable.estimates).1 c List.mem_cons_self p q
        hadmission hsecond
      rw [(of_cachedPoint_profileOf hq).1] at hgrowth
      obtain ⟨hmodel, hcontext, hdevice, hhost⟩ := hgrowth
      simp only [measured, Point.measured] at hmodel hcontext hdevice hhost
      refine ⟨⟨?_, ?_, ?_, ?_⟩, ?_⟩
      · omega
      · omega
      · omega
      · omega
      · omega
  · intro hcases
    rcases hcases with hnil | ⟨hwithin, hsmall⟩
    · rw [hnil]
      constructor
      · intro x hx
        cases hx
      · intro x hx
        cases hx
      · exact List.pairwise_singleton _ _
    obtain ⟨hmodel, hcontext, hdevice, hhost⟩ := hwithin
    have hmeasured : (measured p loaded).deviceBytes < 20 := by
      simp only [measured, Point.measured]
      omega
    have hfixed := cycles_fixed hcpu hmeasured hafter hrest
    -- every cycle after the first is admitted by the bytes of the first estimate
    have hbytes : ∀ q, cachedPoint settings (profileOf settings (measured p loaded)) = some q →
        Within q.toPoint p.toPoint ∧ Within p.toPoint q.toPoint := by
      intro q hq
      rw [(of_cachedPoint_profileOf hq).1]
      simp only [measured, Point.measured] at hmeasured ⊢
      constructor
      · refine ⟨?_, ?_, ?_, ?_⟩ <;> dsimp only <;> omega
      · refine ⟨?_, ?_, ?_, ?_⟩ <;> dsimp only <;> omega
    have hestimates : ∀ d ∈ rest.map Prod.fst, ∀ q, admission settings model d = some q →
        Within q.toPoint p.toPoint ∧ Within p.toPoint q.toPoint := by
      intro d hd q hq
      obtain ⟨x, hx, rfl⟩ := List.mem_map.mp hd
      obtain ⟨_, q', hq', hadmission', _⟩ := hfixed x hx
      rw [hq] at hadmission'
      cases hadmission'
      exact hbytes q hq'
    refine ⟨?_, ?_, ?_⟩
    · intro x hx
      rw [hafter]
      exact (hfixed x hx).1
    · intro x hx
      obtain ⟨_, q, hq, _, hcached⟩ := hfixed x hx
      refine ⟨q, hcached, ?_⟩
      intro point hpoint
      rw [hadmitted] at hpoint
      cases hpoint
      obtain ⟨hq, hbound⟩ := of_cachedPoint_profileOf hq
      rw [hq]
      simp only [measured, Point.measured] at hmeasured hbound ⊢
      refine ⟨?_, ?_, ?_, ?_⟩
      · exact le_refl _
      · exact le_refl _
      · simp only [withHeadroom, Point.withHeadroom, saturatingAdd]
        omega
      · exact le_refl _
    · refine List.pairwise_cons.mpr ⟨?_, ?_⟩
      · intro d hd p' q hp' hq
        rw [hadmission] at hp'
        cases hp'
        exact (hestimates d hd q hq).1
      · refine List.pairwise_of_forall_mem_list ?_
        intro c hc d hd p' q hp' hq
        have hback := (hestimates c hc p' hp').2
        have hforth := (hestimates d hd q hq).1
        exact ⟨hforth.model.trans hback.model, hforth.context.trans hback.context,
          hforth.device.trans hback.device, hforth.host.trans hback.host⟩

/-- The rows that a cycle leaves, if its load succeeds. -/
def reloaded (settings : Settings) (model : Model) (c : Cycle) : Option Profiles :=
  match (load settings model c.answers).run c.engine with
  | .returns (.ok _) e' => e'.catalog
  | _ => none

def smallSettings : Settings := ⟨⟨1000, 1000, 1000, 5, 0, false⟩, 8, none,
  fun bytes => hexEncode (Sha256.sha256 bytes).toList⟩

def smallModel : Model := ⟨⟨"m", 1, 10⟩, "r", "00"⟩

/-- What the loader reports, for some bytes on the device. -/
def smallPoint (deviceBytes : ℕ) : OperatingPoint := ⟨⟨10, 5, deviceBytes, 15, true⟩, 0, 1⟩

/-- A cycle on an engine with nothing resident. -/
def smallCycle (deviceBytes : ℕ) (rows : Profiles) : Cycle where
  engine := ⟨State.initial, some rows⟩
  answers :=
    { before := none, query := none, file := .ok 0, idle := [], demote := fun _ => .count 0,
      loaded := .ok (smallPoint deviceBytes), after := none, publication := none }

theorem reloads_smallCycle {deviceBytes : ℕ} {rows after : Profiles}
    (h : reloaded smallSettings smallModel (smallCycle deviceBytes rows) = some after) :
    Reloads smallSettings smallModel (smallPoint deviceBytes) rows
      (smallCycle deviceBytes rows) after := by
  refine ⟨⟨rows, rfl, rfl⟩, rfl, ⟨List.Perm.refl _, List.Pairwise.nil⟩, rfl, ?_⟩
  unfold reloaded at h
  split at h
  · next m e' hload => exact ⟨m, e', hload, h⟩
  · cases h

theorem measured_twice_stable : ∃ after next,
    IsRun (Reloads smallSettings smallModel (smallPoint 0)) ∅
      [(smallCycle 0 ∅, after), (smallCycle 0 after, next)] ∧
    Stable smallSettings smallModel (smallCycle 0 ∅) after [(smallCycle 0 after, next)] := by
  have hrun : (reloaded smallSettings smallModel (smallCycle 0 ∅)).any (fun after =>
      (reloaded smallSettings smallModel (smallCycle 0 after)).isSome) = true := by
    decide +kernel
  obtain ⟨after, hfirst, hsecond⟩ := (Option.any_eq_true _ _).mp hrun
  obtain ⟨next, hsecond⟩ := Option.isSome_iff_exists.mp hsecond
  have hsteps : IsRun (Reloads smallSettings smallModel (smallPoint 0)) ∅
      [(smallCycle 0 ∅, after), (smallCycle 0 after, next)] :=
    ⟨reloads_smallCycle hfirst, reloads_smallCycle hsecond, trivial⟩
  refine ⟨after, next, hsteps, (profile_stable_iff (le_refl _) hsteps).mpr (Or.inr ?_)⟩
  intro rows hrows
  cases hrows
  intro bytes hbytes
  cases hbytes
  decide

/-- With a hundred bytes on the device the second profile counts the headroom of the first. -/
theorem headroom_compounds : ∃ after next,
    IsRun (Reloads smallSettings smallModel (smallPoint 100)) ∅
      [(smallCycle 100 ∅, after), (smallCycle 100 after, next)] ∧
    (after.lookup (profileKey smallSettings smallModel)).map
      (fun row => row.profile.deviceModelBytes) = some 100 ∧
    (next.lookup (profileKey smallSettings smallModel)).map
      (fun row => row.profile.deviceModelBytes) = some 105 ∧
    ¬ Stable smallSettings smallModel (smallCycle 100 ∅) after
      [(smallCycle 100 after, next)] := by
  have hrun : (reloaded smallSettings smallModel (smallCycle 100 ∅)).any (fun after =>
      (after.lookup (profileKey smallSettings smallModel)).map
        (fun row => row.profile.deviceModelBytes) = some 100 &&
      (reloaded smallSettings smallModel (smallCycle 100 after)).any (fun next =>
        (next.lookup (profileKey smallSettings smallModel)).map
          (fun row => row.profile.deviceModelBytes) = some 105)) = true := by
    decide +kernel
  obtain ⟨after, hfirst, hchecked⟩ := (Option.any_eq_true _ _).mp hrun
  obtain ⟨hmeasured, hchecked⟩ := Bool.and_eq_true_iff.mp hchecked
  obtain ⟨next, hsecond, hagain⟩ := (Option.any_eq_true _ _).mp hchecked
  simp only [decide_eq_true_eq] at hmeasured hagain
  refine ⟨after, next, ⟨reloads_smallCycle hfirst, reloads_smallCycle hsecond, trivial⟩,
    hmeasured, hagain, ?_⟩
  intro hstable
  have hsame := hstable.published _ List.mem_cons_self
  rw [hsame, hmeasured] at hagain
  exact absurd hagain (by decide)

end Cusco.ProfileStability
