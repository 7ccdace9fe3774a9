import Cusco.CompactionDeclarations
import Cusco.Runs
import Mathlib.Data.List.TakeWhile

/-!
Limits on compaction declarations over runs of creations, lookups and revocations. What is
remembered of a principal's creations is all of them that are still in the window, unless a
creation at the epoch itself is pruned early.
-/

namespace Cusco.DeclarationLimits

open CompactionDeclarations Runs

inductive Call
  | create (request : CreateCompactionDeclaration) (id : String)
  | lookup (id : String)
  | revoke (id : String)
  deriving DecidableEq

/-- A call by a principal, what the clock read, and the answer. -/
structure Label where
  principal : String
  clock : Option ℕ
  call : Call
  answer : Except Error (Option CompactionDeclaration)

/-- The declarations and the latest reading of the clock. -/
structure World where
  state : DeclarationState
  clock : ℕ

def act (config : Config) (s : DeclarationState) (principal : String) (clock : Option ℕ) :
    Call → Except Error (Option CompactionDeclaration) × DeclarationState
  | .create request id =>
    let done := createCompactionDeclarationFor config s principal request clock id
    (done.1.map some, done.2)
  | .lookup id =>
    let done := compactionDeclarationFor s principal clock id
    (done.1.map some, done.2)
  | .revoke id =>
    let done := revokeCompactionDeclarationFor s principal id
    (done.1.map (fun _ => none), done.2)

/-- Readings of the clock do not decrease. -/
def Step (config : Config) (w : World) (l : Label) (w' : World) : Prop :=
  act config w.state l.principal l.clock l.call = (l.answer, w'.state) ∧
    match l.clock with
    | none => w'.clock = w.clock
    | some now => w.clock ≤ now ∧ w'.clock = now

def opened (clock : ℕ) : World := ⟨⟨∅, ∅⟩, clock⟩

/-- The declaration that a successful creation answers with, its principal and its time. -/
def Label.created (l : Label) : Option (String × ℕ × CompactionDeclaration) :=
  match l.call, l.answer, l.clock with
  | .create _ _, .ok (some declaration), some now => some (l.principal, now, declaration)
  | _, _, _ => none

/-- The creations of a run. -/
def creations (run : List (Label × World)) : List (String × ℕ × CompactionDeclaration) :=
  run.filterMap (fun x => x.1.created)

/-- The principal's creations in the window from this time on. -/
def inWindow (principal : String) (start : ℕ)
    (created : List (String × ℕ × CompactionDeclaration)) : ℕ :=
  created.countP (fun c => decide (c.1 = principal ∧ start ≤ c.2.1 ∧ c.2.1 < start + window))

def stored (s : DeclarationState) (principal : String) : List ℕ :=
  (s.creationTimes.lookup principal).getD []

/-- A creation that passes the checks before the one of its rate. -/
structure Asks (config : Config) (s : DeclarationState) (request : CreateCompactionDeclaration)
    (now : ℕ) : Prop where
  enabled : config.compactionEnabled = true
  lifetime : ¬(request.expiresInMs = 0 ∨
    request.expiresInMs > config.compactionDeclarationLifetimeMs)
  room : (liveRecords now s.records).entries.length < config.compactionDeclarations

/-- In the first minute after the epoch, a principal that created at the epoch gets no further
creation to the check of its rate. -/
def NoEpoch (config : Config) (w : World) (l : Label) : Prop :=
  match l.call, l.clock with
  | .create request _, some now => Asks config w.state request now → now < window →
      (stored w.state l.principal).head? ≠ some 0
  | _, _ => True

/-- A refused creation keeps what is live, and the creations that count. -/
def RefusalKeeps (w : World) (l : Label) (w' : World) : Prop :=
  (∃ request id, l.call = .create request id) → (∃ e, l.answer = .error e) →
    (∀ id record, w'.state.records.lookup id = some record →
      w.state.records.lookup id = some record) ∧
    (∀ id record, w.state.records.lookup id = some record →
      (∀ now, l.clock = some now → now < record.declaration.expiresAtMs) →
        w'.state.records.lookup id = some record) ∧
    ∀ principal now, l.clock = some now →
      (stored w'.state principal).filter (fun c => decide (now < c + window)) =
        (stored w.state principal).filter (fun c => decide (now < c + window))

/-- A lookup answers only with what is live and was created before by the same principal. -/
def LookupOwn (before : List (Label × World)) (l : Label) : Prop :=
  ∀ id declaration, l.call = .lookup id → l.answer = .ok (some declaration) →
    (∃ now, l.clock = some now ∧ now < declaration.expiresAtMs) ∧
      ∃ created ∈ creations before, created.1 = l.principal ∧ created.2.2 = declaration

section Times

theorem filter_dropWhile {α : Type} (stale fresh : α → Bool) (xs : List α)
    (h : ∀ x, stale x = true → fresh x = false) :
    (xs.dropWhile stale).filter fresh = xs.filter fresh := by
  induction xs with
  | nil => rfl
  | cons x xs ih =>
    by_cases hx : stale x = true
    · rw [List.dropWhile_cons_of_pos hx, ih, List.filter_cons_of_neg (by simp [h x hx])]
    · rw [List.dropWhile_cons_of_neg hx]

/-- Whether a creation has left the window. -/
def stale (now created : ℕ) : Bool := decide (now - created ≥ window)

theorem stale_iff (now created : ℕ) : stale now created = true ↔ created + window ≤ now := by
  unfold stale window
  rw [decide_eq_true_eq]
  omega

theorem stored_recent (records : Table String DeclarationRecord) (now : ℕ)
    (times : Table String (List ℕ)) (principal : String) :
    stored ⟨records, recentTimes now times⟩ principal =
      ((times.lookup principal).getD []).dropWhile (stale now) := by
  unfold stored recentTimes
  rw [AList.lookup_retain]
  cases times.lookup principal with
  | none => rfl
  | some recent =>
    simp only [Option.bind_some, Option.getD_some]
    split_ifs with hempty
    · rw [List.isEmpty_iff] at hempty
      exact hempty.symm
    · rfl

/-- Pruning once more pops nothing, but for a creation at the epoch. -/
theorem principalTimes_recent (now : ℕ) (principal : String) (times : Table String (List ℕ))
    (hepoch : now < window → ((times.lookup principal).getD []).head? ≠ some 0) :
    principalTimes now principal (recentTimes now times) =
      ((times.lookup principal).getD []).dropWhile (stale now) := by
  have hstored := stored_recent ∅ now times principal
  unfold stored at hstored
  unfold principalTimes
  rw [hstored]
  have hhead := List.head?_dropWhile_not (stale now) ((times.lookup principal).getD [])
  cases hleft : ((times.lookup principal).getD []).dropWhile (stale now) with
  | nil => rfl
  | cons first rest =>
    rw [hleft] at hhead
    simp only [List.head?_cons] at hhead
    apply List.dropWhile_cons_of_neg
    rw [decide_eq_true_eq]
    intro hle
    have hfresh : ¬first + window ≤ now := by
      intro hold
      rw [(stale_iff now first).mpr hold] at hhead
      exact Bool.noConfusion hhead
    -- only a creation at the epoch is old to the second comparison and not to the first
    have hzero : first = 0 ∧ now < window := by omega
    apply hepoch hzero.2
    have hnothing : ((times.lookup principal).getD []).dropWhile (stale now) =
        (times.lookup principal).getD [] := by
      cases (times.lookup principal).getD [] with
      | nil => rfl
      | cons x xs =>
        apply List.dropWhile_cons_of_neg
        rw [stale_iff]
        omega
    rw [← hnothing, hleft, List.head?_cons, hzero.1]

end Times

section Steps

variable {config : Config} {w w' : World} {l : Label}

/-- What a creation does, past its first checks. -/
theorem create_cases (s : DeclarationState) (principal : String)
    (request : CreateCompactionDeclaration) (clock : Option ℕ) (id : String) :
    (∃ e, createCompactionDeclarationFor config s principal request clock id = (.error e, s)) ∨
    ∃ now, clock = some now ∧
      (createCompactionDeclarationFor config s principal request clock id =
          (.error .busy, ⟨liveRecords now s.records, recentTimes now s.creationTimes⟩) ∨
        Asks config s request now ∧
        (createCompactionDeclarationFor config s principal request clock id =
          (.error .busy, ⟨liveRecords now s.records,
            (recentTimes now s.creationTimes).insert principal
              (principalTimes now principal (recentTimes now s.creationTimes))⟩) ∨
        ∃ declaration, createCompactionDeclarationFor config s principal request clock id =
            (.ok declaration, ⟨(liveRecords now s.records).insert id ⟨declaration, principal⟩,
              (recentTimes now s.creationTimes).insert principal
                (principalTimes now principal (recentTimes now s.creationTimes) ++ [now])⟩) ∧
          (principalTimes now principal (recentTimes now s.creationTimes)).length <
            config.compactionDeclarationRatePerMinute)) := by
  unfold createCompactionDeclarationFor
  by_cases hdisabled : ¬config.compactionEnabled = true
  · exact Or.inl ⟨_, if_pos hdisabled⟩
  have henabled := not_not.mp hdisabled
  rw [if_neg hdisabled]
  by_cases hlifetime : request.expiresInMs = 0 ∨
      request.expiresInMs > config.compactionDeclarationLifetimeMs
  · exact Or.inl ⟨_, if_pos hlifetime⟩
  rw [if_neg hlifetime]
  cases clock with
  | none => exact Or.inl ⟨_, rfl⟩
  | some now =>
    refine Or.inr ⟨now, rfl, ?_⟩
    by_cases hfull : (liveRecords now s.records).entries.length ≥ config.compactionDeclarations
    · exact Or.inl (if_pos hfull)
    have hasks : Asks config s request now := ⟨henabled, hlifetime, Nat.lt_of_not_le hfull⟩
    simp only [if_neg hfull]
    by_cases hrate : (principalTimes now principal (recentTimes now s.creationTimes)).length ≥
        config.compactionDeclarationRatePerMinute
    · exact Or.inr ⟨hasks, Or.inl (if_pos hrate)⟩
    · exact Or.inr ⟨hasks, Or.inr ⟨_, if_neg hrate, Nat.lt_of_not_le hrate⟩⟩

/-- The times at which the principal created, of these creations. -/
def timesOf (principal : String) (created : List (String × ℕ × CompactionDeclaration)) : List ℕ :=
  (created.filter (fun c => decide (c.1 = principal))).map (fun c => c.2.1)

/-- What a step does to the declarations and to what is remembered of creations. -/
structure Moves (config : Config) (w : World) (l : Label) (w' : World) : Prop where
  clock : w.clock ≤ w'.clock ∧ ∀ c ∈ l.created, c.2.1 = w'.clock ∧ c.1 = l.principal
  records : ∀ id record, w'.state.records.lookup id = some record →
    w.state.records.lookup id = some record ∨
      ∃ now, l.created = some (record.principal, now, record.declaration)
  length : w'.state.records.entries.length ≤ max w.state.records.entries.length
    config.compactionDeclarations
  times : ∀ principal, ∃ dropped recent,
    stored w.state principal = dropped ++ recent ∧ (∀ c ∈ dropped, c + window ≤ w'.clock) ∧
      stored w'.state principal = recent ++ timesOf principal l.created.toList ∧
      (timesOf principal l.created.toList ≠ [] →
        recent.length < config.compactionDeclarationRatePerMinute)

theorem clock_le (hstep : Step config w l w') : w.clock ≤ w'.clock := by
  obtain ⟨_, hclock⟩ := hstep
  cases hreading : l.clock with
  | none =>
    simp only [hreading] at hclock
    exact hclock.ge
  | some now =>
    simp only [hreading] at hclock
    exact hclock.2 ▸ hclock.1

/-- A step that creates nothing and keeps the times, and adds no record. -/
theorem moves_of_quiet (hstep : Step config w l w') (hcreated : l.created = none)
    (htimes : w'.state.creationTimes = w.state.creationTimes)
    (hrecords : ∀ id record, w'.state.records.lookup id = some record →
      w.state.records.lookup id = some record)
    (hlength : w'.state.records.entries.length ≤ w.state.records.entries.length) :
    Moves config w l w' where
  clock := ⟨clock_le hstep, by rw [hcreated]; exact fun c hc => absurd hc (Option.not_mem_none c)⟩
  records := fun id record hlookup => Or.inl (hrecords id record hlookup)
  length := hlength.trans (Nat.le_max_left _ _)
  times := by
    intro principal
    refine ⟨[], stored w.state principal, rfl, ?_, ?_, ?_⟩
    · exact fun c hc => absurd hc List.not_mem_nil
    · rw [hcreated]
      unfold stored timesOf
      rw [htimes]
      simp
    · rw [hcreated]
      exact fun hne => absurd rfl hne

theorem lookup_liveRecords (now : ℕ) (records : Table String DeclarationRecord) (id : String)
    (record : DeclarationRecord) :
    (liveRecords now records).lookup id = some record ↔
      records.lookup id = some record ∧ now < record.declaration.expiresAtMs := by
  unfold liveRecords
  rw [AList.lookup_retain, Option.bind_eq_some_iff]
  constructor
  · rintro ⟨found, hfound, hkept⟩
    split_ifs at hkept with hlive
    cases hkept
    exact ⟨hfound, hlive⟩
  · rintro ⟨hfound, hlive⟩
    exact ⟨record, hfound, if_pos hlive⟩

theorem length_liveRecords (now : ℕ) (records : Table String DeclarationRecord) :
    (liveRecords now records).entries.length ≤ records.entries.length :=
  List.length_filterMap_le _ _

theorem length_insert_le {κ ν : Type} [DecidableEq κ] (t : Table κ ν) (k : κ) (v : ν) :
    (t.insert k v).entries.length ≤ t.entries.length + 1 := by
  rw [AList.entries_insert, List.length_cons]
  exact Nat.succ_le_succ (List.kerase_sublist k t.entries).length_le

theorem dropped_stale (now : ℕ) (xs : List ℕ) :
    ∀ c ∈ xs.takeWhile (stale now), c + window ≤ now :=
  fun c hc => (stale_iff now c).mp (List.mem_takeWhile_imp hc)

theorem stored_insert (records : Table String DeclarationRecord) (times : Table String (List ℕ))
    (principal other : String) (recent : List ℕ) :
    stored ⟨records, times.insert principal recent⟩ other =
      if other = principal then recent else stored ⟨records, times⟩ other := by
  unfold stored
  simp only [AList.lookup_insert_ite]
  split_ifs <;> rfl

/-- The times left by a creation, refused or not: for every principal what is still in the
window. -/
theorem stored_create (s : DeclarationState) (records : Table String DeclarationRecord)
    (principal : String) (now : ℕ) (more : List ℕ)
    (hepoch : now < window → (stored s principal).head? ≠ some 0) (other : String) :
    stored ⟨records, (recentTimes now s.creationTimes).insert principal
        (principalTimes now principal (recentTimes now s.creationTimes) ++ more)⟩ other =
      (stored s other).dropWhile (stale now) ++ if other = principal then more else [] := by
  rw [stored_insert, principalTimes_recent now principal s.creationTimes hepoch, stored_recent]
  split_ifs with hsame
  · rw [hsame]
    rfl
  · rw [List.append_nil]
    rfl

/-- A creation that answers with an error keeps what counts. -/
theorem moves_of_refused (hstep : Step config w l w') (hcreated : l.created = none) (now : ℕ)
    (hclock : l.clock = some now)
    (hrecords : w'.state.records = liveRecords now w.state.records)
    (htimes : ∀ principal, stored w'.state principal =
      (stored w.state principal).dropWhile (stale now)) : Moves config w l w' where
  clock := ⟨clock_le hstep, by rw [hcreated]; exact fun c hc => absurd hc (Option.not_mem_none c)⟩
  records := by
    intro id record hlookup
    rw [hrecords] at hlookup
    exact Or.inl ((lookup_liveRecords now _ id record).mp hlookup).1
  length := by
    rw [hrecords]
    exact (length_liveRecords now _).trans (Nat.le_max_left _ _)
  times := by
    have hnow : w'.clock = now := by
      have hafter := hstep.2
      simp only [hclock] at hafter
      exact hafter.2
    intro principal
    refine ⟨(stored w.state principal).takeWhile (stale now),
      (stored w.state principal).dropWhile (stale now), List.takeWhile_append_dropWhile.symm,
      ?_, ?_, ?_⟩
    · rw [hnow]
      exact dropped_stale now _
    · rw [htimes, hcreated]
      exact (List.append_nil _).symm
    · rw [hcreated]
      exact fun hne => absurd rfl hne

/-- A step that creates nothing and at most removes a record. -/
theorem moves_of_kept (hstep : Step config w l w') (hcreated : l.created = none)
    (hstate : w'.state = w.state ∨
      ∃ id, w'.state = { w.state with records := w.state.records.erase id }) :
    Moves config w l w' := by
  rcases hstate with hsame | ⟨id, herased⟩
  · refine moves_of_quiet hstep hcreated ?_ ?_ ?_
    · rw [hsame]
    · intro other record hlookup
      rwa [hsame] at hlookup
    · rw [hsame]
  · refine moves_of_quiet hstep hcreated ?_ ?_ ?_
    · rw [herased]
    · intro other record hlookup
      rw [herased, AList.lookup_erase_ite] at hlookup
      split_ifs at hlookup
      exact hlookup
    · rw [herased]
      exact (List.kerase_sublist id w.state.records.entries).length_le

theorem lookup_cases (s : DeclarationState) (principal : String) (clock : Option ℕ)
    (id : String) :
    (∃ e, compactionDeclarationFor s principal clock id = (.error e, s)) ∨
    (∃ e, compactionDeclarationFor s principal clock id =
      (.error e, { s with records := s.records.erase id })) ∨
    ∃ now record, clock = some now ∧ s.records.lookup id = some record ∧
      now < record.declaration.expiresAtMs ∧ record.principal = principal ∧
        compactionDeclarationFor s principal clock id = (.ok record.declaration, s) := by
  unfold compactionDeclarationFor
  cases clock with
  | none => exact Or.inl ⟨_, rfl⟩
  | some now =>
    cases hlookup : s.records.lookup id with
    | none => exact Or.inl ⟨_, rfl⟩
    | some record =>
      by_cases hexpired : record.declaration.expiresAtMs ≤ now
      · exact Or.inr (Or.inl ⟨_, if_pos hexpired⟩)
      · by_cases hother : record.principal ≠ principal
        · exact Or.inl ⟨_, by simp only [if_neg hexpired, if_pos hother]; rfl⟩
        · refine Or.inr (Or.inr ⟨now, record, rfl, rfl, Nat.lt_of_not_le hexpired,
            not_not.mp hother, ?_⟩)
          simp only [if_neg hexpired, if_neg hother]

theorem revoke_cases (s : DeclarationState) (principal : String) (id : String) :
    (∃ e, revokeCompactionDeclarationFor s principal id = (.error e, s)) ∨
    revokeCompactionDeclarationFor s principal id =
      (.ok (), { s with records := s.records.erase id }) := by
  unfold revokeCompactionDeclarationFor
  cases hlookup : s.records.lookup id with
  | none => exact Or.inl ⟨_, rfl⟩
  | some record =>
    by_cases hother : record.principal ≠ principal
    · exact Or.inl ⟨_, if_pos hother⟩
    · exact Or.inr (if_neg hother)

theorem step_moves (hstep : Step config w l w') (hepoch : NoEpoch config w l) :
    Moves config w l w' := by
  obtain ⟨principal, clock, call, answer⟩ := l
  obtain ⟨hact, hclock⟩ := id hstep
  cases call with
  | create request id =>
    unfold act at hact
    rcases @create_cases config w.state principal request clock id with
      ⟨e, hdone⟩ | ⟨now, rfl, hdone | ⟨hasks, hdone | ⟨declaration, hdone, hrate⟩⟩⟩
    · simp only [hdone] at hact
      obtain ⟨rfl, hstate⟩ := Prod.mk.inj hact
      exact moves_of_quiet hstep rfl (by rw [← hstate]) (fun _ _ h => by rwa [← hstate] at h)
        (by rw [← hstate])
    · simp only [hdone] at hact
      obtain ⟨rfl, hstate⟩ := Prod.mk.inj hact
      refine moves_of_refused hstep rfl now rfl (by rw [← hstate]) ?_
      intro other
      rw [← hstate]
      exact stored_recent _ now _ other
    · simp only [hdone] at hact
      obtain ⟨rfl, hstate⟩ := Prod.mk.inj hact
      refine moves_of_refused hstep rfl now rfl (by rw [← hstate]) ?_
      intro other
      have hstored := stored_create w.state (liveRecords now w.state.records) principal now []
        (hepoch hasks) other
      rw [List.append_nil, ite_self, List.append_nil] at hstored
      rw [← hstate]
      exact hstored
    · simp only [hdone, Except.map] at hact
      obtain ⟨rfl, hstate⟩ := Prod.mk.inj hact
      have hnow : w'.clock = now := hclock.2
      have hcreated : (Label.mk principal (some now) (.create request id)
          (.ok (some declaration))).created = some (principal, now, declaration) := rfl
      refine ⟨⟨clock_le hstep, ?_⟩, ?_, ?_, ?_⟩
      · intro c hc
        cases hc
        exact ⟨hnow.symm, rfl⟩
      · intro other record hlookup
        rw [← hstate, AList.lookup_insert_ite] at hlookup
        split_ifs at hlookup with hsame
        · cases hlookup
          exact Or.inr ⟨now, rfl⟩
        · exact Or.inl ((lookup_liveRecords now _ other record).mp hlookup).1
      · rw [← hstate]
        have hle := length_insert_le (liveRecords now w.state.records) id
          (DeclarationRecord.mk declaration principal)
        exact (hle.trans hasks.room).trans (Nat.le_max_right _ _)
      · intro other
        have hstored := stored_create w.state ((liveRecords now w.state.records).insert id
          ⟨declaration, principal⟩) principal now [now] (hepoch hasks) other
        have htimes : timesOf other (Option.toList (Label.mk principal (some now)
            (.create request id) (.ok (some declaration))).created) =
            if other = principal then [now] else [] := by
          rw [hcreated]
          unfold timesOf
          by_cases hsame : other = principal
          · simp [hsame]
          · simp [hsame, Ne.symm hsame]
        refine ⟨(stored w.state other).takeWhile (stale now),
          (stored w.state other).dropWhile (stale now), List.takeWhile_append_dropWhile.symm,
          ?_, ?_, ?_⟩
        · rw [hnow]
          exact dropped_stale now _
        · rw [htimes, ← hstate]
          exact hstored
        · rw [htimes]
          intro hne
          have hsame : other = principal := by
            by_contra hother
            exact hne (if_neg hother)
          rw [principalTimes_recent now principal _ (hepoch hasks)] at hrate
          rw [hsame]
          exact hrate
  | lookup id =>
    unfold act at hact
    rcases lookup_cases w.state principal clock id with
      ⟨e, hdone⟩ | ⟨e, hdone⟩ | ⟨now, record, _, _, _, _, hdone⟩
    · simp only [hdone] at hact
      exact moves_of_kept hstep rfl (Or.inl (Prod.mk.inj hact).2.symm)
    · simp only [hdone] at hact
      exact moves_of_kept hstep rfl (Or.inr ⟨id, (Prod.mk.inj hact).2.symm⟩)
    · simp only [hdone] at hact
      exact moves_of_kept hstep rfl (Or.inl (Prod.mk.inj hact).2.symm)
  | revoke id =>
    unfold act at hact
    rcases revoke_cases w.state principal id with ⟨e, hdone⟩ | hdone
    · simp only [hdone] at hact
      exact moves_of_kept hstep rfl (Or.inl (Prod.mk.inj hact).2.symm)
    · simp only [hdone] at hact
      exact moves_of_kept hstep rfl (Or.inr ⟨id, (Prod.mk.inj hact).2.symm⟩)

end Steps

section Runs

variable {config : Config} {w w' : World} {l : Label}

/-- Of the creations so far, what is remembered of each principal's are all that can still share
a window with a new one. -/
structure Counted (config : Config) (w : World)
    (created : List (String × ℕ × CompactionDeclaration)) : Prop where
  remembered : ∀ principal, ∃ old, timesOf principal created = old ++ stored w.state principal ∧
    ∀ c ∈ old, c + window ≤ w.clock
  rate : ∀ principal start,
    inWindow principal start created ≤ config.compactionDeclarationRatePerMinute
  records : ∀ id record, w.state.records.lookup id = some record →
    ∃ now, (record.principal, now, record.declaration) ∈ created
  length : w.state.records.entries.length ≤ config.compactionDeclarations

theorem inWindow_eq (principal : String) (start : ℕ)
    (created : List (String × ℕ × CompactionDeclaration)) :
    inWindow principal start created = (timesOf principal created).countP
      (fun c => decide (start ≤ c ∧ c < start + window)) := by
  unfold inWindow timesOf
  rw [List.countP_map, List.countP_filter]
  apply List.countP_congr
  intro c _
  simp only [Function.comp_apply, Bool.and_eq_true, decide_eq_true_eq]
  exact and_comm

theorem timesOf_append (principal : String)
    (created more : List (String × ℕ × CompactionDeclaration)) :
    timesOf principal (created ++ more) = timesOf principal created ++ timesOf principal more := by
  unfold timesOf
  rw [List.filter_append, List.map_append]

theorem counted_step {created : List (String × ℕ × CompactionDeclaration)}
    (h : Counted config w created) (hmoves : Moves config w l w') :
    Counted config w' (created ++ l.created.toList) := by
  refine ⟨?_, ?_, ?_, hmoves.length.trans (max_le h.length (Nat.le_refl _))⟩
  · intro principal
    obtain ⟨old, htimes, hold⟩ := h.remembered principal
    obtain ⟨dropped, recent, hsplit, hdropped, hstored, _⟩ := hmoves.times principal
    refine ⟨old ++ dropped, ?_, ?_⟩
    · rw [timesOf_append, htimes, hsplit, hstored]
      simp only [List.append_assoc]
    · intro c hc
      rcases List.mem_append.mp hc with hc | hc
      · exact (hold c hc).trans hmoves.clock.1
      · exact hdropped c hc
  · intro principal start
    obtain ⟨old, htimes, hold⟩ := h.remembered principal
    obtain ⟨dropped, recent, hsplit, hdropped, _, hroom⟩ := hmoves.times principal
    have hbefore := h.rate principal start
    rw [inWindow_eq] at hbefore ⊢
    rw [timesOf_append]
    by_cases hnone : timesOf principal l.created.toList = []
    · rw [hnone, List.append_nil]
      exact hbefore
    -- the new creation shares a window only with those that are remembered
    have hone : timesOf principal l.created.toList = [w'.clock] := by
      cases hcreated : l.created with
      | none =>
        rw [hcreated] at hnone
        exact absurd rfl hnone
      | some c =>
        have hclock := (hmoves.clock.2 c (by rw [hcreated]; rfl)).1
        rw [hcreated] at hnone
        unfold timesOf at hnone ⊢
        rw [Option.toList_some] at hnone ⊢
        by_cases hsame : c.1 = principal
        · simp [hsame, hclock]
        · exact absurd (by simp [hsame]) hnone
    have hlength := hroom hnone
    rw [hone, List.countP_append]
    by_cases hinside : start ≤ w'.clock ∧ w'.clock < start + window
    · have hout : ∀ c ∈ old ++ dropped, ¬(start ≤ c ∧ c < start + window) := by
        intro c hc
        have hpast : c + window ≤ w'.clock := by
          rcases List.mem_append.mp hc with hc | hc
          · exact (hold c hc).trans hmoves.clock.1
          · exact hdropped c hc
        omega
      have hzero : (old ++ dropped).countP
          (fun c => decide (start ≤ c ∧ c < start + window)) = 0 :=
        List.countP_eq_zero.mpr (fun c hc => by simpa using hout c hc)
      have hrecent : recent.countP (fun c => decide (start ≤ c ∧ c < start + window)) ≤
          recent.length := List.countP_le_length
      have hnew : [w'.clock].countP (fun c => decide (start ≤ c ∧ c < start + window)) ≤ 1 :=
        List.countP_le_length
      rw [htimes, hsplit, ← List.append_assoc, List.countP_append, hzero]
      omega
    · have hnew : [w'.clock].countP (fun c => decide (start ≤ c ∧ c < start + window)) = 0 :=
        List.countP_eq_zero.mpr (fun c hc => by
          rw [List.mem_singleton.mp hc]
          simpa using hinside)
      rw [hnew, Nat.add_zero]
      exact hbefore
  · intro id record hlookup
    rcases hmoves.records id record hlookup with hkept | ⟨now, hcreated⟩
    · obtain ⟨now, hmem⟩ := h.records id record hkept
      exact ⟨now, List.mem_append_left _ hmem⟩
    · refine ⟨now, List.mem_append_right _ ?_⟩
      rw [hcreated]
      exact List.mem_singleton_self _

theorem counted_opened (config : Config) (clock : ℕ) : Counted config (opened clock) [] where
  remembered := fun principal => ⟨[], rfl, fun c hc => absurd hc List.not_mem_nil⟩
  rate := fun _ _ => Nat.zero_le _
  records := fun id record hlookup => by cases hlookup
  length := Nat.zero_le _

theorem creations_cons (x : Label × World) (run : List (Label × World)) :
    creations (x :: run) = x.1.created.toList ++ creations run := by
  unfold creations
  rw [List.filterMap_cons]
  cases x.1.created with
  | none => rfl
  | some c => rfl

theorem counted_run (run : List (Label × World)) (w : World)
    (created : List (String × ℕ × CompactionDeclaration)) (h : Counted config w created)
    (hrun : IsRun (Step config) w run) (hmeets : Meets (NoEpoch config) w run) :
    Counted config (last w run) (created ++ creations run) := by
  induction run generalizing w created with
  | nil =>
    show Counted config w (created ++ [])
    rw [List.append_nil]
    exact h
  | cons head rest ih =>
    have hnext := ih head.2 (created ++ head.1.created.toList)
      (counted_step h (step_moves hrun.1 hmeets.1)) hrun.2 hmeets.2
    rw [List.append_assoc, ← creations_cons] at hnext
    exact hnext

theorem lookup_own {before : List (Label × World)}
    (h : Counted config w (creations before)) (hstep : Step config w l w') :
    LookupOwn before l := by
  intro id declaration hcall hanswer
  obtain ⟨hact, _⟩ := hstep
  rw [hcall, hanswer] at hact
  unfold act at hact
  rcases lookup_cases w.state l.principal l.clock id with
    ⟨e, hdone⟩ | ⟨e, hdone⟩ | ⟨now, record, hclock, hlookup, hlive, hsame, hdone⟩
  · simp only [hdone] at hact
    cases (Prod.mk.inj hact).1
  · simp only [hdone] at hact
    cases (Prod.mk.inj hact).1
  · simp only [hdone] at hact
    cases (Prod.mk.inj hact).1
    obtain ⟨time, hmem⟩ := h.records id record hlookup
    exact ⟨⟨now, hclock, hlive⟩, _, hmem, hsame, rfl⟩

theorem filter_fresh (now : ℕ) (xs : List ℕ) :
    (xs.dropWhile (stale now)).filter (fun c => decide (now < c + window)) =
      xs.filter (fun c => decide (now < c + window)) := by
  apply filter_dropWhile
  intro c hc
  have hold := (stale_iff now c).mp hc
  simpa using hold

theorem refusal_keeps (hstep : Step config w l w') (hepoch : NoEpoch config w l) :
    RefusalKeeps w l w' := by
  rintro ⟨request, id, hcall⟩ ⟨e, hanswer⟩
  obtain ⟨principal, clock, call, answer⟩ := l
  obtain ⟨hact, _⟩ := hstep
  subst hcall hanswer
  unfold act at hact
  rcases @create_cases config w.state principal request clock id with
    ⟨e, hdone⟩ | ⟨now, rfl, hdone | ⟨hasks, hdone | ⟨declaration, hdone, _⟩⟩⟩
  · simp only [hdone] at hact
    rw [← (Prod.mk.inj hact).2]
    exact ⟨fun _ _ h => h, fun _ _ h _ => h, fun _ _ _ => rfl⟩
  · simp only [hdone] at hact
    rw [← (Prod.mk.inj hact).2]
    refine ⟨?_, ?_, ?_⟩
    · exact fun id record h => ((lookup_liveRecords now _ id record).mp h).1
    · exact fun id record h hlive => (lookup_liveRecords now _ id record).mpr ⟨h, hlive now rfl⟩
    · intro other now' hnow
      cases hnow
      rw [stored_recent]
      exact filter_fresh now _
  · simp only [hdone] at hact
    rw [← (Prod.mk.inj hact).2]
    refine ⟨?_, ?_, ?_⟩
    · exact fun id record h => ((lookup_liveRecords now _ id record).mp h).1
    · exact fun id record h hlive => (lookup_liveRecords now _ id record).mpr ⟨h, hlive now rfl⟩
    · intro other now' hnow
      cases hnow
      have hstored := stored_create w.state (liveRecords now w.state.records) principal now []
        (hepoch hasks) other
      rw [List.append_nil, ite_self, List.append_nil] at hstored
      rw [hstored]
      exact filter_fresh now _
  · simp only [hdone] at hact
    cases (Prod.mk.inj hact).1

theorem along_refusals (run : List (Label × World)) (w : World)
    (hrun : IsRun (Step config) w run) (hmeets : Meets (NoEpoch config) w run) :
    Along RefusalKeeps w run := by
  induction run generalizing w with
  | nil => trivial
  | cons head rest ih => exact ⟨refusal_keeps hrun.1 hmeets.1, ih head.2 hrun.2 hmeets.2⟩

/-- In every run no window holds more creations of a principal than the rate, no more
declarations are stored than the limit, lookups answer only with what is live and the
principal's own, and refused creations change nothing that counts. -/
theorem declarations_limited (config : Config) (clock : ℕ) (run : List (Label × World))
    (hrun : IsRun (Step config) (opened clock) run)
    (hmeets : Meets (NoEpoch config) (opened clock) run) :
    (∀ principal start, inWindow principal start (creations run) ≤
      config.compactionDeclarationRatePerMinute) ∧
    (∀ x ∈ run, x.2.state.records.entries.length ≤ config.compactionDeclarations) ∧
    (∀ before l w after, run = before ++ (l, w) :: after → LookupOwn before l) ∧
    Along RefusalKeeps (opened clock) run := by
  have hcounted : ∀ before after, run = before ++ after →
      Counted config (last (opened clock) before) (creations before) := by
    rintro before after rfl
    exact counted_run before (opened clock) [] (counted_opened config clock)
      ((isRun_append _ _ before after).mp hrun).1 ((meets_append _ _ before after).mp hmeets).1
  refine ⟨?_, ?_, ?_, along_refusals run (opened clock) hrun hmeets⟩
  · exact (hcounted run [] (List.append_nil run).symm).rate
  · intro x hx
    obtain ⟨before, after, rfl⟩ := List.append_of_mem hx
    have hreached := hcounted (before ++ [x]) after (by simp)
    rw [last_append] at hreached
    exact hreached.length
  · rintro before l w after rfl
    have hstep := ((isRun_append _ _ before ((l, w) :: after)).mp hrun).2.1
    exact lookup_own (hcounted before ((l, w) :: after) rfl) hstep

def request : CreateCompactionDeclaration := ⟨"context", [], none, 1000⟩

/-- The step of a call by the local principal at this time. -/
def callAt (config : Config) (w : World) (now : ℕ) (call : Call) : Label × World :=
  let done := act config w.state "local" (some now) call
  (⟨"local", some now, call, done.1⟩, ⟨done.2, now⟩)

def calls (config : Config) : World → List (ℕ × Call) → List (Label × World)
  | _, [] => []
  | w, (now, call) :: rest =>
    callAt config w now call :: calls config (callAt config w now call).2 rest

theorem isRun_calls (config : Config) (w : World) (plan : List (ℕ × Call))
    (h : (w.clock :: plan.map Prod.fst).IsChain (fun a b => a ≤ b)) :
    IsRun (Step config) w (calls config w plan) := by
  induction plan generalizing w with
  | nil => trivial
  | cons head rest ih =>
    obtain ⟨hclock, hrest⟩ := List.isChain_cons_cons.mp h
    exact ⟨⟨rfl, hclock, rfl⟩, ih (callAt config w head.1 head.2).2 hrest⟩

/-- Two creations a minute, and four declarations. -/
def pairConfig : Config := ⟨true, window, 4, 2⟩

/-- Two creations, a third that is refused, a lookup and a revocation, and a creation when the
first one has left the window. -/
def pairPlan : List (ℕ × Call) := [(10, .create request "a"), (20, .create request "b"),
  (30, .create request "c"), (40, .lookup "a"), (50, .revoke "b"), (60010, .create request "d")]

theorem pair_limited :
    (calls pairConfig (opened 0) pairPlan).map (fun x => x.1.answer.isOk) =
      [true, true, false, true, true, true] ∧
    (∀ principal start, inWindow principal start
      (creations (calls pairConfig (opened 0) pairPlan)) ≤ 2) ∧
    (∀ x ∈ calls pairConfig (opened 0) pairPlan, x.2.state.records.entries.length ≤ 4) ∧
    (∀ before l w after, calls pairConfig (opened 0) pairPlan = before ++ (l, w) :: after →
      LookupOwn before l) ∧
    Along RefusalKeeps (opened 0) (calls pairConfig (opened 0) pairPlan) := by
  refine ⟨by decide +kernel, ?_⟩
  apply declarations_limited pairConfig 0 _ (isRun_calls _ _ _ (by decide))
  refine ⟨fun _ _ => ?_, fun _ _ => ?_, fun _ _ => ?_, trivial, trivial, fun _ hearly => ?_,
    trivial⟩
  · decide +kernel
  · decide +kernel
  · decide +kernel
  · exact absurd hearly (by decide)

/-- One creation a minute, and four declarations. -/
def minuteConfig : Config := ⟨true, window, 4, 1⟩

/-- Two creations at the epoch. -/
def epochCreations : List (Label × World) :=
  calls minuteConfig (opened 0) [(0, .create request "a"), (0, .create request "b")]

theorem epochCreations_exceed : IsRun (Step minuteConfig) (opened 0) epochCreations ∧
    minuteConfig.compactionDeclarationRatePerMinute <
      inWindow "local" 0 (creations epochCreations) :=
  ⟨isRun_calls _ _ _ (by decide), by decide +kernel⟩

end Runs

end Cusco.DeclarationLimits
