import Cusco.SchedulerPolicy

/-!
What a selection does. The heads are entries of the queue, each the first available one of
its flow; all of them are credited, the selected one has the most credit, and its entry is
the only one to leave the queue.
-/

namespace Cusco.Selections

open SchedulerPolicy FairPolicy

theorem validate_eq (c d : SchedulerPolicyConfig) (h : c.validate = .ok d) :
    d = c ∧ c.hasZero = false := by
  unfold SchedulerPolicyConfig.validate at h
  split at h
  · exact nomatch h
  · split at h
    · exact nomatch h
    · rename_i hzero
      cases h
      exact ⟨rfl, by simpa using hzero⟩

section Weights

variable (p : FairPolicy)

theorem weight_le (c : SchedulingClass) : p.weight c ≤ u32Max := by
  unfold weight
  omega

theorem weight_pos (h : p.config.hasZero = false) (c : SchedulingClass) : 1 ≤ p.weight c := by
  have hnonzero : p.classWeight c ≠ 0 ∧ p.config.deficitRefill ≠ 0 := by
    simp only [SchedulerPolicyConfig.hasZero, Bool.or_eq_false_iff, beq_eq_false_iff_ne] at h
    cases c <;> simp [classWeight, h]
  have hprod := Nat.mul_pos (Nat.pos_of_ne_zero hnonzero.1) (Nat.pos_of_ne_zero hnonzero.2)
  unfold weight u32Max
  omega

end Weights

section Heads

variable (p : FairPolicy) (available : ℕ → Bool)

/-- A head names the place of its entry, which is available, and has its weight. -/
def Placed (h : Head) : Prop :=
  p.runnable[h.index]? = some h.entry ∧ available h.entry.id = true ∧
    h.credit = p.weight (p.effectiveClass h.entry).1

theorem collectHeads_placed (done rest : List PolicyEntry) (heads : List Head)
    (hqueue : p.runnable = done ++ rest) (hheads : ∀ h ∈ heads, Placed p available h) :
    ∀ h ∈ p.collectHeads available rest done.length heads, Placed p available h := by
  induction rest generalizing done heads with
  | nil => exact hheads
  | cons entry rest ih =>
    have hnext : p.runnable = (done ++ [entry]) ++ rest := by
      rw [hqueue, List.append_assoc, List.singleton_append]
    have hlength : done.length + 1 = (done ++ [entry]).length := by simp
    rw [collectHeads, hlength]
    split
    · exact ih (done ++ [entry]) heads hnext hheads
    · rename_i hnew
      apply ih (done ++ [entry]) _ hnext
      intro h hh
      rcases List.mem_append.mp hh with hh | hh
      · exact hheads h hh
      · rw [List.mem_singleton.mp hh]
        refine ⟨?_, ?_, rfl⟩
        · simp [headOf, hqueue]
        · cases hentry : available entry.id
          · exact absurd (by simp [hentry]) hnew
          · exact hentry

theorem heads_placed : ∀ h ∈ p.heads available, Placed p available h :=
  collectHeads_placed p available [] p.runnable [] rfl nofun

theorem collectHeads_nodup (rest : List PolicyEntry) (index : ℕ) (heads : List Head)
    (hheads : (heads.map (fun h => h.entry.flow)).Nodup) :
    ((p.collectHeads available rest index heads).map (fun h => h.entry.flow)).Nodup := by
  induction rest generalizing index heads with
  | nil => exact hheads
  | cons entry rest ih =>
    rw [collectHeads]
    split
    · exact ih (index + 1) heads hheads
    · rename_i hnew
      apply ih
      rw [List.map_append, List.map_singleton]
      refine List.nodup_append.mpr ⟨hheads, List.nodup_singleton _, ?_⟩
      intro flow hflow other hother heq
      obtain ⟨h, hh, rfl⟩ := List.mem_map.mp hflow
      rw [List.mem_singleton.mp hother] at heq
      apply hnew
      rw [Bool.or_eq_true, List.any_eq_true]
      exact Or.inl ⟨h, hh, decide_eq_true heq⟩

theorem heads_nodup : ((p.heads available).map (fun h => h.entry.flow)).Nodup :=
  collectHeads_nodup p available p.runnable 0 [] List.nodup_nil

theorem collectHeads_flows (rest : List PolicyEntry) (index : ℕ) (heads : List Head)
    (flow : FlowKey)
    (hflow : (∃ h ∈ heads, h.entry.flow = flow) ∨
      ∃ entry ∈ rest, entry.flow = flow ∧ available entry.id = true) :
    ∃ h ∈ p.collectHeads available rest index heads, h.entry.flow = flow := by
  induction rest generalizing index heads with
  | nil => exact hflow.elim id (fun ⟨_, hmem, _⟩ => nomatch hmem)
  | cons entry rest ih =>
    rw [collectHeads]
    split
    · rename_i hold
      apply ih
      rcases hflow with hhead | ⟨other, hother, rfl, havailable⟩
      · exact Or.inl hhead
      · rcases List.mem_cons.mp hother with rfl | hother
        · left
          simpa [havailable] using hold
        · exact Or.inr ⟨other, hother, rfl, havailable⟩
    · apply ih
      rcases hflow with ⟨h, hh, rfl⟩ | ⟨other, hother, rfl, havailable⟩
      · exact Or.inl ⟨h, List.mem_append_left _ hh, rfl⟩
      · rcases List.mem_cons.mp hother with rfl | hother
        · exact Or.inl ⟨_, List.mem_append_right _ List.mem_cons_self, rfl⟩
        · exact Or.inr ⟨other, hother, rfl, havailable⟩

/-- Every available entry's flow has a head. -/
theorem exists_head (entry : PolicyEntry) (hentry : entry ∈ p.runnable)
    (havailable : available entry.id = true) :
    ∃ h ∈ p.heads available, h.entry.flow = entry.flow :=
  collectHeads_flows p available p.runnable 0 [] entry.flow
    (Or.inr ⟨entry, hentry, rfl, havailable⟩)

end Heads

section Refill

theorem deficit_insert (deficits : Table FlowKey ℤ) (flow g : FlowKey) (d : ℤ) :
    deficit (deficits.insert flow d) g = if g = flow then d else deficit deficits g := by
  unfold deficit
  rw [AList.lookup_insert_ite]
  split <;> rfl

theorem deficit_erase (deficits : Table FlowKey ℤ) (flow g : FlowKey) :
    deficit (deficits.erase flow) g = if g = flow then 0 else deficit deficits g := by
  unfold deficit
  rw [AList.lookup_erase_ite]
  split <;> rfl

theorem deficit_of_notMem (deficits : Table FlowKey ℤ) (flow : FlowKey) (h : flow ∉ deficits) :
    deficit deficits flow = 0 := by
  unfold deficit
  rw [AList.lookup_eq_none.mpr h]
  rfl

theorem refillAll_of_ne (deficits : Table FlowKey ℤ) (heads : List Head) (flow : FlowKey)
    (h : ∀ x ∈ heads, x.entry.flow ≠ flow) :
    deficit (refillAll deficits heads) flow = deficit deficits flow := by
  induction heads generalizing deficits with
  | nil => rfl
  | cons head rest ih =>
    obtain ⟨hhead, hrest⟩ := List.forall_mem_cons.mp h
    refine (ih (refill deficits head) hrest).trans ?_
    rw [refill, deficit_insert, if_neg (Ne.symm hhead)]

/-- A head is credited once, and its credit is at most eight times its weight. -/
theorem refillAll_of_mem (deficits : Table FlowKey ℤ) (heads : List Head)
    (hnodup : (heads.map (fun h => h.entry.flow)).Nodup) (h : Head) (hmem : h ∈ heads) :
    deficit (refillAll deficits heads) h.entry.flow =
      min (deficit deficits h.entry.flow + h.credit) (h.credit * 8) := by
  induction heads generalizing deficits with
  | nil => exact nomatch hmem
  | cons head rest ih =>
    rw [List.map_cons, List.nodup_cons] at hnodup
    obtain ⟨hhead, hrest⟩ := hnodup
    rcases List.mem_cons.mp hmem with rfl | hmem
    · have hne : ∀ x ∈ rest, x.entry.flow ≠ h.entry.flow := by
        intro x hx heq
        exact hhead (heq ▸ List.mem_map_of_mem hx)
      refine (refillAll_of_ne (refill deficits h) rest h.entry.flow hne).trans ?_
      rw [refill, deficit_insert, if_pos rfl]
    · have hne : h.entry.flow ≠ head.entry.flow := by
        intro heq
        exact hhead (heq ▸ List.mem_map_of_mem hmem)
      refine (ih (refill deficits head) hrest hmem).trans ?_
      rw [refill, deficit_insert, if_neg hne]

theorem mem_refillAll (deficits : Table FlowKey ℤ) (heads : List Head) (flow : FlowKey) :
    flow ∈ refillAll deficits heads ↔ flow ∈ deficits ∨ ∃ h ∈ heads, h.entry.flow = flow := by
  induction heads generalizing deficits with
  | nil => simp [refillAll]
  | cons head rest ih =>
    refine (ih (refill deficits head)).trans ?_
    rw [refill, AList.mem_insert]
    simp only [List.mem_cons, exists_eq_or_imp, eq_comm (a := flow)]
    tauto

theorem le_maxDeficit (deficits : Table FlowKey ℤ) (heads : List Head) (h : Head)
    (hmem : h ∈ heads) : deficit deficits h.entry.flow ≤ maxDeficit deficits heads := by
  have hin : deficit deficits h.entry.flow ∈
      heads.map (fun h => deficit deficits h.entry.flow) := List.mem_map_of_mem hmem
  obtain ⟨top, htop⟩ := Option.isSome_iff_exists.mp (List.isSome_max?_of_mem hin)
  rw [maxDeficit, htop]
  exact (List.max?_le_iff htop).mp le_rfl _ hin

end Refill

/-- A selection takes the entry of one head. -/
structure Selects (p : FairPolicy) (available : ℕ → Bool) (selection : Selection)
    (p' : FairPolicy) (h : Head) : Prop where
  head : h ∈ p.heads available
  id_eq : selection.id = h.entry.id
  scale_eq : selection.chargeScale = totalWeight (p.heads available)
  config_eq : p'.config = p.config
  runnable_eq : p'.runnable = p.runnable.eraseIdx h.index
  deficits_eq : p'.deficits = refillAll p.deficits (p.heads available)
  most : ∀ x ∈ p.heads available, deficit p'.deficits x.entry.flow ≤
    deficit p'.deficits h.entry.flow

theorem select_cases (p p' : FairPolicy) (available : ℕ → Bool) (selection : Selection)
    (h : p.select available = some (selection, p')) :
    ∃ head, Selects p available selection p' head := by
  obtain ⟨head, hget, htake⟩ := Option.map_eq_some_iff.mp h
  have hmem := List.mem_of_getElem? hget
  obtain ⟨hhead, hmax⟩ := List.mem_filter.mp hmem
  have hmax := of_decide_eq_true hmax
  cases htake
  exact ⟨head, hhead, rfl, rfl, rfl, rfl, rfl,
    fun x hx => (le_maxDeficit _ _ x hx).trans_eq hmax.symm⟩

theorem exists_select (p : FairPolicy) (available : ℕ → Bool) (entry : PolicyEntry)
    (hentry : entry ∈ p.runnable) (havailable : available entry.id = true) :
    ∃ x, p.select available = some x := by
  obtain ⟨h, hh, _⟩ := exists_head p available entry hentry havailable
  have hin : deficit (refillAll p.deficits (p.heads available)) h.entry.flow ∈
      (p.heads available).map (fun h => deficit (refillAll p.deficits (p.heads available))
        h.entry.flow) := List.mem_map_of_mem hh
  obtain ⟨top, htop⟩ := Option.isSome_iff_exists.mp (List.isSome_max?_of_mem hin)
  obtain ⟨x, hx, hmax⟩ := List.mem_map.mp (List.max?_mem htop)
  have heligible : x ∈ eligible (refillAll p.deficits (p.heads available))
      (p.heads available) := by
    refine List.mem_filter.mpr ⟨hx, decide_eq_true ?_⟩
    rw [maxDeficit, htop]
    exact hmax
  have hlength := List.length_pos_of_mem heligible
  have hlt := Nat.mod_lt p.cursor hlength
  exact ⟨_, Option.map_eq_some_iff.mpr ⟨_, List.getElem?_eq_getElem hlt, rfl⟩⟩

end Cusco.Selections
