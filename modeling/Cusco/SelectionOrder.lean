import Cusco.Selections

/-!
Selections conserve the queue. A selection finds an entry whenever one is available; it takes
the earliest available entry of its flow and leaves all others in their order. So the entries
that enter a queue are the ones that leave it and the ones that are left, and entries of one
flow that stay available leave in the order in which they entered.
-/

namespace Cusco.SelectionOrder

open SchedulerPolicy FairPolicy Selections Runs

section Heads

variable (p : FairPolicy) (available : ℕ → Bool)

/-- No earlier entry of the flow is available. -/
def Earliest (h : Head) : Prop :=
  ∀ e ∈ p.runnable.take h.index, e.flow = h.entry.flow → available e.id = false

theorem collectHeads_earliest (done rest : List PolicyEntry) (heads : List Head)
    (hqueue : p.runnable = done ++ rest) (hheads : ∀ h ∈ heads, Earliest p available h)
    (hdone : ∀ e ∈ done, available e.id = true → ∃ h ∈ heads, h.entry.flow = e.flow) :
    ∀ h ∈ p.collectHeads available rest done.length heads, Earliest p available h := by
  induction rest generalizing done heads with
  | nil => exact hheads
  | cons entry rest ih =>
    have hnext : p.runnable = (done ++ [entry]) ++ rest := by
      rw [hqueue, List.append_assoc, List.singleton_append]
    have hlength : done.length + 1 = (done ++ [entry]).length := by simp
    rw [collectHeads, hlength]
    split
    · rename_i hold
      apply ih (done ++ [entry]) heads hnext hheads
      intro e he havailable
      rcases List.mem_append.mp he with he | he
      · exact hdone e he havailable
      · rw [List.mem_singleton.mp he] at havailable ⊢
        simpa [havailable] using hold
    · rename_i hnew
      simp only [Bool.or_eq_true, List.any_eq_true, decide_eq_true_eq, not_or, not_exists,
        not_and] at hnew
      apply ih (done ++ [entry]) _ hnext
      · intro h hh
        rcases List.mem_append.mp hh with hh | hh
        · exact hheads h hh
        · rw [List.mem_singleton.mp hh]
          intro e he hflow
          have he : e ∈ done := by simpa [headOf, hqueue] using he
          by_contra havailable
          obtain ⟨h, hh, heq⟩ := hdone e he (by simpa using havailable)
          exact hnew.1 h hh (heq.trans hflow)
      · intro e he havailable
        rcases List.mem_append.mp he with he | he
        · obtain ⟨h, hh, heq⟩ := hdone e he havailable
          exact ⟨h, List.mem_append_left _ hh, heq⟩
        · rw [List.mem_singleton.mp he]
          exact ⟨_, List.mem_append_right _ List.mem_cons_self, rfl⟩

theorem heads_earliest : ∀ h ∈ p.heads available, Earliest p available h :=
  collectHeads_earliest p available [] p.runnable [] rfl nofun nofun

/-- The heads with the most credit. -/
def eligibleHeads : List Head :=
  eligible (refillAll p.deficits (p.heads available)) (p.heads available)

/-- The head that a selection takes. -/
def chosen : Option Head :=
  (eligibleHeads p available)[p.cursor % (eligibleHeads p available).length]?

theorem select_eq : p.select available = (chosen p available).map
    (take p (refillAll p.deficits (p.heads available)) (p.heads available)) := rfl

theorem chosen_mem (h : Head) (hchosen : chosen p available = some h) :
    h ∈ p.heads available :=
  List.mem_of_mem_filter (List.mem_of_getElem? hchosen)

end Heads

section Steps

/-- What a selection takes, and what it leaves. -/
structure Takes (p : FairPolicy) (available : ℕ → Bool) (selection : Selection)
    (p' : FairPolicy) (i : ℕ) (e : PolicyEntry) : Prop where
  entry : p.runnable[i]? = some e
  id_eq : selection.id = e.id
  available_eq : available e.id = true
  earliest : ∀ x ∈ p.runnable.take i, x.flow = e.flow → available x.id = false
  others : p'.runnable = p.runnable.eraseIdx i
  deficits : ∀ flow, (∀ x ∈ p.runnable, x.flow = flow → available x.id = false) →
    p'.deficits.lookup flow = p.deficits.lookup flow

/-- The promises on one selection. The index of the choice among the eligible heads and those
of the removal from the queue are in range. -/
structure Conserves (p : FairPolicy) (available : ℕ → Bool) : Prop where
  none_iff : p.select available = none ↔ ∀ e ∈ p.runnable, available e.id = false
  takes : ∀ selection p', p.select available = some (selection, p') →
    ∃ i e, Takes p available selection p' i e
  choice : p.heads available ≠ [] →
    p.cursor % (eligibleHeads p available).length < (eligibleHeads p available).length
  places : ∀ h ∈ p.heads available, h.index < p.runnable.length

variable (p : FairPolicy) (available : ℕ → Bool)

theorem refillAll_lookup (deficits : Table FlowKey ℤ) (heads : List Head) (flow : FlowKey)
    (h : ∀ x ∈ heads, x.entry.flow ≠ flow) :
    (refillAll deficits heads).lookup flow = deficits.lookup flow := by
  induction heads generalizing deficits with
  | nil => rfl
  | cons head rest ih =>
    obtain ⟨hhead, hrest⟩ := List.forall_mem_cons.mp h
    refine (ih (refill deficits head) hrest).trans ?_
    rw [refill, AList.lookup_insert_ite, if_neg (Ne.symm hhead)]

theorem takes_of_chosen (h : Head) (hchosen : chosen p available = some h) :
    Takes p available (take p (refillAll p.deficits (p.heads available)) (p.heads available) h).1
      (take p (refillAll p.deficits (p.heads available)) (p.heads available) h).2
      h.index h.entry := by
  have hmem := chosen_mem p available h hchosen
  obtain ⟨hplace, havailable, _⟩ := heads_placed p available h hmem
  refine ⟨hplace, rfl, havailable, heads_earliest p available h hmem, rfl, ?_⟩
  intro flow hflow
  apply refillAll_lookup
  intro x hx heq
  obtain ⟨hx, hxavailable, _⟩ := heads_placed p available x hx
  have hnone := hflow x.entry (List.mem_of_getElem? hx) heq
  rw [hnone] at hxavailable
  cases hxavailable

theorem conserves : Conserves p available where
  none_iff := by
    constructor
    · intro hnone e he
      by_contra havailable
      obtain ⟨x, hx⟩ := exists_select p available e he (by simpa using havailable)
      rw [hnone] at hx
      cases hx
    · intro hall
      rw [select_eq, Option.map_eq_none_iff, Option.eq_none_iff_forall_ne_some]
      intro h hchosen
      obtain ⟨hplace, havailable, _⟩ :=
        heads_placed p available h (chosen_mem p available h hchosen)
      rw [hall h.entry (List.mem_of_getElem? hplace)] at havailable
      cases havailable
  takes := by
    intro selection p' hselect
    rw [select_eq] at hselect
    obtain ⟨h, hchosen, htake⟩ := Option.map_eq_some_iff.mp hselect
    have htakes := takes_of_chosen p available h hchosen
    rw [htake] at htakes
    exact ⟨h.index, h.entry, htakes⟩
  choice := by
    intro hne
    obtain ⟨h, hh⟩ := List.exists_mem_of_ne_nil _ hne
    obtain ⟨hplace, havailable, _⟩ := heads_placed p available h hh
    obtain ⟨x, hx⟩ := exists_select p available h.entry (List.mem_of_getElem? hplace) havailable
    rw [select_eq] at hx
    obtain ⟨head, hchosen, _⟩ := Option.map_eq_some_iff.mp hx
    exact (List.getElem?_eq_some_iff.mp hchosen).1
  places := by
    intro h hh
    obtain ⟨hplace, _, _⟩ := heads_placed p available h hh
    exact (List.getElem?_eq_some_iff.mp hplace).1

end Steps

section Queues

/-- The operations of the policy. -/
inductive Action
  | enqueue (id : ℕ) (flow : FlowKey) (admittedRound : ℕ)
  | select (available : ℕ → Bool)
  | charge (flow : FlowKey) (tokens : ℕ) (scale : ℤ)
  | clearIfIdle (flow : FlowKey) (jobFlows : List FlowKey)
  | remove (id : ℕ)

def act (p : FairPolicy) : Action → Option FairPolicy
  | .enqueue id flow admittedRound => some (p.enqueue id flow admittedRound)
  | .select available => (p.select available).map Prod.snd
  | .charge flow tokens scale => some (p.charge flow tokens scale)
  | .clearIfIdle flow jobFlows => some (p.clearIfIdle flow jobFlows)
  | .remove id => some (p.remove id).2

def Step (p : FairPolicy) (a : Action) (p' : FairPolicy) : Prop := act p a = some p'

/-- The entry that a step selects. -/
def selected (p : FairPolicy) : Action → List PolicyEntry
  | .select available => ((chosen p available).map Head.entry).toList
  | _ => []

def entered (_ : FairPolicy) : Action → List PolicyEntry
  | .enqueue id flow admittedRound => [⟨id, flow, admittedRound⟩]
  | _ => []

def withdrawn (p : FairPolicy) : Action → List PolicyEntry
  | .remove id => p.runnable.filter (fun e => e.id = id)
  | _ => []

/-- The entries of all steps of a run. -/
def gather (entries : FairPolicy → Action → List PolicyEntry) (p : FairPolicy) :
    List (Action × FairPolicy) → List PolicyEntry
  | [] => []
  | (a, p') :: rest => entries p a ++ gather entries p' rest

/-- The entries of the class stay available and are not removed. -/
def Stays (P : PolicyEntry → Bool) (p : FairPolicy) : Action → Prop
  | .select available => ∀ e ∈ p.runnable, P e = true → available e.id = true
  | .remove id => ∀ e ∈ p.runnable, P e = true → e.id ≠ id
  | _ => True

theorem clearIfIdle_runnable (p : FairPolicy) (flow : FlowKey) (jobFlows : List FlowKey) :
    (p.clearIfIdle flow jobFlows).runnable = p.runnable := by
  unfold FairPolicy.clearIfIdle
  split <;> rfl

theorem split_at (l : List PolicyEntry) (i : ℕ) (e : PolicyEntry) (h : l[i]? = some e) :
    l = l.take i ++ e :: l.drop (i + 1) ∧ l.eraseIdx i = l.take i ++ l.drop (i + 1) := by
  obtain ⟨hi, rfl⟩ := List.getElem?_eq_some_iff.mp h
  refine ⟨?_, List.eraseIdx_eq_take_drop_succ l i⟩
  rw [List.getElem_cons_drop, List.take_append_drop]

/-- A selection takes one entry out of the queue, the first of its flow that is available. -/
theorem select_step {p p' : FairPolicy} {available : ℕ → Bool}
    (hstep : Step p (.select available) p') :
    ∃ h : Head, selected p (.select available) = [h.entry] ∧
      (∀ e ∈ p.runnable.take h.index, e.flow = h.entry.flow → available e.id = false) ∧
      p.runnable = p.runnable.take h.index ++ h.entry :: p.runnable.drop (h.index + 1) ∧
      p'.runnable = p.runnable.take h.index ++ p.runnable.drop (h.index + 1) := by
  obtain ⟨⟨selection, p''⟩, hselect, rfl⟩ := Option.map_eq_some_iff.mp hstep
  rw [select_eq] at hselect
  obtain ⟨h, hchosen, htake⟩ := Option.map_eq_some_iff.mp hselect
  have htakes := takes_of_chosen p available h hchosen
  rw [htake] at htakes
  obtain ⟨hqueue, herase⟩ := split_at _ _ _ htakes.entry
  exact ⟨h, by simp [selected, hchosen], htakes.earliest, hqueue, htakes.others.trans herase⟩

/-- What leaves the queue in a step and what is left are what was there and what entered. -/
theorem balanced_step {p p' : FairPolicy} {a : Action} (hstep : Step p a p') :
    (selected p a ++ (withdrawn p a ++ p'.runnable)).Perm (p.runnable ++ entered p a) := by
  cases a with
  | enqueue id flow admittedRound =>
    cases hstep
    exact List.Perm.refl _
  | select available =>
    obtain ⟨h, hselected, hearliest, hqueue, hothers⟩ := select_step hstep
    rw [hselected, hothers]
    simp only [withdrawn, entered, List.nil_append, List.append_nil, List.singleton_append]
    nth_rewrite 3 [hqueue]
    exact List.perm_middle.symm
  | charge flow tokens scale =>
    cases hstep
    simp [selected, withdrawn, entered, FairPolicy.charge]
  | clearIfIdle flow jobFlows =>
    cases hstep
    rw [clearIfIdle_runnable]
    simp [selected, withdrawn, entered]
  | remove id =>
    cases hstep
    simp only [selected, withdrawn, entered, FairPolicy.remove, List.nil_append,
      List.append_nil]
    simpa using List.filter_append_perm (fun e : PolicyEntry => decide (e.id = id)) p.runnable

/-- A step takes entries of the class, all of one flow, from the front and appends at the
back. -/
theorem ordered_step {p p' : FairPolicy} {a : Action} (P : PolicyEntry → Bool) (flow : FlowKey)
    (hP : ∀ e, P e = true → e.flow = flow) (hstep : Step p a p') (hstays : Stays P p a) :
    (selected p a).filter P ++ p'.runnable.filter P =
      p.runnable.filter P ++ (entered p a).filter P := by
  cases a with
  | enqueue id flow admittedRound =>
    cases hstep
    simp [selected, entered, FairPolicy.enqueue]
  | select available =>
    obtain ⟨h, hselected, hearliest, hqueue, hothers⟩ := select_step hstep
    rw [hselected, hothers, List.filter_append]
    simp only [entered, List.filter_nil, List.append_nil]
    nth_rewrite 3 [hqueue]
    rw [List.filter_append]
    cases hentry : P h.entry with
    | false => simp [hentry]
    | true =>
      -- an earlier entry of the class would be available, and of the same flow
      have hfront : (p.runnable.take h.index).filter P = [] := by
        rw [List.filter_eq_nil_iff]
        intro e he hPe
        have hsame : e.flow = h.entry.flow := (hP e hPe).trans (hP h.entry hentry).symm
        have hstay := hstays e (List.mem_of_mem_take he) hPe
        rw [hearliest e he hsame] at hstay
        cases hstay
      simp [hfront, hentry]
  | charge flow tokens scale =>
    cases hstep
    simp [selected, entered, FairPolicy.charge]
  | clearIfIdle flow jobFlows =>
    cases hstep
    rw [clearIfIdle_runnable]
    simp [selected, entered]
  | remove id =>
    cases hstep
    simp only [selected, entered, List.filter_nil, List.nil_append, List.append_nil,
      FairPolicy.remove, List.filter_filter]
    apply List.filter_congr
    intro e he
    cases hPe : P e with
    | false => rfl
    | true => simpa using hstays e he hPe

/-- The promises on a run: no entry is lost or duplicated, and entries of one flow that stay
available are selected in their order. -/
structure Accounts (p : FairPolicy) (run : List (Action × FairPolicy)) : Prop where
  balanced : (gather selected p run ++ (gather withdrawn p run ++ (last p run).runnable)).Perm
    (p.runnable ++ gather entered p run)
  ordered : ∀ (P : PolicyEntry → Bool) (flow : FlowKey), (∀ e, P e = true → e.flow = flow) →
    Meets (Stays P) p run → (gather selected p run).filter P ++ (last p run).runnable.filter P =
      p.runnable.filter P ++ (gather entered p run).filter P

theorem balanced_of_run (p : FairPolicy) (run : List (Action × FairPolicy))
    (hrun : IsRun Step p run) :
    (gather selected p run ++ (gather withdrawn p run ++ (last p run).runnable)).Perm
      (p.runnable ++ gather entered p run) := by
  induction run generalizing p with
  | nil => simp [gather, last]
  | cons head rest ih =>
    obtain ⟨a, p'⟩ := head
    have hstep := balanced_step hrun.1
    have hrest := ih p' hrun.2
    rw [List.perm_iff_count] at hstep hrest ⊢
    intro e
    have hhere := hstep e
    have hlater := hrest e
    simp only [gather, last, List.count_append] at hhere hlater ⊢
    omega

theorem ordered_of_run (P : PolicyEntry → Bool) (flow : FlowKey)
    (hP : ∀ e, P e = true → e.flow = flow) (p : FairPolicy) (run : List (Action × FairPolicy))
    (hrun : IsRun Step p run) (hstays : Meets (Stays P) p run) :
    (gather selected p run).filter P ++ (last p run).runnable.filter P =
      p.runnable.filter P ++ (gather entered p run).filter P := by
  induction run generalizing p with
  | nil => simp [gather, last]
  | cons head rest ih =>
    obtain ⟨a, p'⟩ := head
    have hstep := ordered_step P flow hP hrun.1 hstays.1
    have hrest := ih p' hrun.2 hstays.2
    simp only [gather, last, List.filter_append, List.append_assoc]
    rw [hrest, ← List.append_assoc, hstep, List.append_assoc]

/-- Every selection conserves the queue, and so does every run. -/
theorem select_conserves_work (p : FairPolicy) :
    (∀ available, Conserves p available) ∧ ∀ run, IsRun Step p run → Accounts p run :=
  ⟨conserves p, fun run hrun => ⟨balanced_of_run p run hrun,
    fun P flow hP hstays => ordered_of_run P flow hP p run hrun hstays⟩⟩

/-- Two entries of one flow. -/
def twoWaiting : FairPolicy :=
  ((FairPolicy.new .default).enqueue 1 ⟨"ana", .batch⟩ 0).enqueue 2 ⟨"ana", .batch⟩ 0

theorem first_waiting_goes_first : ∃ run, IsRun Step twoWaiting run ∧
    (gather selected twoWaiting run).map PolicyEntry.id = [1, 2] ∧ Accounts twoWaiting run := by
  have hrun : (trace act twoWaiting [.select (fun _ => true), .select (fun _ => true)]).any
      (fun run => (gather selected twoWaiting run).map PolicyEntry.id = [1, 2]) = true := by
    decide +kernel
  obtain ⟨run, htrace, horder⟩ := (Option.any_eq_true _ _).mp hrun
  have hsteps := isRun_of_trace _ _ _ run htrace
  exact ⟨run, hsteps, of_decide_eq_true horder, (select_conserves_work twoWaiting).2 run hsteps⟩

end Queues

end Cusco.SelectionOrder
