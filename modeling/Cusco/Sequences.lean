import Cusco.Runs
import Mathlib.Logic.Function.Basic

/-!
A machine of token lists. Published lists and forks of them are named by handles, which are
given out in order. A list changes only when tokens are appended to the active one, or when
it is lost; lists that are neither active nor referred to may be reclaimed.
-/

namespace Cusco.Sequences

open Runs

structure Content (τ : Type) where
  tokens : List τ
  position : UInt64

@[ext] structure Machine (τ : Type) where
  published : ℕ → Option (Content τ)
  references : ℕ → UInt32
  forks : ℕ → Option (Content τ)
  active : ℕ
  next : ℕ

inductive Event (τ : Type)
  | idle
  | fork (source copy : ℕ)
  | commit (copy handle : ℕ)
  | abort (copy : ℕ)
  | activate (handle : ℕ)
  /-- Tokens are appended to the active list; its new position depends on what it was. -/
  | append (tokens : List τ) (position : Content τ → UInt64)
  | read (handle : ℕ) (content : Content τ)
  | publish (handle : ℕ) (content : Content τ)
  /-- The active list is replaced by another one. -/
  | lose (tokens : List τ)
  | refer (handle : ℕ) (change : UInt32)

namespace Machine

variable {τ : Type}

def Live (m : Machine τ) (p : ℕ) : Prop := p = m.active ∨ m.references p ≠ 0

def write (m : Machine τ) (p : ℕ) (content : Content τ) : Machine τ :=
  { m with published := Function.update m.published p (some content) }

/-- A new list with one reference. -/
def add (m : Machine τ) (content : Content τ) : Machine τ :=
  { m.write m.next content with
    references := Function.update m.references m.next 1
    next := m.next + 1 }

def withForks (m : Machine τ) (forks : ℕ → Option (Content τ)) : Machine τ :=
  { m with forks := forks }

def Does (m : Machine τ) (e : Event τ) (m' : Machine τ) : Prop :=
  match e with
  | .idle => m' = m
  | .fork source copy => copy = m.next ∧ ∃ content, m.published source = some content ∧
      m' = { m with forks := Function.update m.forks copy (some content), next := m.next + 1 }
  | .commit copy handle => handle = m.next ∧ ∃ content, m.forks copy = some content ∧
      m' = (m.add content).withForks (Function.update m.forks copy none)
  | .abort copy => m' = m.withForks (Function.update m.forks copy none)
  | .activate handle => (∃ content, m.published handle = some content) ∧
      m' = { m with active := handle }
  | .append tokens position => ∃ content, m.published m.active = some content ∧
      m' = m.write m.active ⟨content.tokens ++ tokens, position content⟩
  | .read handle content => m.published handle = some content ∧ m' = m
  | .publish handle content => handle = m.next ∧ m' = m.add content
  | .lose tokens => ∃ content, m.published m.active = some content ∧
      m' = m.write m.active ⟨tokens, content.position⟩
  | .refer handle change => (m.published handle = none ∧ m' = m) ∨
      ((∃ content, m.published handle = some content) ∧
        m' = { m with references :=
          Function.update m.references handle (m.references handle + change) })

/-- Some lists that are not live are gone. -/
structure Reclaims (m m' : Machine τ) : Prop where
  active : m'.active = m.active
  forks : m'.forks = m.forks
  next : m'.next = m.next
  kept : ∀ p, (m'.published p = m.published p ∧ m'.references p = m.references p) ∨
    (¬m.Live p ∧ m'.published p = none ∧ m'.references p = 0)

/-- A step reclaims before it does something, or after an activation. -/
def Step (m : Machine τ) (e : Event τ) (m' : Machine τ) : Prop :=
  (∃ rest, m.Reclaims rest ∧ rest.Does e m') ∨
    ∃ handle active, e = .activate handle ∧ m.Does e active ∧ active.Reclaims m'

/-- Handles that have not been given out name nothing. -/
structure Bounded (m : Machine τ) : Prop where
  published : ∀ p, m.next ≤ p → m.published p = none
  forks : ∀ q, m.next ≤ q → m.forks q = none

theorem Reclaims.refl (m : Machine τ) : m.Reclaims m :=
  ⟨rfl, rfl, rfl, fun _ => Or.inl ⟨rfl, rfl⟩⟩

theorem Reclaims.trans {m m' m'' : Machine τ} (h : m.Reclaims m') (h' : m'.Reclaims m'') :
    m.Reclaims m'' := by
  refine ⟨h'.active.trans h.active, h'.forks.trans h.forks, h'.next.trans h.next, ?_⟩
  intro p
  rcases h'.kept p with ⟨hpublished, hreferences⟩ | ⟨hlive, hnone, hzero⟩
  · rw [hpublished, hreferences]
    exact h.kept p
  · refine Or.inr ⟨?_, hnone, hzero⟩
    rcases h.kept p with ⟨_, hreferences⟩ | ⟨hdead, _⟩
    · unfold Live at hlive ⊢
      rw [← h.active, ← hreferences]
      exact hlive
    · exact hdead

theorem Reclaims.of_some {m m' : Machine τ} (h : m.Reclaims m') {p : ℕ} {content : Content τ}
    (hp : m'.published p = some content) : m.published p = some content := by
  rcases h.kept p with ⟨hpublished, _⟩ | ⟨_, hnone, _⟩
  · rw [← hpublished]
    exact hp
  · rw [hnone] at hp
    cases hp

theorem Reclaims.of_none {m m' : Machine τ} (h : m.Reclaims m') {p : ℕ} {content : Content τ}
    (hp : m.published p = some content) (hnone : m'.published p = none) : ¬m.Live p := by
  rcases h.kept p with ⟨hpublished, _⟩ | ⟨hdead, _⟩
  · rw [hpublished, hp] at hnone
    cases hnone
  · exact hdead

/-- The content of a list after an event, if it had one before. -/
def Becomes (m : Machine τ) (e : Event τ) (p : ℕ) (content content' : Content τ) : Prop :=
  content' = content ∨
    (p = m.active ∧ ∃ tokens position, e = .append tokens position ∧
      content' = ⟨content.tokens ++ tokens, position content⟩) ∨
    (p = m.active ∧ ∃ tokens, e = .lose tokens ∧ content' = ⟨tokens, content.position⟩)

/-- Every list that is there remains, and no other appears but under the next handle; forks
stay what they are until they go. -/
structure Effect (m : Machine τ) (e : Event τ) (m' : Machine τ) : Prop where
  active : m'.active = m.active ∨ ∃ content, m.published m'.active = some content
  lists : ∀ p, p ≠ m.next → (m.published p = none ∧ m'.published p = none) ∨
    ∃ content content', m.published p = some content ∧ m'.published p = some content' ∧
      m.Becomes e p content content'
  forks : ∀ q, q ≠ m.next → m'.forks q = m.forks q ∨ m'.forks q = none
  next : m'.next = m.next + 1 ∨ (m'.next = m.next ∧
    (m'.published m.next = m.published m.next ∨ m.next = m.active ∧ m.published m.next ≠ none) ∧
      (m'.forks m.next = m.forks m.next ∨ m'.forks m.next = none))

theorem lists_same (m : Machine τ) (e : Event τ) (p : ℕ) :
    (m.published p = none ∧ m.published p = none) ∨
      ∃ content content', m.published p = some content ∧ m.published p = some content' ∧
        m.Becomes e p content content' := by
  cases m.published p with
  | none => exact Or.inl ⟨rfl, rfl⟩
  | some content => exact Or.inr ⟨content, content, rfl, rfl, Or.inl rfl⟩

theorem lists_add (m : Machine τ) (e : Event τ) (new : Content τ) (p : ℕ) (hp : p ≠ m.next) :
    (m.published p = none ∧ (m.add new).published p = none) ∨
      ∃ content content', m.published p = some content ∧
        (m.add new).published p = some content' ∧ m.Becomes e p content content' := by
  have hsame : (m.add new).published p = m.published p := Function.update_of_ne hp _ _
  rw [hsame]
  exact lists_same m e p

theorem lists_write (m : Machine τ) (e : Event τ) (old new : Content τ)
    (hactive : m.published m.active = some old) (hnew : m.Becomes e m.active old new) (p : ℕ) :
    (m.published p = none ∧ (m.write m.active new).published p = none) ∨
      ∃ content content', m.published p = some content ∧
        (m.write m.active new).published p = some content' ∧ m.Becomes e p content content' := by
  by_cases hp : p = m.active
  · subst hp
    exact Or.inr ⟨old, new, hactive, Function.update_self _ _ _, hnew⟩
  · have hsame : (m.write m.active new).published p = m.published p :=
      Function.update_of_ne hp _ _
    rw [hsame]
    exact lists_same m e p

theorem forks_update (m : Machine τ) (copy q : ℕ) :
    Function.update m.forks copy none q = m.forks q ∨
      Function.update m.forks copy none q = none := by
  by_cases hq : q = copy
  · subst hq
    exact Or.inr (Function.update_self _ _ _)
  · exact Or.inl (Function.update_of_ne hq _ _)

theorem next_write (m : Machine τ) (old new : Content τ)
    (hactive : m.published m.active = some old) :
    (m.write m.active new).published m.next = m.published m.next ∨
      m.next = m.active ∧ m.published m.next ≠ none := by
  by_cases hnext : m.next = m.active
  · refine Or.inr ⟨hnext, ?_⟩
    rw [hnext, hactive]
    exact Option.some_ne_none old
  · exact Or.inl (Function.update_of_ne hnext _ _)

theorem Does.effect {m m' : Machine τ} {e : Event τ} (h : m.Does e m') : m.Effect e m' := by
  cases e with
  | idle =>
    obtain rfl : m' = m := h
    exact ⟨Or.inl rfl, fun p _ => lists_same m' _ p, fun _ _ => Or.inl rfl,
      Or.inr ⟨rfl, Or.inl rfl, Or.inl rfl⟩⟩
  | fork source copy =>
    obtain ⟨rfl, _, _, rfl⟩ := h
    exact ⟨Or.inl rfl, fun p _ => lists_same m _ p,
      fun _ hq => Or.inl (Function.update_of_ne hq _ _), Or.inl rfl⟩
  | commit copy handle =>
    obtain ⟨_, content, _, rfl⟩ := h
    exact ⟨Or.inl rfl, lists_add m _ content, fun q _ => forks_update m copy q, Or.inl rfl⟩
  | abort copy =>
    obtain rfl : m' = _ := h
    exact ⟨Or.inl rfl, fun p _ => lists_same m _ p, fun q _ => forks_update m copy q,
      Or.inr ⟨rfl, Or.inl rfl, forks_update m copy m.next⟩⟩
  | activate handle =>
    obtain ⟨hpublished, rfl⟩ := h
    exact ⟨Or.inr hpublished, fun p _ => lists_same m _ p, fun _ _ => Or.inl rfl,
      Or.inr ⟨rfl, Or.inl rfl, Or.inl rfl⟩⟩
  | append tokens position =>
    obtain ⟨old, hactive, rfl⟩ := h
    exact ⟨Or.inl rfl, fun p _ => lists_write m _ old _ hactive
        (Or.inr (Or.inl ⟨rfl, tokens, position, rfl, rfl⟩)) p,
      fun _ _ => Or.inl rfl, Or.inr ⟨rfl, next_write m old _ hactive, Or.inl rfl⟩⟩
  | read handle found =>
    obtain ⟨_, rfl⟩ := h
    exact ⟨Or.inl rfl, fun p _ => lists_same m' _ p, fun _ _ => Or.inl rfl,
      Or.inr ⟨rfl, Or.inl rfl, Or.inl rfl⟩⟩
  | publish handle content =>
    obtain ⟨_, rfl⟩ := h
    exact ⟨Or.inl rfl, lists_add m _ content, fun _ _ => Or.inl rfl, Or.inl rfl⟩
  | lose tokens =>
    obtain ⟨old, hactive, rfl⟩ := h
    exact ⟨Or.inl rfl, fun p _ => lists_write m _ old _ hactive
        (Or.inr (Or.inr ⟨rfl, tokens, rfl, rfl⟩)) p,
      fun _ _ => Or.inl rfl, Or.inr ⟨rfl, next_write m old _ hactive, Or.inl rfl⟩⟩
  | refer handle change =>
    rcases h with ⟨_, rfl⟩ | ⟨_, rfl⟩
    · exact ⟨Or.inl rfl, fun p _ => lists_same m' _ p, fun _ _ => Or.inl rfl,
        Or.inr ⟨rfl, Or.inl rfl, Or.inl rfl⟩⟩
    · exact ⟨Or.inl rfl, fun p _ => lists_same m _ p, fun _ _ => Or.inl rfl,
        Or.inr ⟨rfl, Or.inl rfl, Or.inl rfl⟩⟩

theorem Bounded.lt {m : Machine τ} (hm : m.Bounded) {p : ℕ} {content : Content τ}
    (hp : m.published p = some content) : p < m.next := by
  by_contra hle
  rw [hm.published p (Nat.le_of_not_lt hle)] at hp
  cases hp

/-- A list that remains is the same, unless it is the active one and tokens are appended to
it or it is lost. -/
theorem Step.becomes {m m' : Machine τ} {e : Event τ} (hm : m.Bounded) (h : m.Step e m') {p : ℕ}
    {content content' : Content τ} (hp : m.published p = some content)
    (hp' : m'.published p = some content') : m.Becomes e p content content' := by
  have hlt := hm.lt hp
  rcases h with ⟨rest, hreclaims, hdoes⟩ | ⟨_, active, _, hdoes, hreclaims⟩
  · rcases hdoes.effect.lists p (by rw [hreclaims.next]; omega) with
      ⟨_, hnone⟩ | ⟨before, after, hbefore, hafter, hbecomes⟩
    · rw [hp'] at hnone
      cases hnone
    · obtain rfl : content' = after := Option.some.inj (hp'.symm.trans hafter)
      obtain rfl : content = before :=
        Option.some.inj (hp.symm.trans (hreclaims.of_some hbefore))
      unfold Becomes at hbecomes ⊢
      rw [hreclaims.active] at hbecomes
      exact hbecomes
  · rcases hdoes.effect.lists p (by omega) with
      ⟨hnone, _⟩ | ⟨before, after, hbefore, hafter, hbecomes⟩
    · rw [hp] at hnone
      cases hnone
    · obtain rfl : content = before := Option.some.inj (hp.symm.trans hbefore)
      obtain rfl : content' = after :=
        Option.some.inj ((hreclaims.of_some hp').symm.trans hafter)
      exact hbecomes

/-- What is reclaimed had no reference, and is not active. -/
theorem Step.reclaimed {m m' : Machine τ} {e : Event τ} (hm : m.Bounded) (h : m.Step e m') {p : ℕ}
    {content : Content τ} (hp : m.published p = some content) (hnone : m'.published p = none) :
    m.references p = 0 ∧ p ≠ m'.active := by
  have hlt := hm.lt hp
  rcases h with ⟨rest, hreclaims, hdoes⟩ | ⟨handle, active, rfl, hdoes, hreclaims⟩
  · have heffect := hdoes.effect
    have hgone : rest.published p = none := by
      rcases heffect.lists p (by rw [hreclaims.next]; omega) with
        ⟨hgone, _⟩ | ⟨_, _, _, hafter, _⟩
      · exact hgone
      · rw [hnone] at hafter
        cases hafter
    obtain ⟨hinactive, hzero⟩ := not_or.mp (hreclaims.of_none hp hgone)
    refine ⟨not_not.mp hzero, ?_⟩
    rintro rfl
    rcases heffect.active with hsame | ⟨_, hpublished⟩
    · exact hinactive (hsame.trans hreclaims.active)
    · rw [hgone] at hpublished
      cases hpublished
  · obtain ⟨_, rfl⟩ := hdoes
    obtain ⟨hinactive, hzero⟩ := not_or.mp (hreclaims.of_none hp hnone)
    refine ⟨not_not.mp hzero, ?_⟩
    rw [hreclaims.active]
    exact hinactive

/-- A fork that was made stays what it is until it is gone, and does not come back. -/
def ForksKept (m m' : Machine τ) : Prop :=
  m.next ≤ m'.next ∧ ∀ q, q < m.next → m'.forks q = m.forks q ∨ m'.forks q = none

theorem ForksKept.refl (m : Machine τ) : m.ForksKept m :=
  ⟨Nat.le_refl _, fun _ _ => Or.inl rfl⟩

theorem ForksKept.trans {m m' m'' : Machine τ} (h : m.ForksKept m') (h' : m'.ForksKept m'') :
    m.ForksKept m'' := by
  refine ⟨Nat.le_trans h.1 h'.1, ?_⟩
  intro q hq
  rcases h'.2 q (Nat.lt_of_lt_of_le hq h.1) with hsame | hgone
  · rw [hsame]
    exact h.2 q hq
  · exact Or.inr hgone

theorem Step.forksKept {m m' : Machine τ} {e : Event τ} (h : m.Step e m') : m.ForksKept m' := by
  rcases h with ⟨rest, hreclaims, hdoes⟩ | ⟨_, active, _, hdoes, hreclaims⟩
  · have heffect := hdoes.effect
    have hnext := heffect.next
    have hforks := heffect.forks
    rw [hreclaims.next] at hnext hforks
    rw [hreclaims.forks] at hforks
    refine ⟨by rcases hnext with h | ⟨h, _⟩ <;> omega, ?_⟩
    exact fun q hq => hforks q (Nat.ne_of_lt hq)
  · have heffect := hdoes.effect
    refine ⟨?_, ?_⟩
    · rw [hreclaims.next]
      rcases heffect.next with h | ⟨h, _⟩ <;> omega
    · intro q hq
      rw [hreclaims.forks]
      exact heffect.forks q (Nat.ne_of_lt hq)

theorem Step.of_fork {m m' : Machine τ} {source copy : ℕ} (h : m.Step (.fork source copy) m') :
    copy < m'.next ∧ ∃ content, m.published source = some content ∧
      m'.forks copy = some content := by
  rcases h with ⟨rest, hreclaims, rfl, content, hsource, rfl⟩ | ⟨_, _, he, _⟩
  · exact ⟨Nat.lt_succ_self _, content, hreclaims.of_some hsource, Function.update_self _ _ _⟩
  · cases he

theorem Step.of_commit {m m' : Machine τ} {copy handle : ℕ} (h : m.Step (.commit copy handle) m') :
    ∃ content, m.forks copy = some content ∧ m'.published handle = some content := by
  rcases h with ⟨rest, hreclaims, rfl, content, hcopy, rfl⟩ | ⟨_, _, he, _⟩
  · rw [hreclaims.forks] at hcopy
    exact ⟨content, hcopy, Function.update_self _ _ _⟩
  · cases he

theorem Step.of_read {m m' : Machine τ} {handle : ℕ} {content : Content τ}
    (h : m.Step (.read handle content) m') : m.published handle = some content := by
  rcases h with ⟨rest, hreclaims, hread, _⟩ | ⟨_, _, he, _⟩
  · exact hreclaims.of_some hread
  · cases he

theorem Step.of_publish {m m' : Machine τ} {handle : ℕ} {content : Content τ}
    (h : m.Step (.publish handle content) m') : m'.published handle = some content := by
  rcases h with ⟨rest, _, rfl, rfl⟩ | ⟨_, _, he, _⟩
  · exact Function.update_self _ _ _
  · cases he

end Machine

end Cusco.Sequences
