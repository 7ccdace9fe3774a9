import Mathlib.Tactic.Common

/-!
Partial maps whose values may name a predecessor. A map is linked when the
predecessor of every value is present and is followed by that value only. A
removal keeps a linked map linked exactly when it takes the followers of what it
takes, and a new value may start a lineage or follow a value that nothing follows.
-/

namespace Cusco.Lineages

universe u v

variable {κ : Type u} {ν : Type v}

section Linked

variable (parent : ν → Option κ) (follows : ν → ν → Prop)

/-- Every predecessor is present, in the given relation to the value that names it,
and has one follower at most. -/
structure Linked (f : κ → Option ν) : Prop where
  unique : ∀ a b x y p, f a = some x → f b = some y → parent x = some p → parent y = some p →
    a = b
  based : ∀ a x p, f a = some x → parent x = some p → ∃ w, f p = some w ∧ follows w x

/-- A key leads back to a value without a predecessor. -/
inductive Whole (f : κ → Option ν) : κ → Prop
  | root {a : κ} {x : ν} (hlookup : f a = some x) (hparent : parent x = none) : Whole f a
  | next {a p : κ} {x : ν} (hlookup : f a = some x) (hparent : parent x = some p)
      (hbase : Whole f p) : Whole f a

/-- What goes takes its followers with it. -/
def Closed (f : κ → Option ν) (gone : κ → Prop) : Prop :=
  ∀ a x p, f a = some x → parent x = some p → gone p → gone a

end Linked

variable {parent : ν → Option κ} {follows : ν → ν → Prop}

theorem Linked.empty : Linked parent follows (fun _ => none) :=
  ⟨fun _ _ _ _ _ h => (nomatch h), fun _ _ _ h => (nomatch h)⟩

/-- A removal keeps the map linked exactly when it is closed under followers. -/
theorem Linked.removal_iff {f g : κ → Option ν} (hf : Linked parent follows f) (gone : κ → Prop)
    (hkept : ∀ a, ¬ gone a → g a = f a) (hgone : ∀ a, gone a → g a = none) :
    Linked parent follows g ↔ Closed parent f gone := by
  have hsub : ∀ a x, g a = some x → ¬ gone a ∧ f a = some x := by
    intro a x hx
    have hnot : ¬ gone a := by
      intro h
      rw [hgone a h] at hx
      cases hx
    exact ⟨hnot, by rw [← hkept a hnot, hx]⟩
  constructor
  · intro hg a x p hx hp hgp
    by_contra hga
    obtain ⟨w, hw, _⟩ := hg.based a x p (by rw [hkept a hga, hx]) hp
    exact (hsub p w hw).1 hgp
  · intro hclosed
    constructor
    · intro a b x y p hx hy
      exact hf.unique a b x y p (hsub a x hx).2 (hsub b y hy).2
    · intro a x p hx hp
      obtain ⟨hga, hfx⟩ := hsub a x hx
      obtain ⟨w, hw, hfollows⟩ := hf.based a x p hfx hp
      have hgp : ¬ gone p := fun h => hga (hclosed a x p hfx hp h)
      exact ⟨w, by rw [hkept p hgp, hw], hfollows⟩

section Insertion

variable {f g : κ → Option ν} {k : κ} {z : ν}

/-- A value without a predecessor starts a lineage. -/
theorem Linked.insert_root (hf : Linked parent follows f) (hnew : f k = none)
    (hroot : parent z = none) (hk : g k = some z) (hne : ∀ a, a ≠ k → g a = f a) :
    Linked parent follows g := by
  have hold : ∀ a x p, g a = some x → parent x = some p → f a = some x := by
    intro a x p hx hp
    by_cases ha : a = k
    · subst ha
      rw [hk] at hx
      cases hx
      rw [hroot] at hp
      cases hp
    · rw [← hne a ha, hx]
  constructor
  · intro a b x y p hx hy hxp hyp
    exact hf.unique a b x y p (hold a x p hx hxp) (hold b y p hy hyp) hxp hyp
  · intro a x p hx hp
    obtain ⟨w, hw, hfollows⟩ := hf.based a x p (hold a x p hx hp) hp
    have hpk : p ≠ k := by
      rintro rfl
      rw [hnew] at hw
      cases hw
    exact ⟨w, by rw [hne p hpk, hw], hfollows⟩

/-- A value may follow a present value that nothing follows. -/
theorem Linked.insert_next {b : κ} {w : ν} (hf : Linked parent follows f) (hnew : f k = none)
    (hparent : parent z = some b) (hbase : f b = some w) (hfollows : follows w z)
    (hlast : ∀ a x, f a = some x → parent x ≠ some b) (hk : g k = some z)
    (hne : ∀ a, a ≠ k → g a = f a) : Linked parent follows g := by
  have hold : ∀ a x, g a = some x → (a = k ∧ x = z) ∨ f a = some x := by
    intro a x hx
    by_cases ha : a = k
    · subst ha
      rw [hk] at hx
      exact Or.inl ⟨rfl, (Option.some.inj hx).symm⟩
    · exact Or.inr (by rw [← hne a ha, hx])
  have hthere : ∀ p v, f p = some v → g p = some v := by
    intro p v hp
    have hpk : p ≠ k := by
      rintro rfl
      rw [hnew] at hp
      cases hp
    rw [hne p hpk, hp]
  constructor
  · intro a c x y p hx hy hxp hyp
    rcases hold a x hx with ⟨rfl, rfl⟩ | hx
    · rcases hold c y hy with ⟨rfl, rfl⟩ | hy
      · rfl
      · rw [hparent] at hxp
        cases hxp
        exact absurd hyp (hlast c y hy)
    · rcases hold c y hy with ⟨rfl, rfl⟩ | hy
      · rw [hparent] at hyp
        cases hyp
        exact absurd hxp (hlast a x hx)
      · exact hf.unique a c x y p hx hy hxp hyp
  · intro a x p hx hp
    rcases hold a x hx with ⟨rfl, rfl⟩ | hx
    · rw [hparent] at hp
      cases hp
      exact ⟨w, hthere _ w hbase, hfollows⟩
    · obtain ⟨v, hv, hvx⟩ := hf.based a x p hx hp
      exact ⟨v, hthere p v hv, hvx⟩

/-- An insertion that leaves a linked map had one before it, when nothing names
the new key. -/
theorem Linked.of_insert (hg : Linked parent follows g) (hnew : f k = none)
    (hunnamed : ∀ a x, f a = some x → parent x ≠ some k) (hne : ∀ a, a ≠ k → g a = f a) :
    Linked parent follows f := by
  have hthere : ∀ a x, f a = some x → g a = some x := by
    intro a x hx
    have hak : a ≠ k := by
      rintro rfl
      rw [hnew] at hx
      cases hx
    rw [hne a hak, hx]
  constructor
  · intro a b x y p hx hy
    exact hg.unique a b x y p (hthere a x hx) (hthere b y hy)
  · intro a x p hx hp
    obtain ⟨w, hw, hfollows⟩ := hg.based a x p (hthere a x hx) hp
    have hpk : p ≠ k := by
      rintro rfl
      exact hunnamed a x hx hp
    exact ⟨w, by rw [← hne p hpk, hw], hfollows⟩

end Insertion

/-- The whole lineage of a value is present, also in a map restricted to values
with a property that predecessors share. -/
theorem Linked.whole {f g : κ → Option ν} (hf : Linked parent follows f) (rank : ν → ℕ)
    (hrank : ∀ w x, follows w x → rank w < rank x) (keep : ν → Prop)
    (hkeep : ∀ w x, follows w x → keep x → keep w)
    (hg : ∀ a x, f a = some x → keep x → g a = some x) (a : κ) (x : ν) (hx : f a = some x)
    (hkx : keep x) : Whole parent g a := by
  induction hn : rank x using Nat.strongRecOn generalizing a x with
  | ind n ih =>
    cases hp : parent x with
    | none => exact .root (hg a x hx hkx) hp
    | some p =>
      obtain ⟨w, hw, hfollows⟩ := hf.based a x p hx hp
      have hlt : rank w < n := by
        rw [← hn]
        exact hrank w x hfollows
      exact .next (hg a x hx hkx) hp (ih (rank w) hlt p w hw (hkeep w x hfollows hkx) rfl)

end Cusco.Lineages
