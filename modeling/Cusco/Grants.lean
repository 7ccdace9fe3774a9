import Mathlib.Data.List.MinMax
import Cusco.Tables

/-!
Grants held in a table. Each grant carries a stamp, which grows with every grant,
and the limit in force when it was given. When every grant is given below its
limit, the grants not newer than a given one are never more than its limit, and
so any selection of the holders is within the limit of one of them.
-/

namespace Cusco.Grants

universe u v

structure Grant where
  stamp : ℕ
  limit : ℕ
  deriving DecidableEq

variable {κ : Type u} {ν : Type v} [DecidableEq κ] (grant : ν → Option Grant)

/-- The number of grants held. -/
def held (t : Table κ ν) : ℕ := t.total (fun _ v => if (grant v).isSome then 1 else 0)

def notNewer (n : ℕ) (v : ν) : Bool := (grant v).any (fun g => g.stamp ≤ n)

/-- The number of grants held that are not newer than a stamp. -/
def heldBy (t : Table κ ν) (n : ℕ) : ℕ := t.total (fun _ v => if notNewer grant n v then 1 else 0)

/-- Every grant is older than the clock, and was given within its limit. -/
structure Bounded (t : Table κ ν) (clock : ℕ) : Prop where
  older : ∀ k v g, t.lookup k = some v → grant v = some g → g.stamp < clock
  within : ∀ k v g, t.lookup k = some v → grant v = some g → heldBy grant t g.stamp ≤ g.limit

variable {grant}

theorem notNewer_of_grant {v : ν} {g : Grant} (h : grant v = some g) (n : ℕ) :
    notNewer grant n v = true ↔ g.stamp ≤ n := by
  simp [notNewer, h]

theorem notNewer_of_none {v : ν} (h : grant v = none) (n : ℕ) : notNewer grant n v = false := by
  simp [notNewer, h]

theorem Bounded.empty (clock : ℕ) : Bounded grant (∅ : Table κ ν) clock :=
  ⟨fun _ _ _ h => (nomatch h), fun _ _ _ h => (nomatch h)⟩

theorem heldBy_le_held (t : Table κ ν) (n : ℕ) : heldBy grant t n ≤ held grant t := by
  apply AList.total_mono
  intro k v _
  cases hg : grant v with
  | none => simp [notNewer, hg]
  | some g =>
    simp only [Option.isSome_some, if_true]
    split <;> omega

/-- Giving up a grant. -/
theorem Bounded.erase {t : Table κ ν} {clock : ℕ} (h : Bounded grant t clock) (k : κ) :
    Bounded grant (t.erase k) clock := by
  have hsub : ∀ c v, (t.erase k).lookup c = some v → t.lookup c = some v := by
    intro c v hc
    rw [AList.lookup_erase_ite] at hc
    split at hc
    · cases hc
    · exact hc
  constructor
  · intro c v g hc
    exact h.older c v g (hsub c v hc)
  · intro c v g hc hg
    have hle : heldBy grant (t.erase k) g.stamp ≤ heldBy grant t g.stamp :=
      AList.total_erase_le _ t k
    have hwithin := h.within c v g (hsub c v hc) hg
    omega

theorem total_insert_same (f : ν → ℕ) {t : Table κ ν} {k : κ} {v w : ν}
    (hk : t.lookup k = some v) (hf : f w = f v) :
    (t.insert k w).total (fun _ x => f x) = t.total (fun _ x => f x) := by
  rw [AList.total_insert, AList.total_erase (fun _ x => f x) t k v hk, hf]

theorem held_insert_same {t : Table κ ν} {k : κ} {v w : ν} (hk : t.lookup k = some v)
    (hsame : grant w = grant v) : held grant (t.insert k w) = held grant t :=
  total_insert_same (fun x => if (grant x).isSome then 1 else 0) hk (by rw [hsame])

/-- A change that keeps every grant. -/
theorem Bounded.insert_same {t : Table κ ν} {clock : ℕ} {k : κ} {v w : ν}
    (h : Bounded grant t clock) (hk : t.lookup k = some v) (hsame : grant w = grant v) :
    Bounded grant (t.insert k w) clock := by
  have hheld : ∀ n, heldBy grant (t.insert k w) n = heldBy grant t n := by
    intro n
    have hnewer : notNewer grant n w = notNewer grant n v := by simp only [notNewer, hsame]
    exact total_insert_same (fun x => if notNewer grant n x then 1 else 0) hk (by rw [hnewer])
  have hold : ∀ c x g, (t.insert k w).lookup c = some x → grant x = some g →
      ∃ y, t.lookup c = some y ∧ grant y = some g := by
    intro c x g hc hg
    rw [AList.lookup_insert_ite] at hc
    split at hc
    · rename_i heq
      cases hc
      exact ⟨v, heq ▸ hk, hsame ▸ hg⟩
    · exact ⟨x, hc, hg⟩
  constructor
  · intro c x g hc hg
    obtain ⟨y, hy, hgy⟩ := hold c x g hc hg
    exact h.older c y g hy hgy
  · intro c x g hc hg
    obtain ⟨y, hy, hgy⟩ := hold c x g hc hg
    rw [hheld]
    exact h.within c y g hy hgy

/-- The total of a measure after one key is bound to a value, when what it was bound
to before measured nothing. -/
theorem total_insert_zero (f : ν → ℕ) {t : Table κ ν} {k : κ} {w : ν}
    (hk : ∀ v, t.lookup k = some v → f v = 0) :
    (t.insert k w).total (fun _ x => f x) = f w + t.total (fun _ x => f x) := by
  rw [AList.total_insert]
  cases hlookup : t.lookup k with
  | none => rw [AList.erase_of_lookup_none t k hlookup]
  | some v => rw [AList.total_erase (fun _ x => f x) t k v hlookup, hk v hlookup, Nat.zero_add]

theorem held_insert_none {t : Table κ ν} {k : κ} {w : ν} (hnew : t.lookup k = none)
    (hw : grant w = none) : held grant (t.insert k w) = held grant t := by
  unfold held
  rw [AList.total_insert_new _ t k w hnew, hw]
  simp

theorem held_insert_grant {t : Table κ ν} {k : κ} {w : ν} {g : Grant}
    (hk : ∀ v, t.lookup k = some v → grant v = none) (hw : grant w = some g) :
    held grant (t.insert k w) = held grant t + 1 := by
  have hzero : ∀ v, t.lookup k = some v → (if (grant v).isSome then 1 else 0) = 0 :=
    fun v hv => by simp [hk v hv]
  unfold held
  rw [total_insert_zero (fun x => if (grant x).isSome then 1 else 0) hzero, hw]
  simp only [Option.isSome_some, if_true]
  omega

/-- Adding a value without a grant. -/
theorem Bounded.insert_none {t : Table κ ν} {clock : ℕ} {k : κ} {w : ν}
    (h : Bounded grant t clock) (hnew : t.lookup k = none) (hw : grant w = none) :
    Bounded grant (t.insert k w) clock := by
  have hheld : ∀ n, heldBy grant (t.insert k w) n = heldBy grant t n := by
    intro n
    unfold heldBy
    rw [AList.total_insert_new _ t k w hnew, notNewer_of_none hw]
    simp
  have hold : ∀ c x g, (t.insert k w).lookup c = some x → grant x = some g →
      t.lookup c = some x := by
    intro c x g hc hg
    rw [AList.lookup_insert_ite] at hc
    split at hc
    · cases hc
      rw [hw] at hg
      cases hg
    · exact hc
  constructor
  · intro c x g hc hg
    exact h.older c x g (hold c x g hc hg) hg
  · intro c x g hc hg
    rw [hheld]
    exact h.within c x g (hold c x g hc hg) hg

/-- Giving a grant, stamped with the clock, while fewer than its limit are held. -/
theorem Bounded.insert_grant {t : Table κ ν} {clock limit : ℕ} {k : κ} {w : ν}
    (h : Bounded grant t clock) (hk : ∀ v, t.lookup k = some v → grant v = none)
    (hw : grant w = some ⟨clock, limit⟩) (hlimit : held grant t < limit) :
    Bounded grant (t.insert k w) (clock + 1) := by
  have hheld : ∀ n, n < clock → heldBy grant (t.insert k w) n = heldBy grant t n := by
    intro n hn
    have hzero : ∀ v, t.lookup k = some v → (if notNewer grant n v then 1 else 0) = 0 :=
      fun v hv => by simp [notNewer_of_none (hk v hv)]
    have hnew : notNewer grant n w = false := by
      simp only [notNewer, hw, Option.any_some, decide_eq_false_iff_not]
      omega
    unfold heldBy
    rw [total_insert_zero (fun x => if notNewer grant n x then 1 else 0) hzero, hnew]
    simp
  constructor
  · intro c x g hc hg
    rw [AList.lookup_insert_ite] at hc
    split at hc
    · cases hc
      rw [hw] at hg
      cases hg
      exact Nat.lt_succ_self clock
    · have := h.older c x g hc hg
      omega
  · intro c x g hc hg
    rw [AList.lookup_insert_ite] at hc
    split at hc
    · cases hc
      rw [hw] at hg
      cases hg
      have hle : heldBy grant (t.insert k w) clock ≤ held grant (t.insert k w) :=
        heldBy_le_held _ clock
      have hone := held_insert_grant hk hw
      show heldBy grant (t.insert k w) clock ≤ limit
      omega
    · rw [hheld g.stamp (h.older c x g hc hg)]
      exact h.within c x g hc hg

/-- A value of largest rank among the values of a table that satisfy a predicate. -/
theorem exists_newest (t : Table κ ν) (p : ν → Bool) (rank : ν → ℕ) (k : κ) (v : ν)
    (hk : t.lookup k = some v) (hp : p v = true) :
    ∃ c m, t.lookup c = some m ∧ p m = true ∧
      ∀ d w, t.lookup d = some w → p w = true → rank w ≤ rank m := by
  have hselected : ∀ d w, t.lookup d = some w → p w = true → w ∈ t.values.filter p :=
    fun d w hd hw => List.mem_filter.mpr ⟨(AList.mem_values_iff t w).mpr ⟨d, hd⟩, hw⟩
  cases hmax : (t.values.filter p).argmax rank with
  | none =>
    have hnil := List.argmax_eq_none.mp hmax
    have hmem := hselected k v hk hp
    rw [hnil] at hmem
    cases hmem
  | some m =>
    obtain ⟨hvalues, hpm⟩ := List.mem_filter.mp (List.argmax_mem hmax)
    obtain ⟨c, hc⟩ := (AList.mem_values_iff t m).mp hvalues
    exact ⟨c, m, hc, hpm, fun d w hd hw => List.le_of_mem_argmax (hselected d w hd hw) hmax⟩

/-- Any selection of holders is within the limit of one of them. -/
theorem Bounded.peak {t : Table κ ν} {clock : ℕ} (h : Bounded grant t clock) (p : ν → Bool)
    (hp : ∀ k v, t.lookup k = some v → p v = true → (grant v).isSome) :
    t.total (fun _ v => if p v then 1 else 0) = 0 ∨
      ∃ k v g, t.lookup k = some v ∧ p v = true ∧ grant v = some g ∧
        t.total (fun _ v => if p v then 1 else 0) ≤ g.limit := by
  by_cases hany : ∃ k v, t.lookup k = some v ∧ p v = true
  · obtain ⟨k, v, hk, hpv⟩ := hany
    obtain ⟨c, m, hc, hpm, hnewest⟩ :=
      exists_newest t p (fun w => (grant w).elim 0 Grant.stamp) k v hk hpv
    obtain ⟨g, hg⟩ := Option.isSome_iff_exists.mp (hp c m hc hpm)
    refine Or.inr ⟨c, m, g, hc, hpm, hg, ?_⟩
    have hle : t.total (fun _ v => if p v then 1 else 0) ≤ heldBy grant t g.stamp := by
      apply AList.total_mono
      intro d w hd
      by_cases hpw : p w = true
      · obtain ⟨r, hr⟩ := Option.isSome_iff_exists.mp (hp d w hd hpw)
        have hrank := hnewest d w hd hpw
        simp only [hr, hg, Option.elim_some] at hrank
        rw [if_pos hpw, if_pos ((notNewer_of_grant hr g.stamp).mpr hrank)]
      · rw [if_neg hpw]
        exact Nat.zero_le _
    have hwithin := h.within c m g hc hg
    omega
  · apply Or.inl
    rw [AList.total_eq_zero_iff]
    intro k v hk
    exact if_neg fun hpv => hany ⟨k, v, hk, hpv⟩

end Cusco.Grants
