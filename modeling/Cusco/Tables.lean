import Mathlib.Data.List.AList
import Mathlib.Algebra.BigOperators.Group.List.Basic
import Mathlib.Algebra.GroupWithZero.Nat
import Mathlib.Tactic.Common

/-!
Finite tables with numeric totals. A table is Mathlib's association list with
non-dependent values: every key has one value, and reading, inserting and
erasing are `AList.lookup`, `AList.insert` and `AList.erase`. Added here are
`modify`, which rewrites the value of a key already present, and `total`, the
sum of a measure over the entries. Totals do not depend on the order of the
entries, so they follow from what the keys are bound to.
-/

universe u v

/-- A finite map from keys to values. -/
abbrev Table (κ : Type u) (ν : Type v) := AList (fun _ : κ => ν)

namespace AList

section Lookup

variable {κ : Type u} {ν : Type v} [DecidableEq κ]

def values (t : Table κ ν) : List ν := t.entries.map (fun e => e.2)

/-- Rewrite the value bound to `k`; a missing key leaves the table unchanged. -/
def modify (k : κ) (f : ν → ν) (t : Table κ ν) : Table κ ν :=
  match t.lookup k with
  | none => t
  | some v => t.insert k (f v)

theorem lookup_insert_ite (k c : κ) (v : ν) (t : Table κ ν) :
    (t.insert k v).lookup c = if c = k then some v else t.lookup c := by
  by_cases h : c = k
  · subst c
    simp
  · rw [lookup_insert_ne h, if_neg h]

theorem lookup_erase_ite (k c : κ) (t : Table κ ν) :
    (t.erase k).lookup c = if c = k then none else t.lookup c := by
  by_cases h : c = k
  · subst c
    simp
  · rw [lookup_erase_ne h, if_neg h]

theorem lookup_modify (k c : κ) (f : ν → ν) (t : Table κ ν) :
    (t.modify k f).lookup c = if c = k then (t.lookup c).map f else t.lookup c := by
  unfold modify
  cases hk : t.lookup k with
  | none =>
    by_cases h : c = k
    · subst c
      simp [hk]
    · simp [h]
  | some v =>
    change (t.insert k (f v)).lookup c = _
    rw [lookup_insert_ite]
    by_cases h : c = k
    · subst c
      simp [hk]
    · simp [h]

/-- Rewrite every value. -/
def mapValues (f : ν → ν) (t : Table κ ν) : Table κ ν where
  entries := t.entries.map (fun e => ⟨e.1, f e.2⟩)
  nodupKeys := by
    have hkeys : (t.entries.map (fun e => (⟨e.1, f e.2⟩ : Sigma fun _ : κ => ν))).keys =
        t.entries.keys := by
      simp [List.keys, Function.comp_def]
    unfold List.NodupKeys
    rw [hkeys]
    exact t.nodupKeys

theorem lookup_mapValues (f : ν → ν) (k : κ) (t : Table κ ν) :
    (t.mapValues f).lookup k = (t.lookup k).map f := by
  unfold mapValues lookup
  simp only
  induction t.entries with
  | nil => rfl
  | cons e rest ih =>
    obtain ⟨j, v⟩ := e
    rw [List.map_cons]
    by_cases hk : k = j
    · subst hk
      rw [List.dlookup_cons_eq, List.dlookup_cons_eq, Option.map_some]
    · rw [List.dlookup_cons_ne _ _ hk, List.dlookup_cons_ne _ _ hk, ih]

/-- `HashMap::retain` with a closure that may rewrite the value: `none` drops the entry. -/
def retain (f : κ → ν → Option ν) (t : Table κ ν) : Table κ ν where
  entries := t.entries.filterMap (fun e => (f e.1 e.2).map (fun v => ⟨e.1, v⟩))
  nodupKeys := by
    have hkeys : (t.entries.filterMap
        (fun e => (f e.1 e.2).map (fun v => (⟨e.1, v⟩ : Sigma fun _ : κ => ν)))).keys.Sublist
          t.entries.keys := by
      unfold List.keys
      induction t.entries with
      | nil => exact List.Sublist.refl _
      | cons e rest ih =>
        cases he : f e.1 e.2 with
        | none =>
          rw [List.filterMap_cons_none (by rw [he]; rfl), List.map_cons]
          exact ih.cons _
        | some v =>
          rw [List.filterMap_cons_some (by rw [he]; rfl), List.map_cons, List.map_cons]
          exact ih.cons_cons _
    have hnodup : t.entries.keys.Nodup := t.nodupKeys
    exact hnodup.sublist hkeys

theorem mem_entries_iff (t : Table κ ν) (k : κ) (v : ν) :
    (⟨k, v⟩ : Sigma fun _ : κ => ν) ∈ t.entries ↔ t.lookup k = some v := by
  rw [← Option.mem_def, mem_lookup_iff]

theorem lookup_retain (f : κ → ν → Option ν) (t : Table κ ν) (k : κ) :
    (t.retain f).lookup k = (t.lookup k).bind (f k) := by
  apply Option.ext
  intro v
  rw [← mem_entries_iff, Option.bind_eq_some_iff]
  unfold retain
  rw [List.mem_filterMap]
  constructor
  · rintro ⟨⟨j, w⟩, hmem, hmap⟩
    obtain ⟨v', hv', heq⟩ := Option.map_eq_some_iff.mp hmap
    cases heq
    exact ⟨w, (mem_entries_iff t j w).mp hmem, hv'⟩
  · rintro ⟨w, hw, hv⟩
    exact ⟨⟨k, w⟩, (mem_entries_iff t k w).mpr hw, by simp only [hv, Option.map_some]⟩

theorem mem_values_iff (t : Table κ ν) (v : ν) :
    v ∈ t.values ↔ ∃ k, t.lookup k = some v := by
  simp only [values, List.mem_map]
  constructor
  · rintro ⟨⟨k, w⟩, hmem, rfl⟩
    exact ⟨k, (mem_entries_iff t k w).mp hmem⟩
  · rintro ⟨k, hk⟩
    exact ⟨⟨k, v⟩, (mem_entries_iff t k v).mpr hk, rfl⟩

/-- A bound key splits the entries into its own entry and the erased table. -/
theorem perm_cons_erase (t : Table κ ν) (k : κ) (v : ν) (h : t.lookup k = some v) :
    t.entries.Perm (⟨k, v⟩ :: (t.erase k).entries) := by
  have hkeys : k ∈ t.entries.keys := by
    have hmem : k ∈ t := by
      rw [← lookup_isSome, h]
      rfl
    exact hmem
  obtain ⟨w, l, r, hl, heq, herase⟩ := List.exists_of_kerase hkeys
  have hw : w = v := by
    have hin : (⟨k, w⟩ : Sigma fun _ : κ => ν) ∈ t.entries := by
      rw [heq]
      simp
    have hlook := (mem_entries_iff t k w).mp hin
    rw [h] at hlook
    exact (Option.some.inj hlook).symm
  subst w
  change t.entries.Perm (⟨k, v⟩ :: t.entries.kerase k)
  rw [herase, heq]
  exact List.perm_middle

/-- Two tables with the same lookups have the same entries up to order. -/
theorem perm_of_lookup (t u : Table κ ν) (h : ∀ k, t.lookup k = u.lookup k) :
    t.entries.Perm u.entries := by
  refine (List.perm_ext_iff_of_nodup (List.NodupKeys.nodup t.nodupKeys)
    (List.NodupKeys.nodup u.nodupKeys)).mpr ?_
  rintro ⟨k, v⟩
  rw [mem_entries_iff, mem_entries_iff, h k]

end Lookup

section Total

variable {κ : Type u} {ν : Type v}

/-- The sum of a measure over all entries. -/
def total (f : κ → ν → ℕ) (t : Table κ ν) : ℕ :=
  (t.entries.map (fun e => f e.1 e.2)).sum

theorem total_of_perm (f : κ → ν → ℕ) (t u : Table κ ν) (h : t.entries.Perm u.entries) :
    t.total f = u.total f :=
  (h.map _).sum_eq

/-- Counting the entries that satisfy a predicate. -/
theorem countP_entries (p : (Σ _ : κ, ν) → Bool) (t : Table κ ν) :
    t.entries.countP p = t.total (fun k v => if p ⟨k, v⟩ = true then 1 else 0) := by
  unfold total
  induction t.entries with
  | nil => rfl
  | cons e rest ih => rw [List.countP_cons, List.map_cons, List.sum_cons, ih, Nat.add_comm]

theorem total_add (f g : κ → ν → ℕ) (t : Table κ ν) :
    t.total (fun k v => f k v + g k v) = t.total f + t.total g := by
  unfold total
  exact List.sum_map_add

theorem total_empty (f : κ → ν → ℕ) : total f (∅ : Table κ ν) = 0 := by
  simp [total]

variable [DecidableEq κ]

theorem total_of_lookup (f : κ → ν → ℕ) (t u : Table κ ν)
    (h : ∀ k, t.lookup k = u.lookup k) : t.total f = u.total f :=
  total_of_perm f t u (perm_of_lookup t u h)

/-- One bound key contributes its own measure to the total. -/
theorem total_erase (f : κ → ν → ℕ) (t : Table κ ν) (k : κ) (v : ν)
    (h : t.lookup k = some v) : t.total f = f k v + (t.erase k).total f := by
  unfold total
  rw [((perm_cons_erase t k v h).map _).sum_eq, List.map_cons, List.sum_cons]

theorem erase_of_lookup_none (t : Table κ ν) (k : κ) (h : t.lookup k = none) :
    t.erase k = t := by
  apply AList.ext
  apply List.kerase_of_notMem_keys
  exact lookup_eq_none.mp h

theorem total_insert (f : κ → ν → ℕ) (t : Table κ ν) (k : κ) (v : ν) :
    (t.insert k v).total f = f k v + (t.erase k).total f := by
  unfold total
  rw [entries_insert, List.map_cons, List.sum_cons]
  rfl

/-- Changing one key to hold something else or nothing changes only its own measure. -/
theorem total_of_lookup_update (f : κ → ν → ℕ) (t u : Table κ ν) (k : κ) (o : Option ν)
    (h : ∀ c, u.lookup c = if c = k then o else t.lookup c) :
    u.total f = o.elim 0 (f k) + (t.erase k).total f := by
  cases o with
  | none =>
    rw [Option.elim_none, Nat.zero_add]
    apply total_of_lookup
    intro c
    rw [h, lookup_erase_ite]
  | some v =>
    rw [Option.elim_some, ← total_insert]
    apply total_of_lookup
    intro c
    rw [h, lookup_insert_ite]

theorem total_erase_le (f : κ → ν → ℕ) (t : Table κ ν) (k : κ) :
    (t.erase k).total f ≤ t.total f := by
  cases hk : t.lookup k with
  | none => rw [erase_of_lookup_none t k hk]
  | some v =>
    rw [total_erase f t k v hk]
    exact Nat.le_add_left _ _

/-- A measure of a single key is what that key contributes. -/
theorem total_single (f : ν → ℕ) (t : Table κ ν) (k : κ) (v : ν) (h : t.lookup k = some v) :
    t.total (fun c w => if c = k then f w else 0) = f v := by
  rw [total_erase _ t k v h, if_pos rfl]
  have hrest : (t.erase k).total (fun c w => if c = k then f w else 0) =
      (t.erase k).total (fun _ _ => 0) := by
    unfold total
    congr 1
    apply List.map_congr_left
    rintro ⟨c, w⟩ hmem
    have hlookup := (mem_entries_iff (t.erase k) c w).mp hmem
    rw [lookup_erase_ite] at hlookup
    split at hlookup
    · cases hlookup
    · rename_i hne
      exact if_neg hne
  rw [hrest]
  simp [total]

theorem total_insert_new (f : κ → ν → ℕ) (t : Table κ ν) (k : κ) (v : ν)
    (h : t.lookup k = none) : (t.insert k v).total f = f k v + t.total f := by
  rw [total_insert, erase_of_lookup_none t k h]

theorem total_modify (f : κ → ν → ℕ) (g : ν → ν) (t : Table κ ν) (k : κ) (v : ν)
    (h : t.lookup k = some v) :
    (t.modify k g).total f + f k v = t.total f + f k (g v) := by
  have hmod : t.modify k g = t.insert k (g v) := by
    unfold modify
    rw [h]
  rw [hmod, total_insert, total_erase f t k v h]
  omega

theorem le_total (f : κ → ν → ℕ) (t : Table κ ν) (k : κ) (v : ν)
    (h : t.lookup k = some v) : f k v ≤ t.total f := by
  rw [total_erase f t k v h]
  exact Nat.le_add_right _ _

theorem total_congr (f g : κ → ν → ℕ) (t : Table κ ν)
    (h : ∀ k v, t.lookup k = some v → f k v = g k v) : t.total f = t.total g := by
  unfold total
  congr 1
  apply List.map_congr_left
  rintro ⟨k, v⟩ hmem
  exact h k v ((mem_entries_iff t k v).mp hmem)

theorem total_mono (f g : κ → ν → ℕ) (t : Table κ ν)
    (h : ∀ k v, t.lookup k = some v → f k v ≤ g k v) : t.total f ≤ t.total g := by
  have hsplit : t.total g = t.total f + t.total (fun k v => g k v - f k v) := by
    rw [← total_add]
    apply total_congr
    intro k v hk
    have := h k v hk
    omega
  omega

theorem total_eq_zero_iff (f : κ → ν → ℕ) (t : Table κ ν) :
    t.total f = 0 ↔ ∀ k v, t.lookup k = some v → f k v = 0 := by
  constructor
  · intro h k v hk
    have := le_total f t k v hk
    omega
  · intro h
    rw [total_congr f (fun _ _ => 0) t h]
    simp [total]

/-- Entries rewritten or removed one by one carry totals over. -/
theorem total_of_lookup_bind (f : κ → ν → ℕ) (g : κ → ν → Option ν) (t u : Table κ ν)
    (h : ∀ k, u.lookup k = (t.lookup k).bind (g k)) :
    u.total f = t.total (fun k v => (g k v).elim 0 (f k)) := by
  induction hn : t.entries.length generalizing t u with
  | zero =>
    have ht : t = ∅ := AList.ext (List.length_eq_zero_iff.mp hn)
    have hu : ∀ k, u.lookup k = (∅ : Table κ ν).lookup k := by
      intro k
      rw [h k, ht, lookup_empty, Option.bind_none]
    rw [total_of_lookup f u ∅ hu, total_empty, ht, total_empty]
  | succ n ih =>
    obtain ⟨⟨k, v⟩, rest, hentries⟩ := List.exists_cons_of_length_eq_add_one hn
    have hk : t.lookup k = some v := by
      rw [← mem_entries_iff, hentries]
      exact List.mem_cons_self
    have hlength : (t.erase k).entries.length = n := by
      have := (perm_cons_erase t k v hk).length_eq
      rw [List.length_cons] at this
      omega
    have hrest : ∀ c, (u.erase k).lookup c = ((t.erase k).lookup c).bind (g c) := by
      intro c
      rw [lookup_erase_ite, lookup_erase_ite]
      by_cases hc : c = k
      · rw [if_pos hc, if_pos hc, Option.bind_none]
      · rw [if_neg hc, if_neg hc, h c]
    have herased := ih (t.erase k) (u.erase k) hrest hlength
    have huk := h k
    rw [hk, Option.bind_some] at huk
    rw [total_erase _ t k v hk, ← herased]
    cases hg : g k v with
    | none =>
      rw [hg] at huk
      rw [erase_of_lookup_none u k huk, Option.elim_none, Nat.zero_add]
    | some w =>
      rw [hg] at huk
      rw [total_erase f u k w huk, Option.elim_some]

/-- A table whose keys are among those of another, with no larger measures. -/
theorem total_le_of_keys (t u : Table κ ν) (f g : κ → ν → ℕ)
    (h : ∀ k w, u.lookup k = some w → ∃ v, t.lookup k = some v ∧ g k w ≤ f k v) :
    u.total g ≤ t.total f := by
  have hbind : ∀ k, u.lookup k = (t.lookup k).bind (fun _ => u.lookup k) := by
    intro k
    cases hk : u.lookup k with
    | none => cases t.lookup k <;> rfl
    | some w =>
      obtain ⟨v, hv, _⟩ := h k w hk
      rw [hv, Option.bind_some]
  rw [total_of_lookup_bind g (fun k _ => u.lookup k) t u hbind]
  apply total_mono
  intro k v hv
  cases hk : u.lookup k with
  | none => exact Nat.zero_le _
  | some w =>
    obtain ⟨v', hv', hle⟩ := h k w hk
    cases hv.symm.trans hv'
    exact hle

/-- A table whose entries are among those of another, with no larger measures. -/
theorem total_le_of_lookup (t u : Table κ ν) (f g : κ → ν → ℕ)
    (h : ∀ k v, u.lookup k = some v → t.lookup k = some v ∧ g k v ≤ f k v) :
    u.total g ≤ t.total f :=
  total_le_of_keys t u f g (fun k v hk => ⟨v, h k v hk⟩)

/-- The second table holds the values of the first, rewritten key by key. -/
def Rewrites (t u : Table κ ν) (g : κ → ν → ν) : Prop :=
  ∀ k, u.lookup k = (t.lookup k).map (g k)

theorem Rewrites.total {t u : Table κ ν} {g : κ → ν → ν} (h : Rewrites t u g)
    (f : κ → ν → ℕ) : u.total f = t.total (fun k v => f k (g k v)) := by
  refine total_of_lookup_bind f (fun k v => some (g k v)) t u ?_
  intro k
  rw [h k]
  cases t.lookup k <;> rfl

theorem Rewrites.refl (t : Table κ ν) : Rewrites t t (fun _ v => v) := by
  intro k
  cases t.lookup k <;> rfl

theorem Rewrites.trans {t u w : Table κ ν} {g h : κ → ν → ν} (htu : Rewrites t u g)
    (huw : Rewrites u w h) : Rewrites t w (fun k v => h k (g k v)) := by
  intro k
  rw [huw k, htu k, Option.map_map]
  rfl

theorem Rewrites.congr {t u : Table κ ν} {g h : κ → ν → ν} (htu : Rewrites t u g)
    (heq : ∀ k v, t.lookup k = some v → g k v = h k v) : Rewrites t u h := by
  intro k
  rw [htu k]
  cases hk : t.lookup k with
  | none => rfl
  | some v => rw [Option.map_some, Option.map_some, heq k v hk]

theorem Rewrites.of_insert (t : Table κ ν) (k : κ) (v w : ν) (h : t.lookup k = some v) :
    Rewrites t (t.insert k w) (fun c x => if c = k then w else x) := by
  intro c
  rw [lookup_insert_ite]
  by_cases hc : c = k
  · subst hc
    simp [h]
  · simp [hc]

theorem Rewrites.lookup_some {t u : Table κ ν} {g : κ → ν → ν} (h : Rewrites t u g) {k : κ}
    {v : ν} (hk : t.lookup k = some v) : u.lookup k = some (g k v) := by
  rw [h k, hk, Option.map_some]

theorem Rewrites.of_lookup {t u : Table κ ν} {g : κ → ν → ν} (h : Rewrites t u g) {k : κ}
    {w : ν} (hk : u.lookup k = some w) : ∃ v, t.lookup k = some v ∧ w = g k v := by
  rw [h k] at hk
  obtain ⟨v, hv, hw⟩ := Option.map_eq_some_iff.mp hk
  exact ⟨v, hv, hw.symm⟩

/-- Summing over distinct keys sums over the entries they name. -/
theorem total_of_nodup (f : κ → ν → ℕ) (t : Table κ ν) (ks : List κ) (hks : ks.Nodup) :
    (ks.map (fun k => (t.lookup k).elim 0 (f k))).sum =
      t.total (fun k v => if k ∈ ks then f k v else 0) := by
  induction ks with
  | nil =>
    refine ((total_eq_zero_iff _ t).mpr ?_).symm
    intro k v _
    simp
  | cons head rest ih =>
    obtain ⟨hhead, hrest⟩ := List.nodup_cons.mp hks
    rw [List.map_cons, List.sum_cons, ih hrest]
    cases hlookup : t.lookup head with
    | none =>
      rw [Option.elim_none, Nat.zero_add]
      apply total_congr
      intro k v hk
      have hne : k ≠ head := by
        rintro rfl
        rw [hlookup] at hk
        cases hk
      simp [hne]
    | some v =>
      rw [Option.elim_some, total_erase _ t head v hlookup, total_erase _ t head v hlookup,
        if_neg hhead, if_pos List.mem_cons_self, Nat.zero_add]
      congr 1
      apply total_congr
      intro k w hk
      have hne : k ≠ head := by
        rintro rfl
        rw [lookup_erase_ite, if_pos rfl] at hk
        cases hk
      simp [hne]

/-- Erase a list of keys. -/
def eraseAll (t : Table κ ν) (ks : List κ) : Table κ ν := ks.foldl (fun u k => u.erase k) t

theorem lookup_eraseAll (t : Table κ ν) (ks : List κ) (k : κ) :
    (t.eraseAll ks).lookup k = if k ∈ ks then none else t.lookup k := by
  induction ks generalizing t with
  | nil => simp [eraseAll]
  | cons head rest ih =>
    change ((t.erase head).eraseAll rest).lookup k = _
    rw [ih, lookup_erase_ite]
    by_cases hhead : k = head
    · simp [hhead]
    · simp [hhead]

/-- Erasing entries that measure nothing keeps the total. -/
theorem total_eraseAll (f : κ → ν → ℕ) (t : Table κ ν) (ks : List κ)
    (h : ∀ k ∈ ks, ∀ v, t.lookup k = some v → f k v = 0) :
    (t.eraseAll ks).total f = t.total f := by
  rw [total_of_lookup_bind f (fun k v => if k ∈ ks then none else some v) t]
  · apply total_congr
    intro k v hk
    by_cases hmem : k ∈ ks
    · rw [if_pos hmem, Option.elim_none, h k hmem v hk]
    · rw [if_neg hmem, Option.elim_some]
  · intro k
    rw [lookup_eraseAll]
    by_cases hmem : k ∈ ks
    · simp [hmem]
    · simp [hmem]

end Total

end AList
