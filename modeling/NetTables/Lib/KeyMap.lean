import Mathlib.Data.List.AList

namespace NetTables.Lib

/-- A finite map with one value for a key. `AList` keeps the entries in some order;
what may depend on that order goes through an `IterOrder`. -/
abbrev KeyMap (κ ν : Type) := AList fun _ : κ => ν

namespace KeyMap

variable {κ ν : Type}

/-- The entries, in the order the map happens to store them. -/
def pairs (m : KeyMap κ ν) : List (κ × ν) := m.entries.map fun e => (e.1, e.2)

/-- Every value passes through `f`; the keys and their order stay. -/
def mapValues (m : KeyMap κ ν) (f : ν → ν) : KeyMap κ ν where
  entries := m.entries.map fun e => ⟨e.1, f e.2⟩
  nodupKeys := by
    have hk : (m.entries.map fun e => (⟨e.1, f e.2⟩ : Sigma fun _ : κ => ν)).keys =
        m.entries.keys := by
      simp [List.keys, Function.comp_def]
    rw [List.NodupKeys, hk]
    exact m.nodupKeys

/-- `retain` -/
def filter (m : KeyMap κ ν) (keep : κ → ν → Bool) : KeyMap κ ν where
  entries := m.entries.filter fun e => keep e.1 e.2
  nodupKeys := m.nodupKeys.sublist List.filter_sublist

theorem keys_pairs (m : KeyMap κ ν) : m.pairs.map Prod.fst = m.keys := by
  simp [pairs, AList.keys, List.keys, Function.comp_def]

theorem nodup_pairs (m : KeyMap κ ν) : (m.pairs.map Prod.fst).Nodup := by
  rw [keys_pairs]
  exact m.nodupKeys

variable [DecidableEq κ]

theorem mem_pairs (m : KeyMap κ ν) (k : κ) (v : ν) : (k, v) ∈ m.pairs ↔ m.lookup k = some v := by
  rw [← Option.mem_def, AList.mem_lookup_iff]
  constructor
  · intro h
    obtain ⟨e, he, heq⟩ := List.mem_map.mp h
    cases heq
    exact he
  · intro h
    exact List.mem_map.mpr ⟨_, h, rfl⟩

@[simp] theorem lookup_insert (m : KeyMap κ ν) (k j : κ) (v : ν) :
    (AList.insert k v m).lookup j = if j = k then some v else m.lookup j := by
  split_ifs with h
  · subst h; exact AList.lookup_insert m
  · exact AList.lookup_insert_ne h

@[simp] theorem lookup_erase (m : KeyMap κ ν) (k j : κ) :
    (AList.erase k m).lookup j = if j = k then none else m.lookup j := by
  split_ifs with h
  · subst h; exact AList.lookup_erase _ m
  · exact AList.lookup_erase_ne h

@[simp] theorem lookup_mapValues (m : KeyMap κ ν) (f : ν → ν) (k : κ) :
    (m.mapValues f).lookup k = (m.lookup k).map f := by
  rcases m with ⟨es, hn⟩
  simp only [mapValues, AList.lookup]
  clear hn
  induction es with
  | nil => rfl
  | cons e es ih =>
    obtain ⟨j, v⟩ := e
    by_cases h : k = j
    · subst h; simp [List.dlookup_cons_eq]
    · simp only [List.map_cons]
      rw [List.dlookup_cons_ne _ _ h, List.dlookup_cons_ne _ _ h, ih]

@[simp] theorem lookup_filter (m : KeyMap κ ν) (keep : κ → ν → Bool) (k : κ) :
    (m.filter keep).lookup k = (m.lookup k).filter (keep k) := by
  have hiff : ∀ v, (m.filter keep).lookup k = some v ↔ (m.lookup k).filter (keep k) = some v := by
    intro v
    rw [Option.filter_eq_some_iff, ← Option.mem_def, AList.mem_lookup_iff, ← Option.mem_def,
      AList.mem_lookup_iff]
    simp [filter]
  exact Option.ext hiff

/-- The entries under one key. -/
theorem filter_pairs (m : KeyMap κ ν) (k : κ) :
    (m.pairs.filter fun e => e.1 = k) = (m.lookup k).toList.map fun v => (k, v) := by
  have hone : ∀ e ∈ m.pairs, e.1 = k → m.lookup k = some e.2 := by
    rintro ⟨j, v⟩ he rfl
    exact (m.mem_pairs _ v).mp he
  cases h : m.lookup k with
  | none =>
    rw [List.filter_eq_nil_iff.mpr]
    · rfl
    · intro e he hk
      rw [h] at hone
      cases hone e he (of_decide_eq_true hk)
  | some v =>
    have hmem := (m.mem_pairs k v).mpr h
    obtain ⟨l, r, hlr⟩ := List.append_of_mem hmem
    have hn := m.nodup_pairs
    rw [hlr, List.map_append, List.map_cons, List.nodup_append, List.nodup_cons] at hn
    obtain ⟨-, ⟨hr, -⟩, hl⟩ := hn
    have hlnil : (l.filter fun e => e.1 = k) = [] := by
      rw [List.filter_eq_nil_iff]
      intro e he hk
      have hk : e.1 = k := of_decide_eq_true hk
      exact hl e.1 (List.mem_map_of_mem he) k (List.mem_cons_self ..) hk
    have hrnil : (r.filter fun e => e.1 = k) = [] := by
      rw [List.filter_eq_nil_iff]
      intro e he hk
      have hk : e.1 = k := of_decide_eq_true hk
      exact hr (List.mem_map.mpr ⟨e, he, hk⟩)
    simp [hlr, List.filter_append, hlnil, hrnil]

theorem mem_iff_lookup (m : KeyMap κ ν) (k : κ) : k ∈ m ↔ ∃ v, m.lookup k = some v := by
  rw [← AList.lookup_isSome, Option.isSome_iff_exists]

/-- What is found stays when a new key is entered. -/
theorem lookup_insert_of_notMem {m : KeyMap κ ν} {k j : κ} {v : ν} (h : m.lookup j = some v)
    (hk : k ∉ m) (w : ν) : (AList.insert k w m).lookup j = some v := by
  have hne : j ≠ k := by
    rintro rfl
    exact hk ((mem_iff_lookup _ _).mpr ⟨v, h⟩)
  rw [lookup_insert, if_neg hne, h]

/-- What is found is what is replaced, or it stays. -/
theorem lookup_insert_cases {m : KeyMap κ ν} {k j : κ} {u v : ν} (h : m.lookup j = some v)
    (hk : m.lookup k = some u) :
    (j = k ∧ v = u ∧ ∀ w, (AList.insert k w m).lookup j = some w) ∨
      j ≠ k ∧ ∀ w, (AList.insert k w m).lookup j = some v := by
  simp only [lookup_insert]
  split_ifs with hj
  · rw [hj, hk] at h
    exact .inl ⟨hj, (Option.some.inj h).symm, fun _ => rfl⟩
  · exact .inr ⟨hj, fun _ => h⟩

theorem mem_mapValues (m : KeyMap κ ν) (f : ν → ν) (k : κ) : k ∈ m.mapValues f ↔ k ∈ m := by
  simp [mem_iff_lookup]

section Perm

variable {μ : Type} {m m' : KeyMap κ ν} {k : κ} {v : ν}

theorem pairs_insert_of_notMem (h : k ∉ m) (v : ν) :
    pairs (AList.insert k v m) = (k, v) :: m.pairs := by
  rw [pairs, AList.entries_insert_of_notMem h, List.map_cons]
  rfl

/-- Two maps whose values look the same under `g` list the same. -/
theorem perm_pairs_map (g : ν → μ) (h : ∀ k, (m.lookup k).map g = (m'.lookup k).map g) :
    (m.pairs.map fun e => (e.1, g e.2)).Perm (m'.pairs.map fun e => (e.1, g e.2)) := by
  have hnodup : ∀ m : KeyMap κ ν, (m.pairs.map fun e => (e.1, g e.2)).Nodup := by
    intro m
    apply List.Nodup.of_map Prod.fst
    rw [List.map_map]
    exact m.nodup_pairs
  have hmem : ∀ (m : KeyMap κ ν) k w,
      (k, w) ∈ (m.pairs.map fun e => (e.1, g e.2)) ↔ (m.lookup k).map g = some w := by
    intro m k w
    simp only [List.mem_map, Prod.exists, Prod.mk.injEq, mem_pairs, Option.map_eq_some_iff]
    constructor
    · intro h
      obtain ⟨j, v, hv, rfl, hw⟩ := h
      exact ⟨v, hv, hw⟩
    · intro h
      obtain ⟨v, hv, hw⟩ := h
      exact ⟨k, v, hv, rfl, hw⟩
  rw [List.perm_ext_iff_of_nodup (hnodup m) (hnodup m')]
  intro e
  obtain ⟨k, w⟩ := e
  rw [hmem, hmem, h k]

/-- One entry stands before the others. -/
theorem pairs_perm_erase (h : m.lookup k = some v) :
    m.pairs.Perm ((k, v) :: pairs (AList.erase k m)) := by
  have hk : k ∉ AList.erase k m := by simp
  rw [← pairs_insert_of_notMem hk v]
  have hperm : (m.pairs.map fun e => (e.1, id e.2)).Perm
      ((pairs (AList.insert k v (AList.erase k m))).map fun e => (e.1, id e.2)) := by
    apply perm_pairs_map
    intro j
    rw [lookup_insert, lookup_erase]
    split_ifs with hj
    · rw [hj, h]
    · rfl
  simpa only [id, List.map_id'] using hperm

end Perm

end KeyMap

/-- The order in which a hash map or set is walked: any rearrangement of what it holds. -/
structure IterOrder where
  arrange : {α : Type} → List α → List α
  perm : ∀ {α : Type} (l : List α), (arrange l).Perm l

namespace IterOrder

/-- The order in which the model happens to store the entries. -/
def stored : IterOrder where
  arrange := id
  perm := fun _ => List.Perm.refl _

variable {α κ ν : Type} (o : IterOrder)

@[simp] theorem mem_arrange (l : List α) (a : α) : a ∈ o.arrange l ↔ a ∈ l := (o.perm l).mem_iff

def walk (m : KeyMap κ ν) : List (κ × ν) := o.arrange m.pairs

theorem mem_walk [DecidableEq κ] (m : KeyMap κ ν) (k : κ) (v : ν) :
    (k, v) ∈ o.walk m ↔ m.lookup k = some v := by
  rw [walk, mem_arrange, KeyMap.mem_pairs]

theorem nodup_walk (m : KeyMap κ ν) : ((o.walk m).map Prod.fst).Nodup :=
  ((o.perm m.pairs).map Prod.fst).nodup_iff.mpr m.nodup_pairs

end IterOrder

end NetTables.Lib
