import Mathlib.Data.List.AList
import Mathlib.Data.List.Dedup

namespace Base
set_option autoImplicit true

/-- A map with finitely many entries. The order of the entries carries no meaning. -/
abbrev FiniteMap (κ : Type) (β : Type) := AList (fun _ : κ => β)

namespace FiniteMap
variable {κ β : Type} [DecidableEq κ]

theorem lookup_insert_ite (m : FiniteMap κ β) (k : κ) (v : β) (k' : κ) :
    (m.insert k v).lookup k' = if k' = k then some v else m.lookup k' := by
  by_cases h : k' = k
  · subst k'
    rw [AList.lookup_insert, if_pos rfl]
  · rw [AList.lookup_insert_ne h, if_neg h]

theorem lookup_erase_ite (m : FiniteMap κ β) (k k' : κ) :
    (m.erase k).lookup k' = if k' = k then none else m.lookup k' := by
  by_cases h : k' = k
  · subst k'
    rw [AList.lookup_erase, if_pos rfl]
  · rw [AList.lookup_erase_ne h, if_neg h]

theorem mem_keys_iff {m : FiniteMap κ β} {k : κ} :
    k ∈ m.keys ↔ ∃ v, m.lookup k = some v := by
  rw [← AList.mem_keys, ← AList.lookup_isSome, Option.isSome_iff_exists]

def values (m : FiniteMap κ β) : List β := m.entries.map (·.2)

theorem mem_values_iff {m : FiniteMap κ β} {v : β} :
    v ∈ m.values ↔ ∃ k, m.lookup k = some v := by
  constructor
  · intro h
    obtain ⟨⟨k, w⟩, hk, hw⟩ := List.mem_map.mp h
    subst hw
    exact ⟨k, AList.mem_lookup_iff.mpr hk⟩
  · rintro ⟨k, hk⟩
    exact List.mem_map.mpr ⟨⟨k, v⟩, AList.mem_lookup_iff.mp hk, rfl⟩

section Count
variable [DecidableEq β]

def countValue (m : FiniteMap κ β) (v : β) : Nat := m.values.count v

theorem count_kerase (l : List (Σ _ : κ, β)) (k : κ) (v : β) :
    ((l.kerase k).map (·.2)).count v + (if l.dlookup k = some v then 1 else 0) =
      (l.map (·.2)).count v := by
  induction l with
  | nil => rfl
  | cons e l ih =>
    obtain ⟨a, b⟩ := e
    rw [List.map_cons, List.count_cons]
    by_cases ha : k = a
    · subst k
      have herase : List.kerase a (⟨a, b⟩ :: l) = l := List.kerase_cons_eq rfl
      rw [herase, List.dlookup_cons_eq]
      simp
    · have herase : List.kerase k (⟨a, b⟩ :: l) = ⟨a, b⟩ :: l.kerase k := List.kerase_cons_ne ha
      have hlookup := List.dlookup_cons_ne (β := fun _ : κ => β) l ⟨a, b⟩ ha
      rw [herase, hlookup, List.map_cons, List.count_cons, ← ih]
      omega

theorem countValue_erase (m : FiniteMap κ β) (k : κ) (v : β) :
    countValue (m.erase k) v + (if m.lookup k = some v then 1 else 0) = m.countValue v :=
  count_kerase m.entries k v

theorem countValue_insert (m : FiniteMap κ β) (k : κ) (w v : β) :
    countValue (m.insert k w) v + (if m.lookup k = some v then 1 else 0) =
      m.countValue v + if v = w then 1 else 0 := by
  have hcons : countValue (m.insert k w) v =
      countValue (m.erase k) v + if v = w then 1 else 0 := by
    rw [countValue, values, AList.entries_insert, List.map_cons, List.count_cons]
    simp only [beq_iff_eq, eq_comm (a := w)]
    rfl
  rw [hcons, ← countValue_erase m k v]
  omega

theorem countValue_of_lookup_iff {m : FiniteMap κ β} {v : β} {l : List κ}
    (h : ∀ k, m.lookup k = some v ↔ k ∈ l) : m.countValue v = l.dedup.length := by
  have hcount : m.countValue v = ((m.entries.filter (·.2 = v)).map (·.1)).length := by
    rw [countValue, values, List.count, List.countP_map, List.countP_eq_length_filter,
      List.length_map]
    rfl
  have hnodup : ((m.entries.filter (·.2 = v)).map (·.1)).Nodup :=
    m.nodupKeys.sublist List.filter_sublist
  rw [hcount]
  apply List.Perm.length_eq
  rw [List.perm_ext_iff_of_nodup hnodup l.nodup_dedup]
  intro k
  rw [List.mem_dedup, ← h k, ← Option.mem_def, AList.mem_lookup_iff]
  simp

end Count

def insertAll (m : FiniteMap κ β) (ks : List κ) (v : β) : FiniteMap κ β :=
  ks.foldl (fun m k => m.insert k v) m

theorem lookup_insertAll (m : FiniteMap κ β) (ks : List κ) (v : β) (k : κ) :
    (m.insertAll ks v).lookup k = if k ∈ ks then some v else m.lookup k := by
  induction ks generalizing m with
  | nil => simp [insertAll]
  | cons a ks ih =>
    have he : m.insertAll (a :: ks) v = FiniteMap.insertAll (m.insert a v) ks v := rfl
    rw [he, ih, lookup_insert_ite]
    by_cases hk : k ∈ ks
    · simp [hk]
    · by_cases ha : k = a <;> simp [hk, ha]

def eraseAll (m : FiniteMap κ β) (ks : List κ) : FiniteMap κ β :=
  ks.foldl (fun m k => m.erase k) m

theorem lookup_eraseAll (m : FiniteMap κ β) (ks : List κ) (k : κ) :
    (m.eraseAll ks).lookup k = if k ∈ ks then none else m.lookup k := by
  induction ks generalizing m with
  | nil => simp [eraseAll]
  | cons a ks ih =>
    have he : m.eraseAll (a :: ks) = FiniteMap.eraseAll (m.erase a) ks := rfl
    rw [he, ih, lookup_erase_ite]
    by_cases hk : k ∈ ks
    · simp [hk]
    · by_cases ha : k = a <;> simp [hk, ha]

def mapValues {γ : Type} (f : β → γ) (m : FiniteMap κ β) : FiniteMap κ γ where
  entries := m.entries.map (fun e => ⟨e.1, f e.2⟩)
  nodupKeys := by
    have h := m.nodupKeys
    rw [List.NodupKeys, List.keys] at h ⊢
    rw [List.map_map]
    exact h

theorem lookup_mapValues {γ : Type} (f : β → γ) (m : FiniteMap κ β) (k : κ) :
    (m.mapValues f).lookup k = (m.lookup k).map f :=
  List.dlookup_map₂ (γ := fun _ : κ => β) (δ := fun _ : κ => γ) (l := m.entries)
    (f := fun _ => f) k

theorem lookup_foldl_insert (l : List (Σ _ : κ, β)) (hl : l.NodupKeys) (m : FiniteMap κ β)
    (k : κ) :
    (l.foldl (fun m e => m.insert e.1 e.2) m).lookup k =
      (l.dlookup k).or (m.lookup k) := by
  induction l generalizing m with
  | nil => simp
  | cons e l ih =>
    obtain ⟨a, v⟩ := e
    rw [List.nodupKeys_cons] at hl
    rw [List.foldl_cons, ih hl.2, lookup_insert_ite]
    by_cases ha : k = a
    · subst k
      have hnone : l.dlookup a = none := List.dlookup_eq_none.mpr hl.1
      simp [hnone]
    · have hcons := List.dlookup_cons_ne (β := fun _ : κ => β) l ⟨a, v⟩ ha
      rw [if_neg ha, hcons]

end FiniteMap

end Base
