import Mathlib.Data.List.Sort
import Mathlib.Data.Set.Basic

namespace Base
set_option autoImplicit true

/-- One pass of a halving search over the window `[i, j)`; the fuel bounds the passes. -/
def searchLoop (f : Nat → Bool) : Nat → Nat → Nat → Nat
  | 0, i, _ => i
  | fuel + 1, i, j =>
    if i < j then
      let h := (i + j) / 2
      if f h then searchLoop f fuel i h else searchLoop f fuel (h + 1) j
    else i

/-- The least index below `n` at which `f` holds, or `n`. -/
def search (n : Nat) (f : Nat → Bool) : Nat := searchLoop f n 0 n

theorem searchLoop_spec (f : Nat → Bool) (fuel i j : Nat) (hij : i ≤ j)
    (hfuel : j - i ≤ fuel) (hmono : ∀ a b, a ≤ b → b < j → f a = true → f b = true)
    (hlow : ∀ a, a < i → f a = false) :
    searchLoop f fuel i j ≤ j ∧ (∀ a, a < searchLoop f fuel i j → f a = false) ∧
      (searchLoop f fuel i j < j → f (searchLoop f fuel i j) = true) := by
  induction fuel generalizing i j with
  | zero =>
    have he : i = j := by omega
    subst i
    exact ⟨Nat.le_refl _, hlow, fun h => absurd h (Nat.lt_irrefl _)⟩
  | succ fuel ih =>
    rw [searchLoop]
    by_cases hlt : i < j
    · rw [if_pos hlt]
      by_cases hf : f ((i + j) / 2) = true
      · simp only [hf, if_true]
        obtain ⟨hle, hbelow, hat⟩ := ih i ((i + j) / 2) (by omega) (by omega)
          (fun a b hab hb => hmono a b hab (by omega)) hlow
        refine ⟨by omega, hbelow, fun _ => ?_⟩
        rcases Nat.lt_or_eq_of_le hle with h | h
        · exact hat h
        · rw [h]
          exact hf
      · simp only [hf]
        apply ih ((i + j) / 2 + 1) j (by omega) (by omega) hmono
        intro a ha
        by_contra hc
        exact hf (hmono a _ (by omega) (by omega) (by simpa using hc))
    · rw [if_neg hlt]
      have he : i = j := by omega
      subst i
      exact ⟨Nat.le_refl _, hlow, fun h => absurd h (Nat.lt_irrefl _)⟩

theorem search_spec (n : Nat) (f : Nat → Bool)
    (hmono : ∀ a b, a ≤ b → b < n → f a = true → f b = true) :
    search n f ≤ n ∧ (∀ a, a < search n f → f a = false) ∧
      (search n f < n → f (search n f) = true) :=
  searchLoop_spec f n 0 n (Nat.zero_le _) (by omega) hmono (fun _ h => absurd h (Nat.not_lt_zero _))

section Successor
variable {α : Type} [LinearOrder α]

/-- `h` is the first point of `S` met going clockwise from `k`. -/
def IsSuccessor (S : Set α) (k h : α) : Prop :=
  h ∈ S ∧ ((k ≤ h ∧ ∀ x ∈ S, k ≤ x → h ≤ x) ∨ ((∀ x ∈ S, x < k) ∧ ∀ x ∈ S, h ≤ x))

theorem IsSuccessor.unique {S : Set α} {k h h' : α} (hh : IsSuccessor S k h)
    (hh' : IsSuccessor S k h') : h = h' := by
  obtain ⟨hS, hk | hk⟩ := hh <;> obtain ⟨hS', hk' | hk'⟩ := hh'
  · exact le_antisymm (hk.2 _ hS' hk'.1) (hk'.2 _ hS hk.1)
  · exact absurd hk.1 (not_le.mpr (hk'.1 _ hS))
  · exact absurd hk'.1 (not_le.mpr (hk.1 _ hS'))
  · exact le_antisymm (hk.2 _ hS') (hk'.2 _ hS)

theorem IsSuccessor.of_subset {S S' : Set α} {k h : α} (hsub : S ⊆ S') (hmem : h ∈ S)
    (hsucc : IsSuccessor S' k h) : IsSuccessor S k h := by
  obtain ⟨_, ⟨hk, hleast⟩ | ⟨hbelow, hleast⟩⟩ := hsucc
  · exact ⟨hmem, .inl ⟨hk, fun x hx => hleast x (hsub hx)⟩⟩
  · exact ⟨hmem, .inr ⟨fun x hx => hbelow x (hsub hx), fun x hx => hleast x (hsub hx)⟩⟩

/-- A halving search over a sorted list, wrapped to the front, stops at the successor. -/
theorem search_isSuccessor {l : List α} (hs : l.SortedLE) (hne : l ≠ []) (k : α) {i : Nat}
    (hi : i = search l.length (fun i => l[i]?.any (k ≤ ·))) :
    ∃ x, l[if i = l.length then 0 else i]? = some x ∧ IsSuccessor {x | x ∈ l} k x := by
  have hmono : ∀ a b, a ≤ b → b < l.length →
      l[a]?.any (k ≤ ·) = true → l[b]?.any (k ≤ ·) = true := by
    intro a b hab hb ha
    have ha' : a < l.length := by omega
    simp only [List.getElem?_eq_getElem ha', List.getElem?_eq_getElem hb, Option.any_some,
      decide_eq_true_eq] at ha ⊢
    exact ha.trans (hs.getElem_le_getElem_of_le hab)
  obtain ⟨hle, hbelow, hat⟩ := search_spec l.length (fun i => l[i]?.any (k ≤ ·)) hmono
  rw [← hi] at hle hbelow hat
  have hpos : 0 < l.length := List.length_pos_iff.mpr hne
  -- every element left of the stopping point is below the key
  have hlow : ∀ a (ha : a < l.length), a < i → l[a] < k := by
    intro a ha hai
    have hf := hbelow a hai
    simpa [List.getElem?_eq_getElem ha] using hf
  by_cases hend : i = l.length
  · rw [if_pos hend]
    refine ⟨l[0], List.getElem?_eq_getElem hpos, List.getElem_mem hpos, .inr ⟨?_, ?_⟩⟩
    · intro x hx
      obtain ⟨a, ha, rfl⟩ := List.getElem_of_mem hx
      exact hlow a ha (by omega)
    · intro x hx
      obtain ⟨a, ha, rfl⟩ := List.getElem_of_mem hx
      exact hs.getElem_le_getElem_of_le (Nat.zero_le a)
  · rw [if_neg hend]
    have hlt : i < l.length := by omega
    have hk : k ≤ l[i] := by
      have hf := hat hlt
      simpa [List.getElem?_eq_getElem hlt] using hf
    refine ⟨l[i], List.getElem?_eq_getElem hlt, List.getElem_mem hlt, .inl ⟨hk, ?_⟩⟩
    intro x hx hkx
    obtain ⟨a, ha, rfl⟩ := List.getElem_of_mem hx
    apply hs.getElem_le_getElem_of_le
    by_contra hc
    exact absurd hkx (not_le.mpr (hlow a ha (by omega)))

end Successor

section Ownership
variable {σ α : Type} (points : σ → Set α)

def placed (A : Set σ) : Set α := {h | ∃ s ∈ A, h ∈ points s}

/-- Distinct members share no point. -/
def Separate (A : Set σ) : Prop :=
  ∀ s ∈ A, ∀ t ∈ A, ∀ h, h ∈ points s → h ∈ points t → s = t

/-- Going clockwise from `k`, the first point met belongs to `s`. -/
def Owns [LinearOrder α] (A : Set σ) (k : α) (s : σ) : Prop :=
  s ∈ A ∧ ∃ h ∈ points s, IsSuccessor (placed points A) k h

variable {points}

theorem Separate.mono {A B : Set σ} (h : Separate points B) (hsub : A ⊆ B) :
    Separate points A :=
  fun s hs t ht => h s (hsub hs) t (hsub ht)

theorem Owns.unique [LinearOrder α] {A : Set σ} {k : α} {s t : σ} (hsep : Separate points A)
    (hs : Owns points A k s) (ht : Owns points A k t) : s = t := by
  obtain ⟨hsA, h, hh, hsucc⟩ := hs
  obtain ⟨htA, h', hh', hsucc'⟩ := ht
  rw [← hsucc.unique hsucc'] at hh'
  exact hsep s hsA t htA h hh hh'

end Ownership

end Base
