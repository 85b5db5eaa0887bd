import Mathlib.Data.Finset.Insert
import Tempura.Base.Murmur3
import Tempura.ConsistentHash

namespace Tempura
open Base
set_option autoImplicit true

inductive RingCall where
  | addSlot (slot : GoString)
  | removeSlot (slot : GoString)
  deriving DecidableEq

def RingCall.slot : RingCall → GoString
  | .addSlot slot => slot
  | .removeSlot slot => slot

/-- The state a call leaves, whether it returns or panics. -/
def ConsistentHash.call (hash32 : GoString → UInt32) (ch : ConsistentHash) :
    RingCall → ConsistentHash
  | .addSlot slot => ch.addSlot hash32 slot
  | .removeSlot slot => (ch.removeSlot hash32 slot).2

def ringAfter (hash32 : GoString → UInt32) (virtualNodes : Int) (calls : List RingCall) :
    ConsistentHash :=
  calls.foldl (ConsistentHash.call hash32) (newConsistentHash virtualNodes)

def RingCall.track (A : Set GoString) : RingCall → Set GoString
  | .addSlot slot => insert slot A
  | .removeSlot slot => A \ {slot}

def heldSlots (calls : List RingCall) : Set GoString := calls.foldl RingCall.track ∅

/-- The points of a slot on the circle of hashes. -/
def vnodePoints (hash32 : GoString → UInt32) (virtualNodes : Int) (slot : GoString) :
    Set UInt32 :=
  {h | ∃ i : Nat, i < virtualNodes ∧ h = hash32 (vnodeName slot i)}

theorem mem_vnodeHashes :
    h ∈ vnodeHashes hash32 n slot ↔ h ∈ vnodePoints hash32 n slot := by
  simp only [vnodeHashes, vnodePoints, List.mem_map, List.mem_range, Set.mem_ofPred_eq]
  constructor
  · rintro ⟨i, hi, he⟩
    exact ⟨i, by omega, he.symm⟩
  · rintro ⟨i, hi, he⟩
    exact ⟨i, by omega, he.symm⟩

theorem length_vnodeHashes (hash32 : GoString → UInt32) (n : Int) (slot : GoString) :
    (vnodeHashes hash32 n slot).length = n.toNat := by
  simp only [vnodeHashes, List.length_map, List.length_range]

/-- The slice and the map hold the virtual nodes of exactly the slots in `A`, once or more. -/
structure Represents (hash32 : GoString → UInt32) (n : Int) (ch : ConsistentHash)
    (A : Set GoString) : Prop where
  nodes : ch.virtualNodes = n
  sorted : ch.ring.SortedLE
  mem_ring : ∀ h, h ∈ ch.ring ↔ h ∈ placed (vnodePoints hash32 n) A
  lookup : ∀ h s, ch.vnodeToSlot.lookup h = some s ↔ s ∈ A ∧ h ∈ vnodePoints hash32 n s
  counts : ∀ s ∈ A, (vnodeHashes hash32 n s).Subperm ch.ring

theorem represents_new (hash32 : GoString → UInt32) (n : Int) :
    Represents hash32 n (newConsistentHash n) ∅ where
  nodes := rfl
  sorted := List.Pairwise.nil.sortedLE
  mem_ring h := by simp [newConsistentHash, placed]
  lookup h s := by simp [newConsistentHash]
  counts s hs := absurd hs (Set.notMem_empty s)

theorem Represents.addSlot (hr : Represents hash32 n ch A)
    (hsep : Separate (vnodePoints hash32 n) (insert slot A)) :
    Represents hash32 n (ch.addSlot hash32 slot) (insert slot A) where
  nodes := by rw [ConsistentHash.addSlot_virtualNodes, hr.nodes]
  sorted := ch.addSlot_sorted slot
  mem_ring h := by
    rw [(ch.addSlot_ring_perm slot).mem_iff, List.mem_append, hr.mem_ring, hr.nodes,
      mem_vnodeHashes]
    constructor
    · rintro (⟨s, hs, hh⟩ | hh)
      · exact ⟨s, Set.mem_insert_of_mem _ hs, hh⟩
      · exact ⟨slot, Set.mem_insert _ _, hh⟩
    · rintro ⟨s, hs | hs, hh⟩
      · subst s
        exact .inr hh
      · exact .inl ⟨s, hs, hh⟩
  lookup h s := by
    rw [ConsistentHash.addSlot_lookup, hr.nodes]
    by_cases hh : h ∈ vnodePoints hash32 n slot
    · rw [if_pos (mem_vnodeHashes.mpr hh), Option.some.injEq]
      constructor
      · rintro rfl
        exact ⟨Set.mem_insert _ _, hh⟩
      · rintro ⟨hs, hh'⟩
        exact hsep slot (Set.mem_insert _ _) s hs h hh hh'
    · rw [if_neg (mem_vnodeHashes.not.mpr hh), hr.lookup]
      constructor
      · rintro ⟨hs, hh'⟩
        exact ⟨Set.mem_insert_of_mem _ hs, hh'⟩
      · rintro ⟨hs | hs, hh'⟩
        · subst s
          exact absurd hh' hh
        · exact ⟨hs, hh'⟩
  counts s hs := by
    apply List.Subperm.trans ?_ (ch.addSlot_ring_perm slot).symm.subperm
    rcases hs with rfl | hs
    · rw [hr.nodes]
      exact (List.sublist_append_right _ _).subperm
    · exact (hr.counts s hs).trans (List.sublist_append_left _ _).subperm

theorem Represents.ring_eq_nil (hr : Represents hash32 n ch ∅) : ch.ring = [] := by
  apply List.eq_nil_iff_forall_not_mem.mpr
  intro h hh
  obtain ⟨s, hs, _⟩ := (hr.mem_ring h).mp hh
  exact hs

theorem Represents.short_iff (hr : Represents hash32 n ch A) (hn : 1 ≤ n) :
    (ch.ring.length : Int) < n ↔ A = ∅ := by
  constructor
  · intro hlt
    by_contra hne
    obtain ⟨s, hs⟩ := Set.nonempty_iff_ne_empty.mpr hne
    have hle := (hr.counts s hs).length_le
    rw [length_vnodeHashes] at hle
    omega
  · rintro rfl
    simp only [hr.ring_eq_nil, List.length_nil]
    omega

theorem Represents.removeSlot_ring (hr : Represents hash32 n ch A) (hn : 1 ≤ n) (slot : GoString) :
    (ch.removeSlot hash32 slot).2.ring =
      ch.ring.filter (fun h => h ∉ vnodeHashes hash32 n slot) := by
  rw [ConsistentHash.removeSlot_ring, hr.nodes]
  by_cases hlt : (ch.ring.length : Int) < n
  · have he := (hr.short_iff hn).mp hlt
    subst he
    rw [if_pos hlt, hr.ring_eq_nil, List.filter_nil]
  · rw [if_neg hlt]

theorem filter_vnodeHashes
    (h : ∀ x ∈ vnodePoints hash32 n s, x ∉ vnodePoints hash32 n slot) :
    (vnodeHashes hash32 n s).filter (fun x => x ∉ vnodeHashes hash32 n slot) =
      vnodeHashes hash32 n s := by
  apply List.filter_eq_self.mpr
  intro x hx
  rw [decide_eq_true_eq, mem_vnodeHashes]
  exact h x (mem_vnodeHashes.mp hx)

theorem Represents.removeSlot (hr : Represents hash32 n ch A) (hn : 1 ≤ n)
    (hsep : Separate (vnodePoints hash32 n) (insert slot A)) :
    Represents hash32 n (ch.removeSlot hash32 slot).2 (A \ {slot}) := by
  -- no other slot shares a hash with the removed one
  have hkeep : ∀ s ∈ A, s ≠ slot → ∀ h ∈ vnodePoints hash32 n s,
      h ∉ vnodePoints hash32 n slot := by
    intro s hs hne h hh hh'
    exact hne (hsep s (Set.mem_insert_of_mem _ hs) slot (Set.mem_insert _ _) h hh hh')
  have hring := hr.removeSlot_ring hn slot
  refine ⟨by rw [ConsistentHash.removeSlot_virtualNodes, hr.nodes], ?_, ?_, ?_, ?_⟩
  · exact ConsistentHash.removeSlot_sorted hr.sorted slot
  · intro h
    rw [hring, List.mem_filter, hr.mem_ring, decide_eq_true_eq, mem_vnodeHashes]
    constructor
    · rintro ⟨⟨s, hs, hh⟩, hnot⟩
      refine ⟨s, ⟨hs, ?_⟩, hh⟩
      rintro rfl
      exact hnot hh
    · rintro ⟨s, ⟨hs, hne⟩, hh⟩
      exact ⟨⟨s, hs, hh⟩, hkeep s hs hne h hh⟩
  · intro h s
    rw [ConsistentHash.removeSlot_lookup, hr.nodes]
    by_cases hh : h ∈ vnodePoints hash32 n slot
    · rw [if_pos (mem_vnodeHashes.mpr hh)]
      refine ⟨nofun, ?_⟩
      rintro ⟨⟨hs, hne⟩, hh'⟩
      exact absurd hh (hkeep s hs hne h hh')
    · rw [if_neg (mem_vnodeHashes.not.mpr hh), hr.lookup]
      constructor
      · rintro ⟨hs, hh'⟩
        refine ⟨⟨hs, ?_⟩, hh'⟩
        rintro rfl
        exact hh hh'
      · rintro ⟨⟨hs, _⟩, hh'⟩
        exact ⟨hs, hh'⟩
  · rintro s ⟨hs, hne⟩
    rw [hring]
    rw [← filter_vnodeHashes (hkeep s hs hne)]
    exact (hr.counts s hs).filter _

theorem Represents.call (hr : Represents hash32 n ch A) (hn : 1 ≤ n) (c : RingCall)
    (hsep : Separate (vnodePoints hash32 n) (insert c.slot A)) :
    Represents hash32 n (ch.call hash32 c) (c.track A) := by
  cases c with
  | addSlot slot => exact hr.addSlot hsep
  | removeSlot slot => exact hr.removeSlot hn hsep

theorem RingCall.track_subset {A U : Set GoString} (c : RingCall) (hA : A ⊆ U) (hc : c.slot ∈ U) :
    c.track A ⊆ U := by
  cases c with
  | addSlot slot => exact Set.insert_subset hc hA
  | removeSlot slot => exact Set.sdiff_subset.trans hA

theorem Represents.calls {A U : Set GoString} (hn : 1 ≤ n)
    (hsep : Separate (vnodePoints hash32 n) U) (calls : List RingCall)
    (hU : ∀ c ∈ calls, c.slot ∈ U) (hA : A ⊆ U) (hr : Represents hash32 n ch A) :
    Represents hash32 n (calls.foldl (ConsistentHash.call hash32) ch)
      (calls.foldl RingCall.track A) := by
  induction calls generalizing ch A with
  | nil => exact hr
  | cons c calls ih =>
    have hc : c.slot ∈ U := hU c List.mem_cons_self
    apply ih (fun c' hc' => hU c' (List.mem_cons_of_mem _ hc')) (c.track_subset hA hc)
    exact hr.call hn c (hsep.mono (Set.insert_subset hc hA))

theorem heldSlots_subset {U : Set GoString} (calls : List RingCall)
    (hU : ∀ c ∈ calls, c.slot ∈ U) : heldSlots calls ⊆ U := by
  suffices h : ∀ A ⊆ U, calls.foldl RingCall.track A ⊆ U from h ∅ (Set.empty_subset U)
  induction calls with
  | nil => exact fun A hA => hA
  | cons c calls ih =>
    intro A hA
    exact ih (fun c' hc' => hU c' (List.mem_cons_of_mem _ hc')) _
      (c.track_subset hA (hU c List.mem_cons_self))

theorem Represents.ring_eq_nil_iff (hr : Represents hash32 n ch A) (hn : 1 ≤ n) :
    ch.ring = [] ↔ A = ∅ := by
  rw [← hr.short_iff hn]
  constructor
  · intro he
    simp only [he, List.length_nil]
    omega
  · intro hlt
    have he := (hr.short_iff hn).mp hlt
    subst he
    exact hr.ring_eq_nil

theorem Represents.getSlot_empty (hr : Represents hash32 n ch ∅) (hn : 1 ≤ n) (key : GoString) :
    ch.getSlot hash32 key = [] :=
  ch.getSlot_empty key ((hr.ring_eq_nil_iff hn).mpr rfl)

/-- The lookup of a ring that holds slots is the owner on the circle. -/
theorem Represents.getSlot_owns (hr : Represents hash32 n ch A) (hn : 1 ≤ n) (hne : A.Nonempty)
    (key : GoString) : Owns (vnodePoints hash32 n) A (hash32 key) (ch.getSlot hash32 key) := by
  have hring : ch.ring ≠ [] := (hr.ring_eq_nil_iff hn).not.mpr hne.ne_empty
  obtain ⟨h, hsucc, hget⟩ := ConsistentHash.getSlot_successor hr.sorted hring key
  have hset : {x | x ∈ ch.ring} = placed (vnodePoints hash32 n) A := Set.ext hr.mem_ring
  rw [hset] at hsucc
  obtain ⟨s, hs, hh⟩ := hsucc.1
  have hl := (hr.lookup h s).mpr ⟨hs, hh⟩
  rw [hl, Option.getD_some] at hget
  rw [hget]
  exact ⟨hs, h, hh, hsucc⟩

theorem Represents.getSlot_congr (hr : Represents hash32 n ch A) (hr' : Represents hash32 n ch' A)
    (hn : 1 ≤ n) (hsep : Separate (vnodePoints hash32 n) A) (key : GoString) :
    ch.getSlot hash32 key = ch'.getSlot hash32 key := by
  by_cases hA : A = ∅
  · subst hA
    rw [hr.getSlot_empty hn, hr'.getSlot_empty hn]
  · have hne := Set.nonempty_iff_ne_empty.mpr hA
    exact (hr.getSlot_owns hn hne key).unique hsep (hr'.getSlot_owns hn hne key)

/-- Without collisions between slots a ring answers as the consistent hash of the slots it holds. -/
theorem getSlot_refines_owner (hash32 : GoString → UInt32) (virtualNodes : Int)
    (hn : 1 ≤ virtualNodes) (slots : Finset GoString) (hne : ∀ s ∈ slots, s ≠ [])
    (hsep : Separate (vnodePoints hash32 virtualNodes) slots) :
    (∀ calls : List RingCall, (∀ c ∈ calls, c.slot ∈ slots) → ∀ key,
      (((ringAfter hash32 virtualNodes calls).getSlot hash32 key = [] ↔ heldSlots calls = ∅) ∧
        (heldSlots calls ≠ ∅ → Owns (vnodePoints hash32 virtualNodes) (heldSlots calls)
          (hash32 key) ((ringAfter hash32 virtualNodes calls).getSlot hash32 key)))) ∧
    (∀ calls calls' : List RingCall, (∀ c ∈ calls, c.slot ∈ slots) →
      (∀ c ∈ calls', c.slot ∈ slots) → heldSlots calls = heldSlots calls' → ∀ key,
        (ringAfter hash32 virtualNodes calls).getSlot hash32 key =
          (ringAfter hash32 virtualNodes calls').getSlot hash32 key) := by
  have hrep (calls : List RingCall) (hU : ∀ c ∈ calls, c.slot ∈ slots) :
      Represents hash32 virtualNodes (ringAfter hash32 virtualNodes calls) (heldSlots calls) :=
    Represents.calls hn hsep calls hU (Set.empty_subset _) (represents_new hash32 virtualNodes)
  have howns (calls : List RingCall) (hU : ∀ c ∈ calls, c.slot ∈ slots) (key : GoString)
      (hA : heldSlots calls ≠ ∅) :
      Owns (vnodePoints hash32 virtualNodes) (heldSlots calls) (hash32 key)
        ((ringAfter hash32 virtualNodes calls).getSlot hash32 key) :=
    (hrep calls hU).getSlot_owns hn (Set.nonempty_iff_ne_empty.mpr hA) key
  constructor
  · intro calls hU key
    refine ⟨⟨fun he => ?_, fun he => ?_⟩, howns calls hU key⟩
    · by_contra hA
      have hs := (howns calls hU key hA).1
      exact hne _ (heldSlots_subset calls hU hs) he
    · have hr := hrep calls hU
      rw [he] at hr
      exact hr.getSlot_empty hn key
  · intro calls calls' hU hU' heq key
    have hr' := hrep calls' hU'
    rw [← heq] at hr'
    exact (hrep calls hU).getSlot_congr hr' hn (hsep.mono (heldSlots_subset calls hU)) key

theorem separate_pair {hash32 : GoString → UInt32} {n : Int} {a b : GoString}
    (h : (vnodeHashes hash32 n a).all (· ∉ vnodeHashes hash32 n b)) :
    Separate (vnodePoints hash32 n) {a, b} := by
  simp only [List.all_eq_true, decide_eq_true_eq] at h
  rintro s (rfl | rfl) t (rfl | rfl) x hx hx'
  · rfl
  · exact absurd (mem_vnodeHashes.mpr hx') (h x (mem_vnodeHashes.mpr hx))
  · exact absurd (mem_vnodeHashes.mpr hx) (h x (mem_vnodeHashes.mpr hx'))
  · rfl

def orders1 : GoString := lit "orders::c1.local:7233"

def orders2 : GoString := lit "orders::c2.local:7233"

theorem separate_orders : Separate (vnodePoints murmur3Sum32 50) {orders1, orders2} :=
  separate_pair (by decide +kernel)

theorem getSlot_refines_owner_orders :
    (ringAfter murmur3Sum32 50 [.addSlot orders1, .addSlot orders2, .removeSlot orders1]).getSlot
      murmur3Sum32 (lit "order-17") = orders2 := by
  have hcalls : heldSlots [.addSlot orders1, .addSlot orders2, .removeSlot orders1] =
      {orders2} := by
    have hdist : orders2 ≠ orders1 := by decide
    ext s
    simp only [heldSlots, List.foldl_cons, List.foldl_nil, RingCall.track]
    constructor
    · rintro ⟨rfl | rfl | h, hs⟩
      · rfl
      · exact absurd rfl hs
      · exact absurd h (Set.notMem_empty s)
    · rintro rfl
      exact ⟨Set.mem_insert _ _, hdist⟩
  have hne : heldSlots [.addSlot orders1, .addSlot orders2, .removeSlot orders1] ≠ ∅ := by
    simp [hcalls]
  have h := (getSlot_refines_owner murmur3Sum32 50 (by decide) {orders1, orders2} (by decide)
    (by simpa using separate_orders)).1 [.addSlot orders1, .addSlot orders2, .removeSlot orders1]
    (by decide) (lit "order-17")
  have hmem := (h.2 hne).1
  rw [hcalls] at hmem
  exact hmem

end Tempura
