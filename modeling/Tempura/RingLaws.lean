import Tempura.Base.Run
import Tempura.RingHistory

namespace Tempura
open Base
set_option autoImplicit true

theorem ConsistentHash.call_virtualNodes (ch : ConsistentHash) (c : RingCall) :
    (ch.call hash32 c).virtualNodes = ch.virtualNodes := by
  cases c with
  | addSlot slot => exact ch.addSlot_virtualNodes slot
  | removeSlot slot => exact ch.removeSlot_virtualNodes slot

theorem ConsistentHash.call_sorted {ch : ConsistentHash} (hs : ch.ring.SortedLE) (c : RingCall) :
    (ch.call hash32 c).ring.SortedLE := by
  cases c with
  | addSlot slot => exact ch.addSlot_sorted slot
  | removeSlot slot => exact removeSlot_sorted hs slot

theorem ringAfter_sorted (hash32 : GoString → UInt32) (n : Int) (calls : List RingCall) :
    (ringAfter hash32 n calls).virtualNodes = n ∧ (ringAfter hash32 n calls).ring.SortedLE := by
  induction calls using List.reverseRecOn with
  | nil => exact ⟨rfl, List.Pairwise.nil.sortedLE⟩
  | append_singleton calls c ih =>
    rw [ringAfter, List.foldl_append, List.foldl_cons, List.foldl_nil]
    exact ⟨(ConsistentHash.call_virtualNodes _ c).trans ih.1, ConsistentHash.call_sorted ih.2 c⟩

/-- A slot that is added takes keys over, and moves none between the others. -/
theorem addSlot_moves_only_to_slot (hash32 : GoString → UInt32) (virtualNodes : Int)
    (calls : List RingCall) (slot key : GoString) :
    let ch := ringAfter hash32 virtualNodes calls
    (ch.addSlot hash32 slot).getSlot hash32 key = slot ∨
      (ch.addSlot hash32 slot).getSlot hash32 key = ch.getSlot hash32 key := by
  intro ch
  have hs : ch.ring.SortedLE := (ringAfter_sorted hash32 virtualNodes calls).2
  have hmem (x : UInt32) : x ∈ (ch.addSlot hash32 slot).ring ↔
      x ∈ ch.ring ∨ x ∈ vnodeHashes hash32 ch.virtualNodes slot := by
    rw [(ch.addSlot_ring_perm slot).mem_iff, List.mem_append]
  by_cases hne : (ch.addSlot hash32 slot).ring = []
  · have hne' : ch.ring = [] := by
      apply List.eq_nil_iff_forall_not_mem.mpr
      intro x hx
      exact List.not_mem_nil (hne ▸ (hmem x).mpr (.inl hx))
    right
    rw [ConsistentHash.getSlot_empty _ key hne, ConsistentHash.getSlot_empty _ key hne']
  obtain ⟨h, hsucc, hget⟩ := ConsistentHash.getSlot_successor (ch.addSlot_sorted slot) hne key
  rw [hget, ConsistentHash.addSlot_lookup]
  by_cases hh : h ∈ vnodeHashes hash32 ch.virtualNodes slot
  · left
    rw [if_pos hh, Option.getD_some]
  · right
    have hold : h ∈ ch.ring := ((hmem h).mp hsucc.1).resolve_right hh
    obtain ⟨h', hsucc', hget'⟩ := ConsistentHash.getSlot_successor hs (List.ne_nil_of_mem hold) key
    have hsame : h' = h :=
      hsucc'.unique (hsucc.of_subset (fun x hx => (hmem x).mpr (.inl hx)) hold)
    rw [if_neg hh, hget', hsame]

/-- The points of the ring that a slot does not hash to. -/
def ConsistentHash.others (hash32 : GoString → UInt32) (ch : ConsistentHash) (slot : GoString) :
    Set UInt32 :=
  {h | h ∈ ch.ring ∧ h ∉ vnodePoints hash32 ch.virtualNodes slot}

theorem ConsistentHash.removeSlot_ok_iff (ch : ConsistentHash) (slot : GoString) :
    (ch.removeSlot hash32 slot).1 = .ok () ↔ ch.virtualNodes ≤ ch.ring.length := by
  simp only [ConsistentHash.removeSlot]
  split
  · exact iff_of_false (by intro h; cases h) (by omega)
  · exact iff_of_true rfl (by omega)

theorem ConsistentHash.mem_removeSlot {ch : ConsistentHash}
    (hok : (ch.removeSlot hash32 slot).1 = .ok ()) (h : UInt32) :
    h ∈ (ch.removeSlot hash32 slot).2.ring ↔ h ∈ ch.others hash32 slot := by
  rw [ch.removeSlot_ok_iff] at hok
  rw [ch.removeSlot_ring, if_neg (by omega), List.mem_filter, decide_eq_true_eq, mem_vnodeHashes]
  rfl

theorem ConsistentHash.getSlot_removeSlot_nil {ch : ConsistentHash}
    (hok : (ch.removeSlot hash32 slot).1 = .ok ()) (key : GoString)
    (hnone : ch.others hash32 slot = ∅) :
    (ch.removeSlot hash32 slot).2.getSlot hash32 key = [] := by
  apply getSlot_empty
  apply List.eq_nil_iff_forall_not_mem.mpr
  intro h hh
  exact Set.notMem_empty h (hnone ▸ (ch.mem_removeSlot hok h).mp hh)

theorem ConsistentHash.getSlot_removeSlot {ch : ConsistentHash} (hs : ch.ring.SortedLE)
    (hok : (ch.removeSlot hash32 slot).1 = .ok ()) (key : GoString)
    (hsome : (ch.others hash32 slot).Nonempty) :
    ∃ h, IsSuccessor (ch.others hash32 slot) (hash32 key) h ∧
      (ch.removeSlot hash32 slot).2.getSlot hash32 key = (ch.vnodeToSlot.lookup h).getD [] := by
  have hring := ch.mem_removeSlot hok
  have hset : {x | x ∈ (ch.removeSlot hash32 slot).2.ring} = ch.others hash32 slot := Set.ext hring
  obtain ⟨x, hx⟩ := hsome
  have hne := List.ne_nil_of_mem ((hring x).mpr hx)
  obtain ⟨h, hsucc, hget⟩ := @getSlot_successor hash32 _ (removeSlot_sorted hs slot) hne key
  rw [hset] at hsucc
  rw [ch.removeSlot_lookup, if_neg (fun hh => hsucc.1.2 (mem_vnodeHashes.mp hh))] at hget
  exact ⟨h, hsucc, hget⟩

/-- A removal moves a key away from another slot exactly if the removed slot hashes to the virtual
node that serves the key, and the next one is not that slot's. -/
theorem removeSlot_keeps_iff (hash32 : GoString → UInt32) (virtualNodes : Int)
    (calls : List RingCall) (ch : ConsistentHash) (hch : ch = ringAfter hash32 virtualNodes calls)
    (slot key other : GoString) (hok : (ch.removeSlot hash32 slot).1 = .ok ())
    (hget : ch.getSlot hash32 key = other) :
    (ch.removeSlot hash32 slot).2.getSlot hash32 key = other ↔
      (∀ h, IsSuccessor {x | x ∈ ch.ring} (hash32 key) h →
        h ∉ vnodePoints hash32 ch.virtualNodes slot) ∨
      (∃ h, IsSuccessor (ch.others hash32 slot) (hash32 key) h ∧
        (ch.vnodeToSlot.lookup h).getD [] = other) ∨
      (ch.others hash32 slot = ∅ ∧ other = []) := by
  have hs : ch.ring.SortedLE := hch ▸ (ringAfter_sorted hash32 virtualNodes calls).2
  rcases Set.eq_empty_or_nonempty (ch.others hash32 slot) with hnone | hsome
  · rw [ConsistentHash.getSlot_removeSlot_nil hok key hnone]
    constructor
    · intro he
      exact .inr (.inr ⟨hnone, he.symm⟩)
    · rintro (hserves | ⟨h, hsucc, _⟩ | ⟨_, he⟩)
      · by_cases hring : ch.ring = []
        · rw [← hget, ch.getSlot_empty key hring]
        · obtain ⟨h, hsucc, _⟩ := @ConsistentHash.getSlot_successor hash32 _ hs hring key
          exact absurd ⟨hsucc.1, hserves h hsucc⟩ (Set.eq_empty_iff_forall_notMem.mp hnone h)
      · exact absurd hsucc.1 (Set.eq_empty_iff_forall_notMem.mp hnone h)
      · exact he.symm
  · obtain ⟨h, hsucc, hafter⟩ := ConsistentHash.getSlot_removeSlot hs hok key hsome
    rw [hafter]
    constructor
    · intro he
      exact .inr (.inl ⟨h, hsucc, he⟩)
    · rintro (hserves | ⟨h', hsucc', he⟩ | ⟨hnone, _⟩)
      · obtain ⟨h₀, hsucc₀, hget₀⟩ := @ConsistentHash.getSlot_successor hash32 _ hs
          (List.ne_nil_of_mem hsucc.1.1) key
        -- the node that served the key is among those left, and still the first of them
        have hkept : IsSuccessor (ch.others hash32 slot) (hash32 key) h₀ :=
          hsucc₀.of_subset (fun x hx => hx.1) ⟨hsucc₀.1, hserves h₀ hsucc₀⟩
        rw [hsucc.unique hkept, ← hget, hget₀]
      · rw [hsucc.unique hsucc', he]
      · exact absurd hnone hsome.ne_empty

def lengthHash (key : GoString) : UInt32 := key.length.toUInt32

theorem removeSlot_keeps_shorter :
    ((ringAfter lengthHash 1 [.addSlot (lit "a::c1"), .addSlot (lit "bb::c2")]).removeSlot
      lengthHash (lit "bb::c2")).2.getSlot lengthHash (lit "w1") = lit "a::c1" := by
  apply (removeSlot_keeps_iff lengthHash 1 [.addSlot (lit "a::c1"), .addSlot (lit "bb::c2")] _ rfl
    (lit "bb::c2") (lit "w1") (lit "a::c1") (by decide) (by decide)).mpr
  left
  intro h hsucc hmem
  have hpoint : h ∈ [8] := mem_vnodeHashes.mpr hmem
  rw [List.mem_singleton.mp hpoint] at hsucc
  obtain ⟨_, ⟨_, hleast⟩ | ⟨hbelow, _⟩⟩ := hsucc
  · exact absurd (hleast 7 (by decide) (by decide)) (by decide)
  · exact absurd (hbelow 7 (by decide)) (by decide)

/-- Two of these slots share a hash of their virtual nodes. -/
def collidingSlots : List RingCall :=
  [.addSlot (lit "orders::c2428.local:7233"), .addSlot (lit "orders::c2521.local:7233"),
    .addSlot (lit "orders::z8.local:7233")]

theorem shared_hash_moves_keys : ¬ ∀ (calls : List RingCall) (ch : ConsistentHash)
    (slot key other : GoString), ch = ringAfter murmur3Sum32 50 calls →
    other ≠ slot → (ch.removeSlot murmur3Sum32 slot).1 = .ok () →
    ch.getSlot murmur3Sum32 key = other →
    (ch.removeSlot murmur3Sum32 slot).2.getSlot murmur3Sum32 key = other := by
  intro hall
  have hmoves :
      let ch := ringAfter murmur3Sum32 50 collidingSlots
      let removed := ch.removeSlot murmur3Sum32 (lit "orders::c2428.local:7233")
      removed.1 = .ok () ∧
        ch.getSlot murmur3Sum32 (lit "order-76") = lit "orders::c2521.local:7233" ∧
        removed.2.getSlot murmur3Sum32 (lit "order-76") = lit "orders::z8.local:7233" := by
    decide +kernel
  obtain ⟨hok, hserved, hmoved⟩ := hmoves
  have hkept := hall collidingSlots _ _ _ _ rfl (by decide) hok hserved
  rw [hmoved] at hkept
  exact absurd hkept (by decide)

def ConsistentHash.outcome (hash32 : GoString → UInt32) (ch : ConsistentHash) :
    RingCall → Outcome Unit
  | .addSlot _ => .ok ()
  | .removeSlot slot => (ch.removeSlot hash32 slot).1

/-- The slice holds the keys of the map in order, and the map leads to slots in `A`. -/
structure Linked (hash32 : GoString → UInt32) (n : Int) (ch : ConsistentHash)
    (A : Set GoString) : Prop where
  nodes : ch.virtualNodes = n
  sorted : ch.ring.SortedLE
  keys : ∀ h, h ∈ ch.ring ↔ h ∈ ch.vnodeToSlot.keys
  owners : ∀ h s, ch.vnodeToSlot.lookup h = some s → h ∈ vnodePoints hash32 n s ∧ s ∈ A

theorem linked_new (hash32 : GoString → UInt32) (n : Int) :
    Linked hash32 n (newConsistentHash n) ∅ where
  nodes := rfl
  sorted := List.Pairwise.nil.sortedLE
  keys _ := Iff.rfl
  owners h s hl := by cases hl

namespace Linked

theorem addSlot (hl : Linked hash32 n ch A) (slot : GoString) :
    Linked hash32 n (ch.addSlot hash32 slot) (insert slot A) where
  nodes := by rw [ConsistentHash.addSlot_virtualNodes, hl.nodes]
  sorted := ch.addSlot_sorted slot
  keys h := by
    rw [(ch.addSlot_ring_perm slot).mem_iff, List.mem_append, hl.keys, FiniteMap.mem_keys_iff,
      FiniteMap.mem_keys_iff, ch.addSlot_lookup]
    by_cases hh : h ∈ vnodeHashes hash32 ch.virtualNodes slot
    · rw [if_pos hh]
      exact iff_of_true (.inr hh) ⟨slot, rfl⟩
    · rw [if_neg hh]
      exact or_iff_left hh
  owners h s hs := by
    obtain ⟨hh, rfl⟩ | hold := ConsistentHash.addSlot_owner hs
    · rw [hl.nodes] at hh
      exact ⟨mem_vnodeHashes.mp hh, Set.mem_insert s A⟩
    · obtain ⟨hpoint, hmem⟩ := hl.owners h s hold
      exact ⟨hpoint, Set.mem_insert_of_mem slot hmem⟩

theorem removeSlot (hl : Linked hash32 n ch A) (hok : (ch.removeSlot hash32 slot).1 = .ok ()) :
    Linked hash32 n (ch.removeSlot hash32 slot).2 (A \ {slot}) where
  nodes := by rw [ConsistentHash.removeSlot_virtualNodes, hl.nodes]
  sorted := ConsistentHash.removeSlot_sorted hl.sorted slot
  keys h := by
    rw [ch.mem_removeSlot hok, FiniteMap.mem_keys_iff, ch.removeSlot_lookup]
    change h ∈ ch.ring ∧ h ∉ vnodePoints hash32 ch.virtualNodes slot ↔ _
    rw [hl.keys, FiniteMap.mem_keys_iff, ← mem_vnodeHashes]
    by_cases hh : h ∈ vnodeHashes hash32 ch.virtualNodes slot
    · rw [if_pos hh]
      refine iff_of_false (fun hb => hb.2 hh) ?_
      rintro ⟨s, hs⟩
      cases hs
    · rw [if_neg hh]
      exact and_iff_left hh
  owners h s hs := by
    obtain ⟨hnot, hold⟩ := ConsistentHash.removeSlot_owner hs
    obtain ⟨hpoint, hmem⟩ := hl.owners h s hold
    refine ⟨hpoint, hmem, ?_⟩
    rintro rfl
    rw [hl.nodes] at hnot
    exact hnot (mem_vnodeHashes.mpr hpoint)

theorem call (hl : Linked hash32 n ch A) (c : RingCall) (hok : ch.outcome hash32 c = .ok ()) :
    Linked hash32 n (ch.call hash32 c) (c.track A) := by
  cases c with
  | addSlot slot => exact hl.addSlot slot
  | removeSlot slot => exact hl.removeSlot hok

theorem getSlot_mem (hl : Linked hash32 n ch A) (hne : ch.ring ≠ []) (key : GoString) :
    ch.getSlot hash32 key ∈ A := by
  obtain ⟨h, hsucc, hget⟩ := @ConsistentHash.getSlot_successor hash32 _ hl.sorted hne key
  obtain ⟨s, hs⟩ := FiniteMap.mem_keys_iff.mp ((hl.keys h).mp hsucc.1)
  rw [hget, hs]
  exact (hl.owners h s hs).2

end Linked

theorem linked_ringAfter (h : ∀ before c after, calls = before ++ c :: after →
      (ringAfter hash32 n before).outcome hash32 c = .ok ()) :
    Linked hash32 n (ringAfter hash32 n calls) (heldSlots calls) := by
  induction calls using List.reverseRecOn with
  | nil => exact linked_new hash32 n
  | append_singleton calls c ih =>
    obtain ⟨hinit, hlast⟩ := forall_split_concat.mp h
    rw [ringAfter, heldSlots, List.foldl_append, List.foldl_append]
    exact (ih hinit).call c hlast

/-- After any calls that returned the slice is sorted and holds the keys of the map, and the map
leads to slots that were added and not removed since. -/
theorem ring_map_linked (hash32 : GoString → UInt32) (virtualNodes : Int) (calls : List RingCall)
    (hret : ∀ before c after, calls = before ++ c :: after →
      (ringAfter hash32 virtualNodes before).outcome hash32 c = .ok ()) :
    let ch := ringAfter hash32 virtualNodes calls
    ch.ring.SortedLE ∧
    (∀ h, h ∈ ch.ring ↔ h ∈ ch.vnodeToSlot.keys) ∧
    (∀ h s, ch.vnodeToSlot.lookup h = some s →
      h ∈ vnodePoints hash32 virtualNodes s ∧ s ∈ heldSlots calls) ∧
    ((∀ c ∈ calls, c.slot ≠ []) → ∀ key,
      (∀ s, .removeSlot s ∈ calls → s ∉ heldSlots calls → ch.getSlot hash32 key ≠ s) ∧
      (ch.getSlot hash32 key = [] → ch.ring = [])) := by
  intro ch
  have hl : Linked hash32 virtualNodes ch (heldSlots calls) := linked_ringAfter hret
  refine ⟨hl.sorted, hl.keys, hl.owners, ?_⟩
  intro hne key
  have hheld : heldSlots calls ⊆ {s | s ≠ []} := heldSlots_subset calls hne
  constructor
  · rintro s hs hnot rfl
    by_cases hring : ch.ring = []
    · exact hne _ hs (ch.getSlot_empty key hring)
    · exact hnot (hl.getSlot_mem hring key)
  · intro hnil
    by_contra hring
    exact hheld (hl.getSlot_mem hring key) hnil

def takenOver : List RingCall :=
  [.addSlot (lit "a::c1"), .addSlot (lit "b::c1"), .addSlot (lit "bb::c2"),
    .removeSlot (lit "a::c1")]

theorem ring_map_linked_takenOver :
    let ch := ringAfter lengthHash 2 takenOver
    (∀ h, h ∈ ch.ring ↔ h ∈ ch.vnodeToSlot.keys) ∧
      ch.getSlot lengthHash (lit "w1") ≠ lit "a::c1" := by
  have hret : ∀ before c after, [] ++ [RingCall.addSlot (lit "a::c1")] ++
      [.addSlot (lit "b::c1")] ++ [.addSlot (lit "bb::c2")] ++ [.removeSlot (lit "a::c1")] =
        before ++ c :: after → (ringAfter lengthHash 2 before).outcome lengthHash c = .ok () := by
    simp only [forall_split_concat]
    refine ⟨⟨⟨⟨?_, rfl⟩, rfl⟩, rfl⟩, by decide⟩
    intro before c after heq
    simp at heq
  have hgone : lit "a::c1" ∉ heldSlots takenOver := fun hheld => hheld.2 rfl
  have h := ring_map_linked lengthHash 2 takenOver hret
  exact ⟨h.2.1, (h.2.2.2 (by decide) (lit "w1")).1 _ (by decide) hgone⟩

end Tempura
