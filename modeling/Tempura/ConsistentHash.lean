import Tempura.Base.FiniteMap
import Tempura.Base.CyclicSearch
import Tempura.Base.Go

namespace Tempura
open Base
set_option autoImplicit true

structure ConsistentHash where
  virtualNodes : Int
  ring : List UInt32
  vnodeToSlot : FiniteMap UInt32 GoString

def newConsistentHash (virtualNodes : Int) : ConsistentHash :=
  ⟨virtualNodes, [], ∅⟩

def vnodeName (slot : GoString) (i : Nat) : GoString := slot ++ lit "#" ++ itoa i

/-- The hashes of `slot#0 .. slot#(n-1)`, in the order the loops visit them. -/
def vnodeHashes (hash32 : GoString → UInt32) (virtualNodes : Int) (slot : GoString) :
    List UInt32 :=
  (List.range virtualNodes.toNat).map (fun i => hash32 (vnodeName slot i))

namespace ConsistentHash
variable (hash32 : GoString → UInt32)

def addVnode (slot : GoString) (ch : ConsistentHash) (i : Nat) : ConsistentHash :=
  let hash := hash32 (vnodeName slot i)
  { ch with ring := ch.ring ++ [hash], vnodeToSlot := ch.vnodeToSlot.insert hash slot }

def addSlot (ch : ConsistentHash) (slot : GoString) : ConsistentHash :=
  let ch := (List.range ch.virtualNodes.toNat).foldl (addVnode hash32 slot) ch
  { ch with ring := ch.ring.insertionSort (· ≤ ·) }

def getSlot (ch : ConsistentHash) (key : GoString) : GoString :=
  if ch.ring.length = 0 then []
  else
    let hash := hash32 key
    let idx := search ch.ring.length (fun i => ch.ring[i]?.any (hash ≤ ·))
    let idx := if idx = ch.ring.length then 0 else idx
    (ch.ring[idx]?.bind (ch.vnodeToSlot.lookup ·)).getD []

/-- `make` panics on a negative capacity; by then the loop above it has cleared the map. -/
def removeSlot (ch : ConsistentHash) (slot : GoString) : Outcome Unit × ConsistentHash :=
  let hashesToRemove := vnodeHashes hash32 ch.virtualNodes slot
  let ch := { ch with vnodeToSlot := ch.vnodeToSlot.eraseAll hashesToRemove }
  if (ch.ring.length : Int) - ch.virtualNodes < 0 then (.panic, ch)
  else (.ok (), { ch with ring := ch.ring.filter (fun hash => hash ∉ hashesToRemove) })

def getAllSlots (ch : ConsistentHash) : List GoString := ch.vnodeToSlot.values.eraseDups

variable {hash32 : GoString → UInt32}

theorem foldl_addVnode (slot : GoString) (is : List Nat) (ch : ConsistentHash) :
    is.foldl (addVnode hash32 slot) ch =
      { ch with
        ring := ch.ring ++ is.map (fun i => hash32 (vnodeName slot i))
        vnodeToSlot :=
          ch.vnodeToSlot.insertAll (is.map (fun i => hash32 (vnodeName slot i))) slot } := by
  induction is generalizing ch with
  | nil => simp [FiniteMap.insertAll]
  | cons i is ih =>
    rw [List.foldl_cons, ih]
    simp [addVnode, FiniteMap.insertAll]

@[simp] theorem addSlot_virtualNodes (ch : ConsistentHash) (slot : GoString) :
    (ch.addSlot hash32 slot).virtualNodes = ch.virtualNodes := by
  simp [addSlot, foldl_addVnode]

theorem addSlot_ring_perm (ch : ConsistentHash) (slot : GoString) :
    (ch.addSlot hash32 slot).ring.Perm
      (ch.ring ++ vnodeHashes hash32 ch.virtualNodes slot) := by
  simp only [addSlot, foldl_addVnode]
  exact List.perm_insertionSort _ _

theorem addSlot_sorted (ch : ConsistentHash) (slot : GoString) :
    (ch.addSlot hash32 slot).ring.SortedLE := by
  simp only [addSlot]
  exact List.sortedLE_insertionSort

theorem addSlot_lookup (ch : ConsistentHash) (slot : GoString) (h : UInt32) :
    (ch.addSlot hash32 slot).vnodeToSlot.lookup h =
      if h ∈ vnodeHashes hash32 ch.virtualNodes slot then some slot
      else ch.vnodeToSlot.lookup h := by
  simp only [addSlot, foldl_addVnode]
  exact FiniteMap.lookup_insertAll _ _ _ _

theorem addSlot_owner {ch : ConsistentHash}
    (hl : (ch.addSlot hash32 slot).vnodeToSlot.lookup h = some s) :
    (h ∈ vnodeHashes hash32 ch.virtualNodes slot ∧ s = slot) ∨
      ch.vnodeToSlot.lookup h = some s := by
  rw [addSlot_lookup] at hl
  split at hl
  next hmem =>
    cases hl
    exact .inl ⟨hmem, rfl⟩
  next => exact .inr hl

@[simp] theorem removeSlot_virtualNodes (ch : ConsistentHash) (slot : GoString) :
    (ch.removeSlot hash32 slot).2.virtualNodes = ch.virtualNodes := by
  simp only [removeSlot]
  split <;> rfl

theorem removeSlot_lookup (ch : ConsistentHash) (slot : GoString) (h : UInt32) :
    (ch.removeSlot hash32 slot).2.vnodeToSlot.lookup h =
      if h ∈ vnodeHashes hash32 ch.virtualNodes slot then none
      else ch.vnodeToSlot.lookup h := by
  rw [← FiniteMap.lookup_eraseAll]
  simp only [removeSlot]
  split <;> rfl

theorem removeSlot_owner {ch : ConsistentHash}
    (hl : (ch.removeSlot hash32 slot).2.vnodeToSlot.lookup h = some s) :
    h ∉ vnodeHashes hash32 ch.virtualNodes slot ∧ ch.vnodeToSlot.lookup h = some s := by
  rw [removeSlot_lookup] at hl
  split at hl
  next => cases hl
  next hnot => exact ⟨hnot, hl⟩

theorem removeSlot_ring (ch : ConsistentHash) (slot : GoString) :
    (ch.removeSlot hash32 slot).2.ring =
      if (ch.ring.length : Int) < ch.virtualNodes then ch.ring
      else ch.ring.filter (fun h => h ∉ vnodeHashes hash32 ch.virtualNodes slot) := by
  simp only [removeSlot]
  by_cases hc : (ch.ring.length : Int) < ch.virtualNodes
  · rw [if_pos (by omega), if_pos hc]
  · rw [if_neg (by omega), if_neg hc]

theorem removeSlot_sorted {ch : ConsistentHash} (hs : ch.ring.SortedLE) (slot : GoString) :
    (ch.removeSlot hash32 slot).2.ring.SortedLE := by
  rw [removeSlot_ring]
  split
  · exact hs
  · exact (hs.pairwise.filter _).sortedLE

theorem getSlot_empty (ch : ConsistentHash) (key : GoString) (h : ch.ring = []) :
    ch.getSlot hash32 key = [] := by
  simp [getSlot, h]

theorem lookup_of_getSlot {ch : ConsistentHash} {key : GoString}
    (hne : ch.getSlot hash32 key ≠ []) :
    ∃ h, ch.vnodeToSlot.lookup h = some (ch.getSlot hash32 key) := by
  rw [getSlot] at hne ⊢
  split at hne
  next => exact absurd rfl hne
  next hlen =>
    rw [if_neg hlen]
    simp only at hne ⊢
    generalize (if search ch.ring.length _ = ch.ring.length then 0 else _) = idx at hne ⊢
    cases hidx : ch.ring[idx]? with
    | none => simp [hidx] at hne
    | some h =>
      cases hl : ch.vnodeToSlot.lookup h with
      | none => simp [hidx, hl] at hne
      | some slot => exact ⟨h, by simp [hl]⟩

/-- On a sorted ring a lookup reads the map at the successor of the key's hash. -/
theorem getSlot_successor {ch : ConsistentHash} (hs : ch.ring.SortedLE) (hne : ch.ring ≠ [])
    (key : GoString) :
    ∃ h, IsSuccessor {x | x ∈ ch.ring} (hash32 key) h ∧
      ch.getSlot hash32 key = (ch.vnodeToSlot.lookup h).getD [] := by
  obtain ⟨h, hget, hsucc⟩ := search_isSuccessor hs hne (hash32 key) rfl
  refine ⟨h, hsucc, ?_⟩
  rw [getSlot, if_neg (by simpa using hne)]
  simp only [hget, Option.bind_some]

theorem mem_getAllSlots {ch : ConsistentHash} {slot : GoString} :
    slot ∈ ch.getAllSlots ↔ ∃ h, ch.vnodeToSlot.lookup h = some slot := by
  rw [getAllSlots, List.mem_eraseDups, FiniteMap.mem_values_iff]

end ConsistentHash
end Tempura
