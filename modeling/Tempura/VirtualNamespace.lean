import Tempura.RingHistory

namespace Tempura
open Base
set_option autoImplicit true

/-- The code has the two named statuses; a loaded schema may hold any other text. -/
inductive NamespaceStatus where
  | active
  | cordoned
  | other (text : GoString)
  deriving DecidableEq

structure VirtualNamespace where
  name : GoString
  ring : ConsistentHash
  namespaces : FiniteMap GoString NamespaceStatus

def defaultVirtualNodes : Int := 50

def newVirtualNamespace (name : GoString) : VirtualNamespace :=
  ⟨name, newConsistentHash defaultVirtualNodes, ∅⟩

namespace VirtualNamespace
variable (hash32 : GoString → UInt32)

def add (v : VirtualNamespace) (name : GoString) : VirtualNamespace :=
  { v with
    namespaces := v.namespaces.insert name .active
    ring := v.ring.addSlot hash32 name }

/-- The status changes before the ring is touched, so it stays changed if the ring panics. -/
def remove (v : VirtualNamespace) (name : GoString) : Outcome Unit × VirtualNamespace :=
  let v :=
    if (v.namespaces.lookup name).isSome then
      { v with namespaces := v.namespaces.insert name .cordoned }
    else v
  let (outcome, ring) := v.ring.removeSlot hash32 name
  (outcome, { v with ring := ring })

def getAllNamespacesWithStatus (v : VirtualNamespace) : FiniteMap GoString NamespaceStatus :=
  v.namespaces

def getAllNamespaces (v : VirtualNamespace) : List GoString := v.namespaces.keys

def activeNames (v : VirtualNamespace) : Set GoString :=
  {s | v.namespaces.lookup s = some .active}

variable {hash32 : GoString → UInt32}

theorem add_lookup (v : VirtualNamespace) (s t : GoString) :
    (v.add hash32 s).namespaces.lookup t =
      if t = s then some .active else v.namespaces.lookup t :=
  FiniteMap.lookup_insert_ite _ _ _ _

@[simp] theorem remove_ring (v : VirtualNamespace) (s : GoString) :
    (v.remove hash32 s).2.ring = (v.ring.removeSlot hash32 s).2 := by
  simp only [remove]
  split <;> rfl

theorem remove_namespaces (v : VirtualNamespace) (s : GoString) :
    (v.remove hash32 s).2.namespaces =
      if (v.namespaces.lookup s).isSome then v.namespaces.insert s .cordoned
      else v.namespaces := by
  simp only [remove]
  split <;> rfl

theorem remove_lookup (v : VirtualNamespace) (s t : GoString) :
    (v.remove hash32 s).2.namespaces.lookup t =
      if t = s then (v.namespaces.lookup s).map (fun _ => .cordoned)
      else v.namespaces.lookup t := by
  simp only [remove]
  cases h : v.namespaces.lookup s with
  | none =>
    simp only [Option.isSome_none, Bool.false_eq_true, if_false, Option.map_none]
    by_cases ht : t = s
    · rw [if_pos ht, ht, h]
    · rw [if_neg ht]
  | some status =>
    simp only [Option.isSome_some, if_true, Option.map_some]
    exact FiniteMap.lookup_insert_ite _ _ _ _

theorem mem_getAllNamespaces {v : VirtualNamespace} {s : GoString} :
    s ∈ v.getAllNamespaces ↔ ∃ status, v.namespaces.lookup s = some status :=
  FiniteMap.mem_keys_iff

theorem activeNames_add (v : VirtualNamespace) (s : GoString) :
    (v.add hash32 s).activeNames = insert s v.activeNames := by
  ext t
  change (v.add hash32 s).namespaces.lookup t = some .active ↔
    t = s ∨ v.namespaces.lookup t = some .active
  rw [add_lookup]
  by_cases ht : t = s <;> simp [ht]

theorem activeNames_remove (v : VirtualNamespace) (s : GoString) :
    (v.remove hash32 s).2.activeNames = v.activeNames \ {s} := by
  ext t
  change (v.remove hash32 s).2.namespaces.lookup t = some .active ↔
    v.namespaces.lookup t = some .active ∧ t ≠ s
  rw [remove_lookup]
  by_cases ht : t = s
  · cases h : v.namespaces.lookup s <;> simp [ht]
  · simp [ht]

theorem getAllNamespaces_add_subset (v : VirtualNamespace) (s : GoString) {t : GoString}
    (ht : t ∈ v.getAllNamespaces) : t ∈ (v.add hash32 s).getAllNamespaces := by
  rw [mem_getAllNamespaces] at ht ⊢
  rw [add_lookup]
  by_cases h : t = s
  · exact ⟨.active, by rw [if_pos h]⟩
  · rwa [if_neg h]

theorem mem_getAllNamespaces_add (v : VirtualNamespace) (s : GoString) :
    s ∈ (v.add hash32 s).getAllNamespaces := by
  rw [mem_getAllNamespaces, add_lookup, if_pos rfl]
  exact ⟨.active, rfl⟩

theorem mem_getAllNamespaces_remove {v : VirtualNamespace} {s t : GoString} :
    t ∈ (v.remove hash32 s).2.getAllNamespaces ↔ t ∈ v.getAllNamespaces := by
  rw [mem_getAllNamespaces, mem_getAllNamespaces, remove_lookup]
  by_cases h : t = s
  · rw [if_pos h, h]
    cases v.namespaces.lookup s <;> simp
  · rw [if_neg h]

end VirtualNamespace

inductive NamespaceCall where
  | add (name : GoString)
  | remove (name : GoString)
  deriving DecidableEq

def NamespaceCall.name : NamespaceCall → GoString
  | .add name => name
  | .remove name => name

/-- The state a call leaves, whether it returns or panics. -/
def VirtualNamespace.call (hash32 : GoString → UInt32) (v : VirtualNamespace) :
    NamespaceCall → VirtualNamespace
  | .add name => v.add hash32 name
  | .remove name => (v.remove hash32 name).2

theorem VirtualNamespace.call_name (v : VirtualNamespace) (hash32 : GoString → UInt32)
    (c : NamespaceCall) : (v.call hash32 c).name = v.name := by
  cases c with
  | add name => rfl
  | remove name =>
    simp only [call, remove]
    split <;> rfl

/-- Lockstep of the two structures: the ring holds the virtual nodes of the active names. -/
def Lockstep (hash32 : GoString → UInt32) (v : VirtualNamespace) : Prop :=
  Represents hash32 defaultVirtualNodes v.ring v.activeNames

theorem one_le_defaultVirtualNodes : 1 ≤ defaultVirtualNodes := by decide

theorem activeNames_new (name : GoString) : (newVirtualNamespace name).activeNames = ∅ := by
  ext s
  change (∅ : FiniteMap GoString NamespaceStatus).lookup s = some .active ↔ False
  simp

theorem lockstep_new (hash32 : GoString → UInt32) (name : GoString) :
    Lockstep hash32 (newVirtualNamespace name) := by
  rw [Lockstep, activeNames_new]
  exact represents_new hash32 defaultVirtualNodes

theorem Lockstep.call (h : Lockstep hash32 v) (c : NamespaceCall)
    (hsep : Separate (vnodePoints hash32 defaultVirtualNodes) (insert c.name v.activeNames)) :
    Lockstep hash32 (v.call hash32 c) := by
  cases c with
  | add s =>
    rw [Lockstep, VirtualNamespace.call, VirtualNamespace.activeNames_add]
    exact h.addSlot hsep
  | remove s =>
    rw [Lockstep, VirtualNamespace.call, VirtualNamespace.activeNames_remove,
      VirtualNamespace.remove_ring]
    exact h.removeSlot one_le_defaultVirtualNodes hsep

theorem activeNames_call_subset {U : Set GoString} (c : NamespaceCall) (hc : c.name ∈ U)
    (hv : v.activeNames ⊆ U) : (VirtualNamespace.call hash32 v c).activeNames ⊆ U := by
  cases c with
  | add s =>
    rw [VirtualNamespace.call, VirtualNamespace.activeNames_add]
    exact Set.insert_subset hc hv
  | remove s =>
    rw [VirtualNamespace.call, VirtualNamespace.activeNames_remove]
    exact Set.sdiff_subset.trans hv

theorem Lockstep.calls {U : Set GoString}
    (hsep : Separate (vnodePoints hash32 defaultVirtualNodes) U) (calls : List NamespaceCall)
    (hU : ∀ c ∈ calls, c.name ∈ U) (hv : v.activeNames ⊆ U) (h : Lockstep hash32 v) :
    Lockstep hash32 (calls.foldl (VirtualNamespace.call hash32) v) ∧
      (calls.foldl (VirtualNamespace.call hash32) v).activeNames ⊆ U := by
  apply List.foldlRecOn (motive := fun v => Lockstep hash32 v ∧ v.activeNames ⊆ U) calls _ ⟨h, hv⟩
  rintro v ⟨h, hv⟩ c hc
  exact ⟨h.call c (hsep.mono (Set.insert_subset (hU c hc) hv)),
    activeNames_call_subset c (hU c hc) hv⟩

theorem Lockstep.getSlot_eq_nil_or (h : Lockstep hash32 v) (key : GoString) :
    (v.activeNames = ∅ ∧ v.ring.getSlot hash32 key = []) ∨
      v.ring.getSlot hash32 key ∈ v.activeNames := by
  by_cases he : v.activeNames = ∅
  · rw [Lockstep, he] at h
    exact .inl ⟨he, h.getSlot_empty one_le_defaultVirtualNodes key⟩
  · exact .inr
      (h.getSlot_owns one_le_defaultVirtualNodes (Set.nonempty_iff_ne_empty.mpr he) key).1

theorem Lockstep.mem_getAllSlots (h : Lockstep hash32 v) (s : GoString) :
    s ∈ v.ring.getAllSlots ↔ s ∈ v.activeNames := by
  rw [ConsistentHash.mem_getAllSlots]
  constructor
  · rintro ⟨x, hx⟩
    exact ((h.lookup x s).mp hx).1
  · intro hs
    exact ⟨hash32 (vnodeName s 0), (h.lookup _ s).mpr ⟨hs, 0, by decide, rfl⟩⟩

theorem mem_getAllNamespaces_calls (calls : List NamespaceCall) {s : GoString}
    (hs : s ∈ v.getAllNamespaces ∨ .add s ∈ calls) :
    s ∈ (calls.foldl (VirtualNamespace.call hash32) v).getAllNamespaces := by
  induction calls generalizing v with
  | nil => simpa using hs
  | cons c calls ih =>
    apply ih
    cases c with
    | add t =>
      rcases hs with hs | hs
      · exact .inl (v.getAllNamespaces_add_subset t hs)
      · rcases List.mem_cons.mp hs with he | hs
        · cases he
          exact .inl (v.mem_getAllNamespaces_add s)
        · exact .inr hs
    | remove t =>
      rcases hs with hs | hs
      · exact .inl (VirtualNamespace.mem_getAllNamespaces_remove.mpr hs)
      · rcases List.mem_cons.mp hs with he | hs
        · cases he
        · exact .inr hs

/-- After any calls, the ring offers exactly the active names, and no name is ever forgotten. -/
theorem status_ring_lockstep (hash32 : GoString → UInt32) (name : GoString)
    (calls : List NamespaceCall) (hne : ∀ c ∈ calls, c.name ≠ [])
    (hsep : Separate (vnodePoints hash32 defaultVirtualNodes) {s | ∃ c ∈ calls, c.name = s}) :
    let v := calls.foldl (VirtualNamespace.call hash32) (newVirtualNamespace name)
    (∀ s, s ∈ v.ring.getAllSlots ↔ v.namespaces.lookup s = some .active) ∧
    (∀ key, v.ring.getSlot hash32 key ≠ [] →
      v.namespaces.lookup (v.ring.getSlot hash32 key) = some .active) ∧
    (∀ key, v.ring.getSlot hash32 key = [] ↔ ∀ s, v.namespaces.lookup s ≠ some .active) ∧
    (∀ s, .add s ∈ calls → s ∈ v.getAllNamespaces) := by
  intro v
  have hnew : (newVirtualNamespace name).activeNames ⊆ {s | ∃ c ∈ calls, c.name = s} := by
    rw [activeNames_new]
    exact Set.empty_subset _
  obtain ⟨hlock, hsub⟩ := Lockstep.calls hsep calls (fun c hc => ⟨c, hc, rfl⟩) hnew
    (lockstep_new hash32 name)
  refine ⟨hlock.mem_getAllSlots, ?_, ?_, ?_⟩
  · intro key hkey
    rcases hlock.getSlot_eq_nil_or key with ⟨_, he⟩ | hmem
    · exact absurd he hkey
    · exact hmem
  · intro key
    constructor
    · intro he s hs
      rcases hlock.getSlot_eq_nil_or key with ⟨hempty, _⟩ | hmem
      · exact Set.notMem_empty s (hempty ▸ hs)
      · rw [he] at hmem
        obtain ⟨c, hc, hcn⟩ := hsub hmem
        exact hne c hc hcn
    · intro hall
      rcases hlock.getSlot_eq_nil_or key with ⟨_, he⟩ | hmem
      · exact he
      · exact absurd hmem (hall _)
  · intro s hs
    exact mem_getAllNamespaces_calls calls (.inr hs)

/-- The first call removes a name that was never added and panics on the empty ring. -/
theorem status_ring_lockstep_orders :
    let v := [NamespaceCall.remove orders1, .add orders1, .add orders2, .remove orders1].foldl
      (VirtualNamespace.call murmur3Sum32) (newVirtualNamespace (lit "orders"))
    (∀ s, s ∈ v.ring.getAllSlots ↔ v.namespaces.lookup s = some .active) ∧
      orders1 ∈ v.getAllNamespaces := by
  have hnames : {s | ∃ c ∈ [NamespaceCall.remove orders1, .add orders1, .add orders2,
      .remove orders1], c.name = s} ⊆ {orders1, orders2} := by
    rintro s ⟨c, hc, rfl⟩
    simp only [List.mem_cons, List.not_mem_nil, or_false] at hc
    rcases hc with rfl | rfl | rfl | rfl
    · exact .inl rfl
    · exact .inl rfl
    · exact .inr rfl
    · exact .inl rfl
  have h := status_ring_lockstep murmur3Sum32 (lit "orders") _ (by decide)
    (separate_orders.mono hnames)
  exact ⟨h.1, h.2.2.2 orders1 (by decide)⟩

end Tempura
