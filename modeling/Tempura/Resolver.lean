import Tempura.Base.WriteLog
import Tempura.Checkpoint

namespace Tempura
open Base
set_option autoImplicit true

structure Payload where
  workflowID : GoString
  virtualNamespace : GoString
  deriving DecidableEq

inductive Reply where
  | value (val : GoString)
  | absent
  | failed (text : GoString)
  deriving DecidableEq

namespace Mappings

/-- A missing key and a failed read look the same to the caller. -/
def get : Reply → GoString
  | .value val => val
  | .absent => []
  | .failed _ => []

def put (db : Redis) (key value : GoString) : Redis := db.insert key value

def delete (db : Redis) (key : GoString) : Redis := db.erase key

theorem put_lookup (db : Redis) (key value key' : GoString) :
    (put db key value).lookup key' = if key' = key then some value else db.lookup key' :=
  FiniteMap.lookup_insert_ite db key value key'

theorem delete_lookup (db : Redis) (key key' : GoString) :
    (delete db key).lookup key' = if key' = key then none else db.lookup key' :=
  FiniteMap.lookup_erase_ite db key key'

def reply (db : Redis) (key : GoString) : Reply :=
  match db.lookup key with
  | some val => .value val
  | none => .absent

def stored (db : Redis) (key : GoString) : GoString := get (reply db key)

theorem stored_eq (db : Redis) (key : GoString) : stored db key = (db.lookup key).getD [] := by
  rw [stored, reply]
  cases db.lookup key <;> rfl

theorem stored_of_lookup (h : db.lookup key = some val) : stored db key = val := by
  rw [stored_eq, h]
  rfl

theorem lookup_of_stored (h : stored db key = val) (hne : val ≠ []) : db.lookup key = some val := by
  rw [stored_eq] at h
  cases hl : db.lookup key with
  | none =>
    rw [hl] at h
    exact absurd h.symm hne
  | some val' =>
    rw [hl] at h
    exact congrArg some h

end Mappings

/-- State of one proxy process together with the store it shares with its checkpoints. -/
structure Proxy where
  registry : VirtualNamespaceRegistry
  db : Redis
  totalWorkflowAllocated : GoString → Nat

namespace Proxy
section Resolve
variable (hash32 : GoString → UInt32)

/-- `Resolver.Resolve` when the store answers its read with `reply`. -/
def resolveWith (s : Proxy) (payload : Payload) (reply : Reply) : (GoString × Bool) × Proxy :=
  let key := payload.workflowID
  let physNs := Mappings.get reply
  if physNs ≠ [] then ((physNs, true), s)
  else
    match s.registry.resolve payload.virtualNamespace with
    | none => (([], false), s)
    | some virtualNamespace =>
      let physNs := virtualNamespace.ring.getSlot hash32 key
      ((physNs, false),
        { s with
          totalWorkflowAllocated := fun label =>
            s.totalWorkflowAllocated label + if label = physNs then 1 else 0
          db := Mappings.put s.db key physNs })

def resolve (s : Proxy) (payload : Payload) : (GoString × Bool) × Proxy :=
  s.resolveWith hash32 payload (Mappings.reply s.db payload.workflowID)

end Resolve
end Proxy

def slotOf (hash32 : GoString → UInt32) (payload : Payload) (reg : VirtualNamespaceRegistry) :
    GoString :=
  match reg.resolve payload.virtualNamespace with
  | none => []
  | some v => v.ring.getSlot hash32 payload.workflowID

theorem slotOf_of_resolve {hash32 : GoString → UInt32} {payload : Payload}
    {reg : VirtualNamespaceRegistry} (hv : reg.resolve payload.virtualNamespace = some v) :
    slotOf hash32 payload reg = v.ring.getSlot hash32 payload.workflowID := by
  rw [slotOf, hv]

/-- A request or poll of a virtual namespace, or the checkpointing routine. -/
inductive Origin where
  | tenant (virtual : GoString)
  | checkpoint
  deriving DecidableEq

abbrev StoreWrite := Write Origin GoString GoString

namespace Proxy
variable {hash32 : GoString → UInt32}

theorem resolve_hit {s : Proxy} {payload : Payload}
    (h : Mappings.stored s.db payload.workflowID ≠ []) :
    s.resolve hash32 payload = ((Mappings.stored s.db payload.workflowID, true), s) := by
  rw [resolve, resolveWith]
  exact if_pos h

theorem resolve_unregistered {s : Proxy} {payload : Payload}
    (h : Mappings.stored s.db payload.workflowID = [])
    (hv : s.registry.resolve payload.virtualNamespace = none) :
    s.resolve hash32 payload = (([], false), s) := by
  rw [resolve, resolveWith]
  simp only [hv]
  exact if_neg (not_not_intro h)

theorem resolve_miss {s : Proxy} {payload : Payload} {v : VirtualNamespace}
    (h : Mappings.stored s.db payload.workflowID = [])
    (hv : s.registry.resolve payload.virtualNamespace = some v) :
    s.resolve hash32 payload =
      ((v.ring.getSlot hash32 payload.workflowID, false),
        { s with
          totalWorkflowAllocated := fun label =>
            s.totalWorkflowAllocated label +
              if label = v.ring.getSlot hash32 payload.workflowID then 1 else 0
          db := Mappings.put s.db payload.workflowID
            (v.ring.getSlot hash32 payload.workflowID) }) := by
  rw [resolve, resolveWith]
  simp only [hv]
  exact if_neg (not_not_intro h)

theorem resolve_answer (s : Proxy) (payload : Payload) :
    (s.resolve hash32 payload).1.1 =
      if Mappings.stored s.db payload.workflowID ≠ [] then
        Mappings.stored s.db payload.workflowID
      else slotOf hash32 payload s.registry := by
  by_cases h : Mappings.stored s.db payload.workflowID ≠ []
  · rw [resolve_hit h, if_pos h]
  · rw [if_neg h, slotOf]
    cases hv : s.registry.resolve payload.virtualNamespace with
    | none => rw [resolve_unregistered (not_not.mp h) hv]
    | some v => rw [resolve_miss (not_not.mp h) hv]

theorem resolve_eq_iff {s : Proxy} {payload : Payload} (hne : physNs ≠ []) :
    (s.resolve hash32 payload).1.1 = physNs ↔
      Mappings.stored s.db payload.workflowID = physNs ∨
        Mappings.stored s.db payload.workflowID = [] ∧
          slotOf hash32 payload s.registry = physNs := by
  rw [resolve_answer]
  by_cases h : Mappings.stored s.db payload.workflowID = []
  · rw [if_neg (not_not_intro h), h, or_iff_right hne.symm, and_iff_right rfl]
  · rw [if_pos h, or_iff_left (fun hs => h hs.1)]

/-- The writes of a resolution: one on a miss in a registered virtual namespace. -/
def resolveWrites (hash32 : GoString → UInt32) (s : Proxy) (payload : Payload) :
    List StoreWrite :=
  if Mappings.stored s.db payload.workflowID ≠ [] then []
  else
    match s.registry.resolve payload.virtualNamespace with
    | none => []
    | some v =>
      [.put (.tenant payload.virtualNamespace) payload.workflowID
        (v.ring.getSlot hash32 payload.workflowID)]

theorem resolve_proxy (s : Proxy) (payload : Payload) :
    ∃ total, (s.resolve hash32 payload).2 =
      { s with
        totalWorkflowAllocated := total
        db := replay s.db (s.resolveWrites hash32 payload) } := by
  by_cases h : Mappings.stored s.db payload.workflowID ≠ []
  · rw [resolve_hit h, resolveWrites, if_pos h]
    exact ⟨_, rfl⟩
  · rw [resolveWrites, if_neg h]
    cases hv : s.registry.resolve payload.virtualNamespace with
    | none =>
      rw [resolve_unregistered (not_not.mp h) hv]
      exact ⟨_, rfl⟩
    | some v =>
      rw [resolve_miss (not_not.mp h) hv]
      exact ⟨_, rfl⟩

theorem resolve_db (s : Proxy) (payload : Payload) :
    (s.resolve hash32 payload).2.db = replay s.db (s.resolveWrites hash32 payload) := by
  obtain ⟨total, he⟩ := @resolve_proxy hash32 s payload
  rw [he]

@[simp] theorem resolve_registry (s : Proxy) (payload : Payload) :
    (s.resolve hash32 payload).2.registry = s.registry := by
  obtain ⟨total, he⟩ := @resolve_proxy hash32 s payload
  rw [he]

theorem mem_resolveWrites {s : Proxy} {payload : Payload} {w : StoreWrite}
    (h : w ∈ s.resolveWrites hash32 payload) :
    ∃ v, s.registry.resolve payload.virtualNamespace = some v ∧
      Mappings.stored s.db payload.workflowID = [] ∧
      w = .put (.tenant payload.virtualNamespace) payload.workflowID
        (v.ring.getSlot hash32 payload.workflowID) := by
  rw [resolveWrites] at h
  split at h
  · cases h
  · next hs =>
    cases hv : s.registry.resolve payload.virtualNamespace with
    | none =>
      rw [hv] at h
      cases h
    | some v =>
      rw [hv, List.mem_singleton] at h
      exact ⟨v, rfl, not_not.mp hs, h⟩

theorem lookup_resolve {s : Proxy} {payload : Payload} {physNs : GoString}
    (h : (s.resolve hash32 payload).1.1 = physNs) (hne : physNs ≠ []) :
    (s.resolve hash32 payload).2.db.lookup payload.workflowID = some physNs := by
  by_cases hs : Mappings.stored s.db payload.workflowID ≠ []
  · rw [resolve_hit hs] at h ⊢
    exact Mappings.lookup_of_stored h hne
  · cases hv : s.registry.resolve payload.virtualNamespace with
    | none =>
      rw [resolve_unregistered (not_not.mp hs) hv] at h
      exact absurd h.symm hne
    | some v =>
      rw [resolve_miss (not_not.mp hs) hv] at h ⊢
      rw [← h]
      exact AList.lookup_insert _

end Proxy

end Tempura
