import Tempura.Cordon

namespace Tempura
open Base
set_option autoImplicit true

/-- A proxy with its store, and how many `Delete` calls have removed an entry with each value. -/
structure Ledger where
  proxy : Proxy
  deleted : GoString → Nat

inductive LedgerEvent where
  | resolve (payload : Payload)
  | delete (workflowID : GoString)
  | registry (st : RegistryStep)
  deriving DecidableEq

namespace Ledger

def start : Ledger := ⟨⟨.empty, ∅, fun _ => 0⟩, fun _ => 0⟩

def next (hash32 : GoString → UInt32) (l : Ledger) : LedgerEvent → Ledger
  | .resolve payload => { l with proxy := (l.proxy.resolve hash32 payload).2 }
  | .delete workflowID =>
    { proxy := { l.proxy with db := Mappings.delete l.proxy.db workflowID }
      deleted := fun physNs =>
        l.deleted physNs + if l.proxy.db.lookup workflowID = some physNs then 1 else 0 }
  | .registry st =>
    { l with proxy := { l.proxy with registry := l.proxy.registry.step hash32 st } }

/-- Each allocation of a slot is in the store or was deleted from it, and rings are active. -/
structure Balanced (hash32 : GoString → UInt32) (l : Ledger) : Prop where
  allocated : ∀ physNs, physNs ≠ [] →
    l.proxy.totalWorkflowAllocated physNs =
      FiniteMap.countValue l.proxy.db physNs + l.deleted physNs
  active : RegistryActive hash32 l.proxy.registry

variable {hash32 : GoString → UInt32}

theorem balanced_start : start.Balanced hash32 where
  allocated _ _ := rfl
  active name v hv := by
    rw [start, VirtualNamespaceRegistry.resolve_empty] at hv
    cases hv

theorem Balanced.resolve {l : Ledger} (h : l.Balanced hash32) (payload : Payload) :
    (l.next hash32 (.resolve payload)).Balanced hash32 := by
  by_cases hs : Mappings.stored l.proxy.db payload.workflowID = []
  · cases hv : l.proxy.registry.resolve payload.virtualNamespace with
    | none =>
      rw [next, Proxy.resolve_unregistered hs hv]
      exact h
    | some v =>
      rw [next, Proxy.resolve_miss hs hv]
      refine ⟨?_, h.active⟩
      intro physNs hne
      -- an empty value may be overwritten, but no counter belongs to it
      have hmiss : l.proxy.db.lookup payload.workflowID ≠ some physNs := by
        intro hl
        exact hne ((Mappings.stored_of_lookup hl).symm.trans hs)
      have hput := FiniteMap.countValue_insert l.proxy.db payload.workflowID
        (v.ring.getSlot hash32 payload.workflowID) physNs
      rw [if_neg hmiss, Nat.add_zero] at hput
      simp only [Mappings.put]
      rw [h.allocated physNs hne, hput]
      omega
  · rw [next, Proxy.resolve_hit hs]
    exact h

theorem Balanced.delete {l : Ledger} (h : l.Balanced hash32) (workflowID : GoString) :
    (l.next hash32 (.delete workflowID)).Balanced hash32 := by
  refine ⟨?_, h.active⟩
  intro physNs hne
  have herase := FiniteMap.countValue_erase l.proxy.db workflowID physNs
  simp only [next, Mappings.delete]
  rw [h.allocated physNs hne]
  omega

theorem Balanced.next {l : Ledger} (h : l.Balanced hash32) (e : LedgerEvent) :
    (l.next hash32 e).Balanced hash32 := by
  cases e with
  | resolve payload => exact h.resolve payload
  | delete workflowID => exact h.delete workflowID
  | registry st => exact ⟨h.allocated, h.active.step st⟩

theorem balanced_run (hash32 : GoString → UInt32) (es : List LedgerEvent) :
    (es.foldl (Ledger.next hash32) start).Balanced hash32 := by
  induction es using List.reverseRecOn with
  | nil => exact balanced_start
  | append_singleton es e ih =>
    rw [List.foldl_append]
    exact ih.next e

end Ledger

theorem Proxy.resolve_miss_active {s : Proxy} (h : RegistryActive hash32 s.registry)
    (hr : (s.resolve hash32 payload).1 = (physNs, false)) (hne : physNs ≠ []) :
    ∃ v, s.registry.resolve payload.virtualNamespace = some v ∧
      v.namespaces.lookup physNs = some .active := by
  by_cases hs : Mappings.stored s.db payload.workflowID = []
  · cases hv : s.registry.resolve payload.virtualNamespace with
    | none =>
      rw [resolve_unregistered hs hv] at hr
      cases hr
      exact absurd rfl hne
    | some v =>
      rw [resolve_miss hs hv] at hr
      cases hr
      exact ⟨v, rfl, (h _ v hv).getSlot hne⟩
  · rw [resolve_hit hs] at hr
    cases hr

/-- The counter of a slot counts the workflow ids mapped to it and those deleted from it. -/
theorem allocation_accounting (hash32 : GoString → UInt32) (es : List LedgerEvent) :
    let l := es.foldl (Ledger.next hash32) Ledger.start
    (∀ physNs, physNs ≠ [] → l.proxy.totalWorkflowAllocated physNs =
      FiniteMap.countValue l.proxy.db physNs + l.deleted physNs) ∧
    ∀ payload physNs, (l.proxy.resolve hash32 payload).1 = (physNs, false) → physNs ≠ [] →
      ∃ v, l.proxy.registry.resolve payload.virtualNamespace = some v ∧
        v.namespaces.lookup physNs = some .active := by
  intro l
  have h := Ledger.balanced_run hash32 es
  exact ⟨h.allocated, fun payload physNs hr hne => Proxy.resolve_miss_active h.active hr hne⟩

def placedTwice : List LedgerEvent :=
  [.registry (.create (lit "orders")), .registry (.call (lit "orders") (.add orders1)),
    .resolve ⟨lit "w1", lit "orders"⟩, .resolve ⟨lit "w2", lit "orders"⟩,
    .resolve ⟨lit "w1", lit "orders"⟩, .delete (lit "w1")]

theorem allocation_accounting_orders :
    let l := placedTwice.foldl (Ledger.next murmur3Sum32) Ledger.start
    l.proxy.totalWorkflowAllocated orders1 = FiniteMap.countValue l.proxy.db orders1 + 1 := by
  intro l
  have hdeleted : l.deleted orders1 = 1 := by decide +kernel
  have h := (allocation_accounting murmur3Sum32 placedTwice).1 orders1 (by decide)
  rw [hdeleted] at h
  exact h

end Tempura
