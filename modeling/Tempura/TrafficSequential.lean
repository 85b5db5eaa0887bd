import Tempura.Linearization
import Tempura.TrafficProgress

namespace Tempura
open Base
set_option autoImplicit true

/-! What requests and polls do if nothing interrupts them, against the handlers of the sequential
model. -/

/-- The shared data are those of the proxy. -/
structure Shared.Represents (s : Shared) (p : Proxy) : Prop where
  heap : s.heap.Represents p.registry
  db : s.db = p.db
  total : s.totalWorkflowAllocated = p.totalWorkflowAllocated

section Sequential
variable {lib : External} {handsOut : GoString → GoString → GoString → Prop} {s s' : Shared}
  {p : Proxy}

theorem finishing_alone {n : Nat} {out : Outcome GoString}
    (h : (Traffic.finishing w slot n).Alone (Access.Does lib .never handsOut) s out s') :
    out = .ok slot ∧
      s' = { s with db := replay s.db (List.replicate n (.delete w : StoreWrite)) } := by
  induction n generalizing s with
  | zero => exact h
  | succ n ih =>
    obtain ⟨_, s₁, hdelete, hrest⟩ := h
    obtain rfl := hdelete.resolve_right fun hfail => hfail.1
    exact ih hrest

theorem chosen_alone {n : Nat} {out : Outcome GoString}
    (h : (Traffic.chosen w n slot).Alone (Access.Does lib .never handsOut) s out s') :
    out = .ok slot ∧
      s' = { s with
        totalWorkflowAllocated := fun label =>
          s.totalWorkflowAllocated label + if label = slot then 1 else 0
        db := replay (Mappings.put s.db w slot)
          (List.replicate n (.delete w : StoreWrite)) } := by
  obtain ⟨_, s₁, rfl, _, s₂, hput, hfinish⟩ := h
  obtain rfl := hput.resolve_right fun hfail => hfail.1
  exact finishing_alone hfinish

theorem Incoming.routine_alone {c : Incoming} (hw : c.workflowID = .ok w) (hrep : s.Represents p)
    (h : c.routine.Alone (Access.Does lib .never handsOut) s out s') :
    out = (c.route lib.hash32 p).1 ∧ s'.Represents (c.route lib.hash32 p).2 := by
  rw [Incoming.routine_eq hw] at h
  rw [c.route_eq lib.hash32 hw]
  obtain ⟨physNs, s₁, ⟨rfl, hval⟩, hrest⟩ := h
  obtain rfl := hval.resolve_right fun hfail => hfail.1
  rw [hrep.db] at hrest
  dsimp only at hrest
  by_cases hne : Mappings.stored p.db w ≠ []
  · rw [if_pos hne] at hrest
    obtain ⟨rfl, rfl⟩ := finishing_alone hrest
    rw [Proxy.resolve_hit hne]
    exact ⟨rfl, hrep.heap, by rw [hrep.db], hrep.total⟩
  · rw [if_neg hne] at hrest
    have hmiss := not_not.mp hne
    obtain ⟨ref, s₂, ⟨rfl, rfl⟩, hrest⟩ := hrest
    cases hf : s₂.heap.find c.ns with
    | none =>
      rw [hf] at hrest
      obtain ⟨rfl, rfl⟩ := finishing_alone hrest
      rw [Proxy.resolve_unregistered hmiss (hrep.heap.find_none hf)]
      exact ⟨rfl, hrep.heap, by rw [hrep.db], hrep.total⟩
    | some ref =>
      rw [hf] at hrest
      obtain ⟨slot, s₃, ⟨rfl, v, hv, rfl⟩, hrest⟩ := hrest
      obtain ⟨rfl, rfl⟩ := chosen_alone hrest
      obtain ⟨v', hv', hresolve⟩ := hrep.heap.find_some hf
      cases hv.symm.trans hv'
      rw [Proxy.resolve_miss hmiss hresolve]
      exact ⟨rfl, hrep.heap, by rw [hrep.db], by rw [hrep.total]⟩

theorem RequestKind.route_of_failed {M : Type} {k : RequestKind M} {req : M}
    {out : Outcome GoString} (hw : k.workflowID req = out) (hout : ∀ w, out ≠ .ok w)
    (hash32 : GoString → UInt32) (p : Proxy) : k.route hash32 p req = (out, p) := by
  rw [route, hw]
  cases out with
  | ok w => exact absurd rfl (hout w)
  | err e => rfl
  | panic => rfl
  | hang => rfl

theorem Method.route_of_failed {m : Method} {req : m.Message} {out : Outcome GoString}
    (hw : m.kind.workflowID req = out) (hout : ∀ w, out ≠ .ok w)
    (hash32 : GoString → UInt32) (p : Proxy) : m.route hash32 p req = (out, p) := by
  cases m with
  | respondWorkflowTaskCompleted =>
    have htoken : tokenWorkflowID req.taskToken req.resourceId = out := hw
    rw [route, routeRespondWorkflowTaskCompleted, htoken]
    cases out with
    | ok w => exact absurd rfl (hout w)
    | err e => rfl
    | panic => rfl
    | hang => rfl
  | startWorkflowExecution => exact RequestKind.route_of_failed hw hout hash32 p
  | respondActivityTaskCompleted => exact RequestKind.route_of_failed hw hout hash32 p
  | requestCancelWorkflowExecution => exact RequestKind.route_of_failed hw hout hash32 p
  | signalWorkflowExecution => exact RequestKind.route_of_failed hw hout hash32 p
  | queryWorkflow => exact RequestKind.route_of_failed hw hout hash32 p
  | respondQueryTaskCompleted => exact RequestKind.route_of_failed hw hout hash32 p
  | getWorkflowExecutionHistory => exact RequestKind.route_of_failed hw hout hash32 p

/-- A request that nothing interrupts does what its handler does in the sequential model. -/
theorem request_alone {m : Method} {req : m.Message} (hrep : s.Represents p)
    (h : (Traffic.request m req).Alone (Access.Does lib .never handsOut) s out s') :
    out = (m.route lib.hash32 p req).1 ∧ s'.Represents (m.route lib.hash32 p req).2 := by
  by_cases hok : ∃ w, m.kind.workflowID req = .ok w
  · obtain ⟨w, hw⟩ := hok
    exact Incoming.routine_alone (c := ⟨m, req⟩) hw hrep h
  · have hfailed : out = m.kind.workflowID req ∧ s' = s := by
      rw [Traffic.request] at h
      cases hw : m.kind.workflowID req with
      | ok w => exact absurd ⟨w, hw⟩ hok
      | err e =>
        rw [hw] at h
        exact h
      | panic =>
        rw [hw] at h
        exact h
      | hang =>
        rw [hw] at h
        exact h
    obtain ⟨rfl, rfl⟩ := hfailed
    rw [Method.route_of_failed rfl (fun w hw => hok ⟨w, hw⟩)]
    exact ⟨rfl, hrep⟩

theorem cache_alone {mapping : Option (GoString × GoString)} (hrep : s.Represents p)
    (h : (Traffic.cache mapping).Alone (Access.Does lib .never handsOut) s out s') :
    s'.Represents (p.cache mapping) := by
  cases mapping with
  | none =>
    obtain ⟨-, rfl⟩ := h
    exact hrep
  | some pair =>
    obtain ⟨_, s₁, hput, -, rfl⟩ := h
    obtain rfl := hput.resolve_right fun hfail => hfail.1
    exact ⟨hrep.heap, by rw [hrep.db]; rfl, hrep.total⟩

theorem Arrivals.perm {slots slots' : List GoString} (h : Arrivals slots arrivals)
    (hperm : slots.Perm slots') : Arrivals slots' arrivals where
  tags := h.tags.trans hperm.subperm
  parses := h.parses
  complete hall := (h.complete fun slot hslot => hall slot (hperm.mem_iff.mp hslot)).trans
    hperm.length_eq

theorem poll_alone (hrep : s.Represents p)
    (h : (Traffic.poll lib kind virtual).Alone (Access.Does lib .never handsOut) s out s') :
    ∃ arrivals, (∀ v, p.registry.resolve virtual = some v → v.getAllNamespaces ≠ [] →
        Arrivals v.getAllNamespaces arrivals) ∧
      out = (fanOut lib kind p virtual arrivals).1 ∧
      s'.Represents (fanOut lib kind p virtual arrivals).2 := by
  obtain ⟨ref, s₁, ⟨rfl, rfl⟩, hrest⟩ := h
  cases hf : s₁.heap.find virtual with
  | none =>
    rw [hf] at hrest
    obtain ⟨rfl, rfl⟩ := hrest
    have hnone := hrep.heap.find_none hf
    refine ⟨[], fun v hv => ?_, ?_⟩
    · rw [hnone] at hv
      cases hv
    · rw [fanOut, hnone]
      exact ⟨rfl, hrep⟩
  | some ref =>
    rw [hf] at hrest
    obtain ⟨v, hv, hresolve⟩ := hrep.heap.find_some hf
    obtain ⟨slots, s₂, ⟨rfl, v', hv', hperm⟩, hslots⟩ := Program.alone_perform.mp hrest
    cases hv.symm.trans hv'
    have hlength := hperm.length_eq
    by_cases hempty : slots.length = 0
    · rw [if_pos hempty] at hslots
      obtain ⟨rfl, rfl⟩ := hslots
      have hnil : v.getAllNamespaces = [] := List.length_eq_zero_iff.mp (hlength.symm.trans hempty)
      refine ⟨[], fun v' hv' hne => ?_, ?_⟩
      · cases hresolve.symm.trans hv'
        exact absurd hnil hne
      · simp only [fanOut, hresolve, hnil, List.length_nil, if_true]
        exact ⟨trivial, hrep⟩
    · rw [if_neg hempty] at hslots
      obtain ⟨arrivals, s₃, ⟨rfl, harr, -⟩, hloop⟩ := Program.alone_perform.mp hslots
      obtain ⟨_, s₄, hcache, hanswer⟩ := Program.alone_bind.mp hloop
      have hrep' := cache_alone hrep hcache
      have hall : (slots.all fun slot => (parsePhysicalNamespace slot).isSome) =
          v.getAllNamespaces.all fun slot => (parsePhysicalNamespace slot).isSome :=
        hperm.all_eq
      refine ⟨arrivals, fun v' hv' _ => ?_, ?_⟩
      · cases hresolve.symm.trans hv'
        exact harr.perm hperm
      · simp only [fanOut, hresolve, if_neg (hlength ▸ hempty)]
        rw [hall] at hanswer
        split at hanswer
        next hparse =>
          obtain ⟨rfl, rfl⟩ := hanswer
          rw [if_pos hparse]
          exact ⟨rfl, hrep'⟩
        next hparse =>
          obtain ⟨rfl, rfl⟩ := hanswer
          rw [if_neg hparse]
          exact ⟨rfl, hrep'⟩

/-- What the handler of the sequential model does with a request or a poll. -/
def TrafficCall.Handles (lib : External) : TrafficCall → Proxy → TrafficAnswer → Proxy → Prop
  | .request m req, p, answer, p' =>
    answer = .routed (m.route lib.hash32 p req).1 ∧ p' = (m.route lib.hash32 p req).2
  | .poll kind virtual, p, answer, p' => ∃ arrivals,
      (∀ v, p.registry.resolve virtual = some v → v.getAllNamespaces ≠ [] →
        Arrivals v.getAllNamespaces arrivals) ∧
      answer = .polled (fanOut lib kind p virtual arrivals).1 ∧
      p' = (fanOut lib kind p virtual arrivals).2

theorem TrafficCall.routine_alone {call : TrafficCall} (hrep : s.Represents p)
    (h : (call.routine lib).Alone (Access.Does lib .never handsOut) s answer s') :
    ∃ p', call.Handles lib p answer p' ∧ s'.Represents p' := by
  cases call with
  | request m req =>
    obtain ⟨out, s₁, hrequest, rfl, rfl⟩ := Program.alone_bind.mp h
    obtain ⟨rfl, hrep'⟩ := request_alone hrep hrequest
    exact ⟨_, ⟨rfl, rfl⟩, hrep'⟩
  | poll kind virtual =>
    obtain ⟨out, s₁, hpoll, rfl, rfl⟩ := Program.alone_bind.mp h
    obtain ⟨arrivals, harr, rfl, hrep'⟩ := poll_alone hrep hpoll
    exact ⟨_, ⟨arrivals, harr, rfl, rfl⟩, hrep'⟩

end Sequential

end Tempura
