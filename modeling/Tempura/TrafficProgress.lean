import Tempura.Tenants

namespace Tempura
open Base
set_option autoImplicit true

/-! What a request or a poll needs of the shared data to come to its end. -/

theorem RegistryHeap.Valid.move {c : AdminCall} {heap heap' : RegistryHeap} (hv : heap.Valid)
    (h : c.Move hash32 heap st heap' st') : heap'.Valid := by
  obtain rfl | ⟨name, rfl⟩ | ⟨ref, v, call, -, -, rfl⟩ := h.heap_calls
  · exact hv
  · exact hv.register name _
  · exact hv.set ref _

/-- The task token of the request makes the parser loop forever. -/
def TrafficCall.Hangs : TrafficCall → Prop
  | .request m req => m.kind.workflowID req = .hang
  | .poll _ _ => False

/-- The call has come to its end, and is not in an endless loop. -/
def TrafficAnswer.Ended : TrafficAnswer → Prop
  | .routed out => out ≠ .hang
  | .polled out => out ≠ .hang

section Progress
variable {lib : External} {faults : StoreFaults} {handsOut : GoString → GoString → GoString → Prop}

theorem TrafficCall.Hangs.routine_eq {call : TrafficCall} (h : call.Hangs) :
    call.routine lib = .ret (.routed .hang) := by
  cases call with
  | request m req =>
    have hw : m.kind.workflowID req = .hang := h
    rw [routine, Traffic.request, hw]
    rfl
  | poll kind virtual => exact h.elim

end Progress

end Tempura
