import Mathlib.Data.List.Infix
import Tempura.ConnPark
import Tempura.Handlers

namespace Tempura
open Base
set_option autoImplicit true

/-- The branches of the HTTP handler that read the body. -/
inductive Branch where
  | request (m : Method)
  | poll (kind : PollKind)
  deriving DecidableEq

namespace Branch

def rpc : Branch → GoString
  | .request .startWorkflowExecution => lit "StartWorkflowExecution"
  | .poll .workflow => lit "PollWorkflowTaskQueue"
  | .poll .activity => lit "PollActivityTaskQueue"
  | .request .respondWorkflowTaskCompleted => lit "RespondWorkflowTaskCompleted"
  | .request .respondActivityTaskCompleted => lit "RespondActivityTaskCompleted"
  | .request .requestCancelWorkflowExecution => lit "RequestCancelWorkflowExecution"
  | .request .getWorkflowExecutionHistory => lit "GetWorkflowExecutionHistory"
  | .request .signalWorkflowExecution => lit "SignalWorkflowExecution"
  | .request .queryWorkflow => lit "QueryWorkflow"
  | .request .respondQueryTaskCompleted => lit "RespondQueryTaskCompleted"

/-- The text a branch looks for in the path: the name of its RPC, or the end of it. -/
def needle : Branch → GoString
  | .request .requestCancelWorkflowExecution => lit "CancelWorkflowExecution"
  | branch => branch.rpc

def all : List Branch :=
  [.request .startWorkflowExecution, .poll .workflow, .poll .activity,
    .request .respondWorkflowTaskCompleted, .request .respondActivityTaskCompleted,
    .request .requestCancelWorkflowExecution, .request .getWorkflowExecutionHistory,
    .request .signalWorkflowExecution, .request .queryWorkflow,
    .request .respondQueryTaskCompleted]

theorem mem_all (branch : Branch) : branch ∈ all := by
  obtain m | kind := branch
  · cases m <;> decide
  · cases kind <;> decide

end Branch

def dispatch (path : GoString) : Option Branch :=
  Branch.all.find? (fun branch => branch.needle <:+: path)

/-- A request sent upstream, the answer of a poll, or status 500 with a text. -/
inductive Served where
  | upstream (r : Request) (bodyBytes : Bytes)
  | answer (resp : UpstreamResponse)
  | error (text : GoString)

section Serve
variable (lib : External)

def servePoll (kind : PollKind) (s : Proxy) (bodyBytes : Bytes) (arrivals : List PollResult) :
    Outcome Served × Proxy :=
  match kind.execute lib s bodyBytes arrivals with
  | (.ok resp, s) => (.ok (.answer resp), s)
  | (.err text, s) => (.ok (.error text), s)
  | (.panic, s) => (.panic, s)
  | (.hang, s) => (.hang, s)

/-- The HTTP handler; `arrivals` are the results its poll would receive. -/
def serve (defaultTarget : GoString) (s : Proxy) (path : GoString) (r : Request)
    (bodyBytes : Bytes) (arrivals : List PollResult) : Outcome Served × Proxy :=
  match dispatch path with
  | some (.request m) =>
    match m.forward lib defaultTarget s r bodyBytes with
    | (.ok (r, bodyBytes), s) => (.ok (.upstream r bodyBytes), s)
    | (.err text, s) => (.err text, s)
    | (.panic, s) => (.panic, s)
    | (.hang, s) => (.hang, s)
  | some (.poll kind) => servePoll lib kind s bodyBytes arrivals
  | none => (.ok (.upstream (director defaultTarget r) bodyBytes), s)

end Serve

theorem dispatch_eq_none_iff {path : GoString} :
    dispatch path = none ↔ ∀ branch : Branch, ¬ branch.needle <:+: path := by
  simp only [dispatch, List.find?_eq_none, decide_eq_true_eq, Branch.mem_all, true_implies]

def servicePath : GoString := lit "/temporal.api.workflowservice.v1.WorkflowService"

def methodPath (name : GoString) : GoString := servicePath ++ 47 :: name

theorem infix_methodPath_iff (branch : Branch) (name : GoString) :
    branch.needle <:+: methodPath name ↔ branch.needle <:+: name := by
  have hslash : Branch.all.all (fun branch => 47 ∉ branch.needle) = true := by decide
  have hservice : Branch.all.all (fun branch => ¬ branch.needle <:+: servicePath) = true := by
    decide
  rw [List.all_eq_true] at hslash hservice
  have hs := of_decide_eq_true (hslash branch branch.mem_all)
  have hp := of_decide_eq_true (hservice branch branch.mem_all)
  rw [methodPath, infix_append_cons_iff hs, or_iff_right hp]

theorem dispatch_rpc (branch : Branch) : dispatch (methodPath branch.rpc) = some branch := by
  have h : Branch.all.all (fun branch => dispatch (methodPath branch.rpc) = some branch) = true :=
    by decide +kernel
  rw [List.all_eq_true] at h
  exact of_decide_eq_true (h branch branch.mem_all)

theorem needle_infix_rpc (branch : Branch) : branch.needle <:+: branch.rpc := by
  have h := dispatch_rpc branch
  rw [dispatch] at h
  rw [← infix_methodPath_iff]
  have hf := List.find?_some h
  exact of_decide_eq_true hf

theorem dispatch_methodPath_eq_none_iff {name : GoString} :
    dispatch (methodPath name) = none ↔ ∀ branch : Branch, ¬ branch.needle <:+: name := by
  simp only [dispatch_eq_none_iff, infix_methodPath_iff]

theorem serve_of_dispatch_none {lib : External} {path : GoString} (h : dispatch path = none)
    (defaultTarget : GoString) (s : Proxy) (r : Request) (bodyBytes : Bytes)
    (arrivals : List PollResult) :
    serve lib defaultTarget s path r bodyBytes arrivals =
      (.ok (.upstream (director defaultTarget r) bodyBytes), s) := by
  rw [serve, h]

/-- Methods are taken for one of the ten exactly if they are, unless a name only contains its text.
-/
theorem dispatch_exact_iff (name : GoString) :
    ((∀ branch : Branch, dispatch (methodPath name) = some branch ↔ name = branch.rpc) ∧
      ((∀ branch : Branch, name ≠ branch.rpc) →
        ∀ lib defaultTarget s r bodyBytes arrivals,
          serve lib defaultTarget s (methodPath name) r bodyBytes arrivals =
            (.ok (.upstream (director defaultTarget r) bodyBytes), s))) ↔
    (∃ branch : Branch, name = branch.rpc) ∨ ∀ branch : Branch, ¬ branch.needle <:+: name := by
  constructor
  · rintro ⟨h, _⟩
    by_cases hn : ∃ branch : Branch, name = branch.rpc
    · exact .inl hn
    · right
      rw [← dispatch_methodPath_eq_none_iff, Option.eq_none_iff_forall_ne_some]
      intro branch hd
      exact hn ⟨branch, (h branch).mp hd⟩
  · rintro (⟨branch, rfl⟩ | hn)
    · refine ⟨fun branch' => ?_, fun hne => absurd rfl (hne branch)⟩
      rw [dispatch_rpc, Option.some.injEq]
      constructor
      · rintro rfl
        rfl
      · intro he
        have hb := dispatch_rpc branch'
        rw [← he, dispatch_rpc] at hb
        exact Option.some.inj hb
    · have hd := dispatch_methodPath_eq_none_iff.mpr hn
      refine ⟨fun branch => ?_, fun _ _ => serve_of_dispatch_none hd⟩
      rw [hd]
      constructor
      · nofun
      · rintro rfl
        exact absurd (needle_infix_rpc branch) (hn branch)

/-- A signal that may start its workflow is read as a start. -/
theorem signalWithStart_taken_for_start :
    dispatch (methodPath (lit "SignalWithStartWorkflowExecution")) =
        some (.request .startWorkflowExecution) ∧
      ∀ branch : Branch, lit "SignalWithStartWorkflowExecution" ≠ branch.rpc := by
  constructor
  · decide +kernel
  · rintro (m | kind)
    · cases m <;> decide
    · cases kind <;> decide

end Tempura
