import Tempura.Checkpoint
import Tempura.Grpc
import Tempura.TaskToken

namespace Tempura
open Base
set_option autoImplicit true

structure WorkflowExecution where
  workflowId : GoString
  rest : Bytes
  deriving DecidableEq

/-- A missing execution has the empty workflow id. -/
def getWorkflowId : Option WorkflowExecution → GoString
  | none => []
  | some execution => execution.workflowId

inductive CommandType where
  | completeWorkflowExecution
  | other (value : Nat)
  deriving DecidableEq

structure Command where
  commandType : CommandType
  rest : Bytes
  deriving DecidableEq

/-! The requests keep the fields the proxy reads or sets; `rest` stands for the others. -/

structure StartWorkflowExecutionRequest where
  ns : GoString
  workflowId : GoString
  rest : Bytes
  deriving DecidableEq

structure RespondWorkflowTaskCompletedRequest where
  ns : GoString
  taskToken : Bytes
  resourceId : GoString
  commands : List Command
  rest : Bytes
  deriving DecidableEq

structure RespondActivityTaskCompletedRequest where
  ns : GoString
  taskToken : Bytes
  resourceId : GoString
  rest : Bytes
  deriving DecidableEq

structure RequestCancelWorkflowExecutionRequest where
  ns : GoString
  workflowExecution : Option WorkflowExecution
  rest : Bytes
  deriving DecidableEq

structure SignalWorkflowExecutionRequest where
  ns : GoString
  workflowExecution : Option WorkflowExecution
  rest : Bytes
  deriving DecidableEq

structure QueryWorkflowRequest where
  ns : GoString
  execution : Option WorkflowExecution
  rest : Bytes
  deriving DecidableEq

structure RespondQueryTaskCompletedRequest where
  ns : GoString
  taskToken : Bytes
  rest : Bytes
  deriving DecidableEq

structure GetWorkflowExecutionHistoryRequest where
  ns : GoString
  execution : Option WorkflowExecution
  rest : Bytes
  deriving DecidableEq

/-- The workflow id of a token, or the fallback if the token has none or an empty one. -/
def tokenWorkflowID (token : Bytes) (fallback : GoString) : Outcome GoString :=
  match extractWorkflowIDFromTaskToken token with
  | .ok workflowID => .ok (if workflowID = [] then fallback else workflowID)
  | .err _ => .ok fallback
  | .panic => .panic
  | .hang => .hang

/-- The names in the error texts, the namespace field as a lawful lens, and the workflow id. -/
structure RequestKind (M : Type) where
  unmarshalName : GoString
  marshalName : GoString
  ns : M → GoString
  setNs : M → GoString → M
  workflowID : M → Outcome GoString
  ns_setNs : ∀ req n, ns (setNs req n) = n
  setNs_ns : ∀ req, setNs req (ns req) = req
  setNs_setNs : ∀ req n n', setNs (setNs req n) n' = setNs req n'

inductive Method where
  | startWorkflowExecution
  | respondWorkflowTaskCompleted
  | respondActivityTaskCompleted
  | requestCancelWorkflowExecution
  | signalWorkflowExecution
  | queryWorkflow
  | respondQueryTaskCompleted
  | getWorkflowExecutionHistory
  deriving DecidableEq

namespace Method

abbrev Message : Method → Type
  | .startWorkflowExecution => StartWorkflowExecutionRequest
  | .respondWorkflowTaskCompleted => RespondWorkflowTaskCompletedRequest
  | .respondActivityTaskCompleted => RespondActivityTaskCompletedRequest
  | .requestCancelWorkflowExecution => RequestCancelWorkflowExecutionRequest
  | .signalWorkflowExecution => SignalWorkflowExecutionRequest
  | .queryWorkflow => QueryWorkflowRequest
  | .respondQueryTaskCompleted => RespondQueryTaskCompletedRequest
  | .getWorkflowExecutionHistory => GetWorkflowExecutionHistoryRequest

/-- The cancel handler names another request type in its errors, and one text is misspelt. -/
def kind : (m : Method) → RequestKind m.Message
  | .startWorkflowExecution =>
    { unmarshalName := lit "StartWorkflowExecutionRequest"
      marshalName := lit "StartWorkflowExecutionRequest"
      ns := (·.ns)
      setNs := fun req n => { req with ns := n }
      workflowID := fun req => .ok req.workflowId
      ns_setNs := fun _ _ => rfl, setNs_ns := fun _ => rfl, setNs_setNs := fun _ _ _ => rfl }
  | .respondWorkflowTaskCompleted =>
    { unmarshalName := lit "RespondWorkflowTaskCompletedRequest"
      marshalName := lit "RespondWorkflowTaskCompletedRequest"
      ns := (·.ns)
      setNs := fun req n => { req with ns := n }
      workflowID := fun req => tokenWorkflowID req.taskToken req.resourceId
      ns_setNs := fun _ _ => rfl, setNs_ns := fun _ => rfl, setNs_setNs := fun _ _ _ => rfl }
  | .respondActivityTaskCompleted =>
    { unmarshalName := lit "RespondActivityTaskCompletedRequest"
      marshalName := lit "RespondActivityTaskCompletedRequest"
      ns := (·.ns)
      setNs := fun req n => { req with ns := n }
      workflowID := fun req => tokenWorkflowID req.taskToken req.resourceId
      ns_setNs := fun _ _ => rfl, setNs_ns := fun _ => rfl, setNs_setNs := fun _ _ _ => rfl }
  | .requestCancelWorkflowExecution =>
    { unmarshalName := lit "RespondActivityTaskCompletedRequest"
      marshalName := lit "RespondActivityTaskCompletedRequest"
      ns := (·.ns)
      setNs := fun req n => { req with ns := n }
      workflowID := fun req => .ok (getWorkflowId req.workflowExecution)
      ns_setNs := fun _ _ => rfl, setNs_ns := fun _ => rfl, setNs_setNs := fun _ _ _ => rfl }
  | .signalWorkflowExecution =>
    { unmarshalName := lit "SignalWorkflowExecutionRequest"
      marshalName := lit "SignalWorkflowExecutionRequest"
      ns := (·.ns)
      setNs := fun req n => { req with ns := n }
      workflowID := fun req => .ok (getWorkflowId req.workflowExecution)
      ns_setNs := fun _ _ => rfl, setNs_ns := fun _ => rfl, setNs_setNs := fun _ _ _ => rfl }
  | .queryWorkflow =>
    { unmarshalName := lit "QueryWorkflowRequest"
      marshalName := lit "QueryWorkflowRequest"
      ns := (·.ns)
      setNs := fun req n => { req with ns := n }
      workflowID := fun req => .ok (getWorkflowId req.execution)
      ns_setNs := fun _ _ => rfl, setNs_ns := fun _ => rfl, setNs_setNs := fun _ _ _ => rfl }
  | .respondQueryTaskCompleted =>
    { unmarshalName := lit "RespondQueryTaskCompletedRequest"
      marshalName := lit "RespondQueryTaskCompletedReqeust"
      ns := (·.ns)
      setNs := fun req n => { req with ns := n }
      -- no resource id to fall back to: a failed parse leaves the workflow id empty
      workflowID := fun req => tokenWorkflowID req.taskToken []
      ns_setNs := fun _ _ => rfl, setNs_ns := fun _ => rfl, setNs_setNs := fun _ _ _ => rfl }
  | .getWorkflowExecutionHistory =>
    { unmarshalName := lit "GetWorkflowExecutionHistoryRequest"
      marshalName := lit "GetWorkflowExecutionHistoryRequest"
      ns := (·.ns)
      setNs := fun req n => { req with ns := n }
      workflowID := fun req => .ok (getWorkflowId req.execution)
      ns_setNs := fun _ _ => rfl, setNs_ns := fun _ => rfl, setNs_setNs := fun _ _ _ => rfl }

end Method

inductive PollKind where
  | workflow
  | activity
  deriving DecidableEq

/-- The poll requests and responses of both kinds have the same fields here. -/
structure PollTaskQueueRequest where
  ns : GoString
  rest : Bytes
  deriving DecidableEq

structure PollTaskQueueResponse where
  taskToken : Bytes
  workflowExecution : Option WorkflowExecution
  rest : Bytes
  deriving DecidableEq

def PollKind.requestName : PollKind → GoString
  | .workflow => lit "PollWorkflowTaskQueueRequest"
  | .activity => lit "PollActivityTaskQueueRequest"

/-- `proto.Unmarshal` and `proto.Marshal` at one message type. -/
structure ProtoCodec (M : Type) where
  unmarshal : Bytes → Except GoString M
  marshal : M → Except GoString Bytes

/-- The libraries the proxy calls. -/
structure External where
  hash32 : GoString → UInt32
  gzip : Gzip
  json : SchemaCodec
  codec : (m : Method) → ProtoCodec m.Message
  pollRequest : PollKind → ProtoCodec PollTaskQueueRequest
  pollResponse : PollKind → ProtoCodec PollTaskQueueResponse

end Tempura
