import Tempura.Messages
import Tempura.Resolver

namespace Tempura
open Base
set_option autoImplicit true

/-- What a handler leaves: the new body or how it failed, the request as changed, the state. -/
structure Handled where
  result : Outcome Bytes
  request : Request
  proxy : Proxy

section Rewrite
variable (k : RequestKind M) (codec : ProtoCodec M)

/-- The tail of every handler. The host stays changed when the encoding fails. -/
def rewriteRequest (r : Request) (req : M) (physNs : GoString) : Outcome Bytes × Request :=
  match parsePhysicalNamespace physNs with
  | none => (.panic, r)
  | some ns =>
    let req := k.setNs req ns.name
    let r := { r with urlHost := ns.cluster.address, host := ns.cluster.address }
    match codec.marshal req with
    | .error e => (.err (lit "failed to marshal updated " ++ k.marshalName ++ lit ": " ++ e), r)
    | .ok newPbPayload =>
      let (body, r) := encodeGRPCPayload newPbPayload r
      (.ok body, r)

def RequestKind.route (hash32 : GoString → UInt32) (s : Proxy) (req : M) :
    Outcome GoString × Proxy :=
  match k.workflowID req with
  | .ok workflowID =>
    let ((physNs, _), s) := s.resolve hash32 ⟨workflowID, k.ns req⟩
    (.ok physNs, s)
  | .err e => (.err e, s)
  | .panic => (.panic, s)
  | .hang => (.hang, s)

/-- The shape the handlers share: decode, route, rewrite. -/
def handleWith (gzip : Gzip) (route : Proxy → M → Outcome GoString × Proxy) (s : Proxy)
    (r : Request) (bodyBytes : Bytes) : Handled :=
  match extractPayload gzip bodyBytes with
  | .error e => ⟨.err e, r, s⟩
  | .ok (pbPayload, _) =>
    match codec.unmarshal pbPayload with
    | .error e => ⟨.err (lit "failed to unmarshal " ++ k.unmarshalName ++ lit ": " ++ e), r, s⟩
    | .ok req =>
      match route s req with
      | (.ok physNs, s) =>
        let (result, r) := rewriteRequest k codec r req physNs
        ⟨result, r, s⟩
      | (.err e, s) => ⟨.err e, r, s⟩
      | (.panic, s) => ⟨.panic, r, s⟩
      | (.hang, s) => ⟨.hang, r, s⟩

end Rewrite

/-- A completed workflow leaves the store before the answer is known to have been sent. -/
def routeRespondWorkflowTaskCompleted (hash32 : GoString → UInt32) (s : Proxy)
    (req : RespondWorkflowTaskCompletedRequest) : Outcome GoString × Proxy :=
  match tokenWorkflowID req.taskToken req.resourceId with
  | .ok workflowID =>
    let ((physNs, _), s) := s.resolve hash32 ⟨workflowID, req.ns⟩
    let db := req.commands.foldl (fun db command =>
      if command.commandType = .completeWorkflowExecution then Mappings.delete db workflowID
      else db) s.db
    (.ok physNs, { s with db := db })
  | .err e => (.err e, s)
  | .panic => (.panic, s)
  | .hang => (.hang, s)

section Handlers
variable (lib : External)

def handleStartWorkflowExecution : Proxy → Request → Bytes → Handled :=
  let k := Method.startWorkflowExecution.kind
  handleWith k (lib.codec .startWorkflowExecution) lib.gzip (k.route lib.hash32)

def handleRespondWorkflowTaskCompleted : Proxy → Request → Bytes → Handled :=
  handleWith Method.respondWorkflowTaskCompleted.kind (lib.codec .respondWorkflowTaskCompleted)
    lib.gzip (routeRespondWorkflowTaskCompleted lib.hash32)

def handleRespondActivityTaskCompleted : Proxy → Request → Bytes → Handled :=
  let k := Method.respondActivityTaskCompleted.kind
  handleWith k (lib.codec .respondActivityTaskCompleted) lib.gzip (k.route lib.hash32)

def handleCancelWorkflow : Proxy → Request → Bytes → Handled :=
  let k := Method.requestCancelWorkflowExecution.kind
  handleWith k (lib.codec .requestCancelWorkflowExecution) lib.gzip (k.route lib.hash32)

def handleSignalWorkflow : Proxy → Request → Bytes → Handled :=
  let k := Method.signalWorkflowExecution.kind
  handleWith k (lib.codec .signalWorkflowExecution) lib.gzip (k.route lib.hash32)

def handleQueryWorkflow : Proxy → Request → Bytes → Handled :=
  let k := Method.queryWorkflow.kind
  handleWith k (lib.codec .queryWorkflow) lib.gzip (k.route lib.hash32)

def handleRespondQueryTaskCompleted : Proxy → Request → Bytes → Handled :=
  let k := Method.respondQueryTaskCompleted.kind
  handleWith k (lib.codec .respondQueryTaskCompleted) lib.gzip (k.route lib.hash32)

def handleGetWorkflowExecutionHistory : Proxy → Request → Bytes → Handled :=
  let k := Method.getWorkflowExecutionHistory.kind
  handleWith k (lib.codec .getWorkflowExecutionHistory) lib.gzip (k.route lib.hash32)

def Method.handle : Method → Proxy → Request → Bytes → Handled
  | .startWorkflowExecution => handleStartWorkflowExecution lib
  | .respondWorkflowTaskCompleted => handleRespondWorkflowTaskCompleted lib
  | .respondActivityTaskCompleted => handleRespondActivityTaskCompleted lib
  | .requestCancelWorkflowExecution => handleCancelWorkflow lib
  | .signalWorkflowExecution => handleSignalWorkflow lib
  | .queryWorkflow => handleQueryWorkflow lib
  | .respondQueryTaskCompleted => handleRespondQueryTaskCompleted lib
  | .getWorkflowExecutionHistory => handleGetWorkflowExecutionHistory lib

/-- What is sent upstream. A handler error is only logged: the body then goes out as it came. -/
def Method.forward (m : Method) (defaultTarget : GoString) (s : Proxy) (r : Request)
    (bodyBytes : Bytes) : Outcome (Request × Bytes) × Proxy :=
  let h := m.handle lib s r bodyBytes
  match h.result with
  | .ok newBodyBytes => (.ok (director defaultTarget h.request, newBodyBytes), h.proxy)
  | .err _ => (.ok (director defaultTarget h.request, bodyBytes), h.proxy)
  | .panic => (.panic, h.proxy)
  | .hang => (.hang, h.proxy)

end Handlers

namespace Method

def route (hash32 : GoString → UInt32) : (m : Method) → Proxy → m.Message →
    Outcome GoString × Proxy
  | .startWorkflowExecution => startWorkflowExecution.kind.route hash32
  | .respondWorkflowTaskCompleted => routeRespondWorkflowTaskCompleted hash32
  | .respondActivityTaskCompleted => respondActivityTaskCompleted.kind.route hash32
  | .requestCancelWorkflowExecution => requestCancelWorkflowExecution.kind.route hash32
  | .signalWorkflowExecution => signalWorkflowExecution.kind.route hash32
  | .queryWorkflow => queryWorkflow.kind.route hash32
  | .respondQueryTaskCompleted => respondQueryTaskCompleted.kind.route hash32
  | .getWorkflowExecutionHistory => getWorkflowExecutionHistory.kind.route hash32

theorem handle_eq (lib : External) (m : Method) :
    m.handle lib = handleWith m.kind (lib.codec m) lib.gzip (m.route lib.hash32) := by
  cases m <;> rfl

def completions : (m : Method) → m.Message → Nat
  | .respondWorkflowTaskCompleted, req =>
    req.commands.countP (fun command => command.commandType = .completeWorkflowExecution)
  | .startWorkflowExecution, _ => 0
  | .respondActivityTaskCompleted, _ => 0
  | .requestCancelWorkflowExecution, _ => 0
  | .signalWorkflowExecution, _ => 0
  | .queryWorkflow, _ => 0
  | .respondQueryTaskCompleted, _ => 0
  | .getWorkflowExecutionHistory, _ => 0

def writes (hash32 : GoString → UInt32) (s : Proxy) (m : Method) (req : m.Message) :
    List StoreWrite :=
  match m.kind.workflowID req with
  | .ok workflowID =>
    s.resolveWrites hash32 ⟨workflowID, m.kind.ns req⟩ ++
      List.replicate (m.completions req) (.delete workflowID)
  | .err _ => []
  | .panic => []
  | .hang => []

end Method

theorem RequestKind.route_of_ok {k : RequestKind M} {req : M} {w : GoString}
    (h : k.workflowID req = .ok w) (hash32 : GoString → UInt32) (s : Proxy) :
    k.route hash32 s req =
      (.ok (s.resolve hash32 ⟨w, k.ns req⟩).1.1, (s.resolve hash32 ⟨w, k.ns req⟩).2) := by
  rw [route, h]

theorem RequestKind.route_of_not_ok {k : RequestKind M} {req : M}
    (h : ∀ w, k.workflowID req ≠ .ok w) (hash32 : GoString → UInt32) (s : Proxy) :
    (k.route hash32 s req).2 = s ∧ ∀ physNs, (k.route hash32 s req).1 ≠ .ok physNs := by
  rw [route]
  cases hw : k.workflowID req with
  | ok w => exact absurd hw (h w)
  | err e => exact ⟨rfl, nofun⟩
  | panic => exact ⟨rfl, nofun⟩
  | hang => exact ⟨rfl, nofun⟩

theorem foldl_delete (w : GoString) (commands : List Command) (db : Redis) :
    commands.foldl (fun db command =>
      if command.commandType = .completeWorkflowExecution then Mappings.delete db w
      else db) db =
    replay db (List.replicate
      (commands.countP (fun command => command.commandType = .completeWorkflowExecution))
      (.delete w : StoreWrite)) := by
  induction commands generalizing db with
  | nil => rfl
  | cons command commands ih =>
    rw [List.foldl_cons, ih, List.countP_cons]
    by_cases h : command.commandType = .completeWorkflowExecution
    · simp only [h, if_true, decide_true]
      rfl
    · simp only [h, if_false, decide_false, Bool.false_eq_true, Nat.add_zero]

namespace Method
variable {hash32 : GoString → UInt32}

theorem route_of_ok {m : Method} {req : m.Message} {w : GoString}
    (h : m.kind.workflowID req = .ok w) (s : Proxy) :
    m.route hash32 s req =
      (.ok (s.resolve hash32 ⟨w, m.kind.ns req⟩).1.1,
        { (s.resolve hash32 ⟨w, m.kind.ns req⟩).2 with
          db := replay (s.resolve hash32 ⟨w, m.kind.ns req⟩).2.db
            (List.replicate (m.completions req) (.delete w : StoreWrite)) }) := by
  cases m with
  | respondWorkflowTaskCompleted =>
    have hw : tokenWorkflowID req.taskToken req.resourceId = .ok w := h
    rw [route, routeRespondWorkflowTaskCompleted, hw]
    simp only [foldl_delete]
    rfl
  | startWorkflowExecution => exact RequestKind.route_of_ok h hash32 s
  | respondActivityTaskCompleted => exact RequestKind.route_of_ok h hash32 s
  | requestCancelWorkflowExecution => exact RequestKind.route_of_ok h hash32 s
  | signalWorkflowExecution => exact RequestKind.route_of_ok h hash32 s
  | queryWorkflow => exact RequestKind.route_of_ok h hash32 s
  | respondQueryTaskCompleted => exact RequestKind.route_of_ok h hash32 s
  | getWorkflowExecutionHistory => exact RequestKind.route_of_ok h hash32 s

theorem route_eq_iff {m : Method} {req : m.Message} {s : Proxy} {w physNs : GoString}
    (h : m.kind.workflowID req = .ok w) (hne : physNs ≠ []) :
    (m.route hash32 s req).1 = .ok physNs ↔
      Mappings.stored s.db w = physNs ∨
        Mappings.stored s.db w = [] ∧ slotOf hash32 ⟨w, m.kind.ns req⟩ s.registry = physNs := by
  rw [route_of_ok h, Outcome.ok.injEq]
  exact Proxy.resolve_eq_iff hne

theorem route_miss_iff {m : Method} {req : m.Message} {s : Proxy} {w physNs : GoString}
    (h : m.kind.workflowID req = .ok w) (hmiss : Mappings.stored s.db w = [])
    (hne : physNs ≠ []) :
    (m.route hash32 s req).1 = .ok physNs ↔
      slotOf hash32 ⟨w, m.kind.ns req⟩ s.registry = physNs := by
  rw [route_eq_iff h hne, hmiss, or_iff_right hne.symm, and_iff_right rfl]

theorem route_of_not_ok {m : Method} {req : m.Message}
    (h : ∀ w, m.kind.workflowID req ≠ .ok w) (s : Proxy) :
    (m.route hash32 s req).2 = s ∧ ∀ physNs, (m.route hash32 s req).1 ≠ .ok physNs := by
  cases m with
  | respondWorkflowTaskCompleted =>
    have hw : ∀ w, tokenWorkflowID req.taskToken req.resourceId ≠ .ok w := h
    rw [route, routeRespondWorkflowTaskCompleted]
    cases ht : tokenWorkflowID req.taskToken req.resourceId with
    | ok w => exact absurd ht (hw w)
    | err e => exact ⟨rfl, nofun⟩
    | panic => exact ⟨rfl, nofun⟩
    | hang => exact ⟨rfl, nofun⟩
  | startWorkflowExecution => exact RequestKind.route_of_not_ok h hash32 s
  | respondActivityTaskCompleted => exact RequestKind.route_of_not_ok h hash32 s
  | requestCancelWorkflowExecution => exact RequestKind.route_of_not_ok h hash32 s
  | signalWorkflowExecution => exact RequestKind.route_of_not_ok h hash32 s
  | queryWorkflow => exact RequestKind.route_of_not_ok h hash32 s
  | respondQueryTaskCompleted => exact RequestKind.route_of_not_ok h hash32 s
  | getWorkflowExecutionHistory => exact RequestKind.route_of_not_ok h hash32 s

theorem route_db (m : Method) (req : m.Message) (s : Proxy) :
    (m.route hash32 s req).2.db = replay s.db (m.writes hash32 s req) := by
  by_cases h : ∃ w, m.kind.workflowID req = .ok w
  · obtain ⟨w, hw⟩ := h
    rw [route_of_ok hw, writes, hw, replay_append, ← Proxy.resolve_db]
  · have hw : m.writes hash32 s req = [] := by
      rw [writes]
      cases hk : m.kind.workflowID req with
      | ok w => exact absurd ⟨w, hk⟩ h
      | err e => rfl
      | panic => rfl
      | hang => rfl
    rw [(route_of_not_ok (not_exists.mp h) s).1, hw, replay_nil]

@[simp] theorem route_registry (m : Method) (req : m.Message) (s : Proxy) :
    (m.route hash32 s req).2.registry = s.registry := by
  by_cases h : ∃ w, m.kind.workflowID req = .ok w
  · obtain ⟨w, hw⟩ := h
    rw [route_of_ok hw]
    exact Proxy.resolve_registry s _
  · rw [(route_of_not_ok (not_exists.mp h) s).1]

theorem route_fst (m : Method) (req : m.Message) (s : Proxy) :
    (m.route hash32 s req).1 =
      match m.kind.workflowID req with
      | .ok w => .ok (s.resolve hash32 ⟨w, m.kind.ns req⟩).1.1
      | .err e => .err e
      | .panic => .panic
      | .hang => .hang := by
  have hroute : (m.kind.route hash32 s req).1 =
      match m.kind.workflowID req with
      | .ok w => .ok (s.resolve hash32 ⟨w, m.kind.ns req⟩).1.1
      | .err e => .err e
      | .panic => .panic
      | .hang => .hang := by
    rw [RequestKind.route]
    cases m.kind.workflowID req <;> rfl
  cases m with
  | respondWorkflowTaskCompleted =>
    rw [← hroute, route, routeRespondWorkflowTaskCompleted, RequestKind.route]
    simp only [kind]
    cases tokenWorkflowID req.taskToken req.resourceId <;> rfl
  | startWorkflowExecution => exact hroute
  | respondActivityTaskCompleted => exact hroute
  | requestCancelWorkflowExecution => exact hroute
  | signalWorkflowExecution => exact hroute
  | queryWorkflow => exact hroute
  | respondQueryTaskCompleted => exact hroute
  | getWorkflowExecutionHistory => exact hroute

def decode (lib : External) (m : Method) (bodyBytes : Bytes) : Option m.Message :=
  match extractPayload lib.gzip bodyBytes with
  | .error _ => none
  | .ok (pbPayload, _) =>
    match (lib.codec m).unmarshal pbPayload with
    | .error _ => none
    | .ok req => some req

theorem handle_of_no_request {lib : External} {m : Method} {bodyBytes : Bytes}
    (hd : m.decode lib bodyBytes = none) (s : Proxy) (r : Request) :
    ∃ e, (m.handle lib s r bodyBytes).result = .err e := by
  rw [decode] at hd
  rw [handle_eq, handleWith]
  cases hx : extractPayload lib.gzip bodyBytes with
  | error e => exact ⟨_, rfl⟩
  | ok p =>
    simp only [hx] at hd ⊢
    cases hu : (lib.codec m).unmarshal p.1 with
    | error e => exact ⟨_, rfl⟩
    | ok req => simp [hu] at hd

theorem handle_of_decode {lib : External} {m : Method} {bodyBytes : Bytes} {req : m.Message}
    (hd : m.decode lib bodyBytes = some req) (s : Proxy) (r : Request) :
    m.handle lib s r bodyBytes =
      match m.route lib.hash32 s req with
      | (.ok physNs, s) =>
        ⟨(rewriteRequest m.kind (lib.codec m) r req physNs).1,
          (rewriteRequest m.kind (lib.codec m) r req physNs).2, s⟩
      | (.err e, s) => ⟨.err e, r, s⟩
      | (.panic, s) => ⟨.panic, r, s⟩
      | (.hang, s) => ⟨.hang, r, s⟩ := by
  rw [decode] at hd
  rw [handle_eq, handleWith]
  cases hx : extractPayload lib.gzip bodyBytes with
  | error e => simp [hx] at hd
  | ok p =>
    simp only [hx] at hd ⊢
    cases hu : (lib.codec m).unmarshal p.1 with
    | error e => simp [hu] at hd
    | ok req' =>
      simp only [hu, Option.some.injEq] at hd ⊢
      subst req'
      rfl

theorem handle_result {lib : External} {m : Method} {bodyBytes : Bytes} {req : m.Message}
    (hd : m.decode lib bodyBytes = some req) (s : Proxy) (r : Request) :
    (m.handle lib s r bodyBytes).result =
      match m.kind.workflowID req with
      | .ok w => (rewriteRequest m.kind (lib.codec m) r req
          (s.resolve lib.hash32 ⟨w, m.kind.ns req⟩).1.1).1
      | .err e => .err e
      | .panic => .panic
      | .hang => .hang := by
  have hroute := @route_fst lib.hash32 m req s
  rw [handle_of_decode hd]
  generalize m.route lib.hash32 s req = out at hroute ⊢
  obtain ⟨outcome, s'⟩ := out
  subst hroute
  cases m.kind.workflowID req <;> rfl

theorem handle_of_route {lib : External} {m : Method} {s : Proxy} {bodyBytes : Bytes}
    {req : m.Message} {physNs : GoString} (r : Request) (hd : m.decode lib bodyBytes = some req)
    (hr : (m.route lib.hash32 s req).1 = .ok physNs) :
    m.handle lib s r bodyBytes =
      ⟨(rewriteRequest m.kind (lib.codec m) r req physNs).1,
        (rewriteRequest m.kind (lib.codec m) r req physNs).2, (m.route lib.hash32 s req).2⟩ := by
  rw [handle_of_decode hd]
  generalize m.route lib.hash32 s req = out at hr ⊢
  obtain ⟨outcome, s'⟩ := out
  cases hr
  rfl

end Method

theorem rewriteRequest_of_parse {k : RequestKind M} {codec : ProtoCodec M} {req : M}
    {physNs : GoString} {ns : Namespace} {pbPayload : Bytes} (r : Request)
    (hp : parsePhysicalNamespace physNs = some ns)
    (hm : codec.marshal (k.setNs req ns.name) = .ok pbPayload) :
    rewriteRequest k codec r req physNs =
      (.ok (grpcFrame pbPayload),
        { r with
          urlHost := ns.cluster.address
          host := ns.cluster.address
          contentLength := -1
          contentLengthHeader := none }) := by
  rw [rewriteRequest, hp]
  simp only [hm]
  rfl

/-- The host is set before the request is encoded, so it is set even if that fails. -/
theorem rewriteRequest_hosts {k : RequestKind M} {codec : ProtoCodec M} {req : M}
    {physNs : GoString} {ns : Namespace} (r : Request)
    (hp : parsePhysicalNamespace physNs = some ns) :
    (rewriteRequest k codec r req physNs).2.urlHost = ns.cluster.address ∧
      (rewriteRequest k codec r req physNs).2.host = ns.cluster.address := by
  rw [rewriteRequest, hp]
  simp only
  cases codec.marshal (k.setNs req ns.name) with
  | error e => exact ⟨rfl, rfl⟩
  | ok p => exact ⟨rfl, rfl⟩

/-- The handler sends the request to the cluster of `ns`, under the name in `ns`. -/
structure Method.GoesTo (lib : External) (m : Method) (s : Proxy) (r : Request)
    (bodyBytes : Bytes) (req : m.Message) (ns : Namespace) : Prop where
  url : (m.handle lib s r bodyBytes).request.urlHost = ns.cluster.address
  host : (m.handle lib s r bodyBytes).request.host = ns.cluster.address
  body : ∀ p, (lib.codec m).marshal (m.kind.setNs req ns.name) = .ok p →
    (m.handle lib s r bodyBytes).result = .ok (grpcFrame p)

theorem Method.goesTo_of_route {lib : External} {m : Method} {s : Proxy} {bodyBytes : Bytes}
    {req : m.Message} {ns : Namespace} (r : Request) (hd : m.decode lib bodyBytes = some req)
    (hr : (m.route lib.hash32 s req).1 = .ok physNs)
    (hp : parsePhysicalNamespace physNs = some ns) : m.GoesTo lib s r bodyBytes req ns := by
  have hh := handle_of_route r hd hr
  obtain ⟨hurl, hhost⟩ := @rewriteRequest_hosts _ m.kind (lib.codec m) req _ _ r hp
  refine ⟨by rw [hh, hurl], by rw [hh, hhost], ?_⟩
  intro p hm
  rw [hh, rewriteRequest_of_parse r hp hm]

end Tempura
