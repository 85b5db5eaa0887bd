import Tempura.Routing

namespace Tempura
open Base
set_option autoImplicit true

/-- `proto.Unmarshal` undoes `proto.Marshal`, unknown fields included. -/
def ProtoCodec.Undoes (codec : ProtoCodec M) : Prop :=
  ∀ msg p, codec.marshal msg = .ok p → codec.unmarshal p = .ok msg

/-- The body is one uncompressed frame that decodes to `req`, for the host `a`. -/
structure Rewritten (codec : ProtoCodec M) (a : GoString) (req : M) (r : Request) (body : Bytes) :
    Prop where
  url : r.urlHost = a
  host : r.host = a
  message : ∃ payload, body = grpcFrame payload ∧ codec.unmarshal payload = .ok req ∧
    (payload.length < 2 ^ 32 → IsFrame body payload)

theorem Method.handle_ok {lib : External} {m : Method} {s : Proxy} {r : Request}
    (h : (m.handle lib s r bodyBytes).result = .ok body) :
    ∃ req w, m.decode lib bodyBytes = some req ∧ m.kind.workflowID req = .ok w ∧
      rewriteRequest m.kind (lib.codec m) r req (s.resolve lib.hash32 ⟨w, m.kind.ns req⟩).1.1 =
        (.ok body, (m.handle lib s r bodyBytes).request) := by
  cases hd : m.decode lib bodyBytes with
  | none =>
    obtain ⟨e, he⟩ := handle_of_no_request hd s r
    rw [he] at h
    cases h
  | some req =>
    have hres := handle_result hd s r
    cases hw : m.kind.workflowID req with
    | ok w =>
      have hroute := @route_fst lib.hash32 m req s
      rw [hw] at hroute
      rw [handle_of_route r hd hroute] at h ⊢
      exact ⟨req, w, rfl, hw, Prod.ext h rfl⟩
    | _ =>
      rw [hw, h] at hres
      cases hres

theorem rewriteRequest_ok {k : RequestKind M} {codec : ProtoCodec M} (hcodec : codec.Undoes)
    (h : rewriteRequest k codec r req physNs = (.ok body, r')) :
    ∃ ns, parsePhysicalNamespace physNs = some ns ∧
      Rewritten codec ns.cluster.address (k.setNs req ns.name) r' body := by
  cases hp : parsePhysicalNamespace physNs with
  | none =>
    rw [rewriteRequest, hp] at h
    cases h
  | some ns =>
    cases hm : codec.marshal (k.setNs req ns.name) with
    | error e =>
      rw [rewriteRequest, hp] at h
      simp only [hm] at h
      cases h
    | ok payload =>
      rw [rewriteRequest_of_parse r hp hm] at h
      cases h
      exact ⟨ns, rfl, rfl, rfl, payload, rfl, hcodec _ _ hm, isFrame_grpcFrame⟩

theorem pollCluster_ok {codec : ProtoCodec PollTaskQueueRequest} (hcodec : codec.Undoes)
    (h : pollCluster codec originalReq reqStruct physNs = .ok (r, body)) :
    ∃ ns, parsePhysicalNamespace physNs = some ns ∧
      Rewritten codec ns.cluster.address { reqStruct with ns := ns.name } r body := by
  rw [pollCluster] at h
  cases hp : parsePhysicalNamespace physNs with
  | none =>
    rw [hp] at h
    cases h
  | some ns =>
    cases hm : codec.marshal { reqStruct with ns := ns.name } with
    | error e =>
      simp only [hp, hm] at h
      cases h
    | ok payload =>
      simp only [hp, hm] at h
      cases h
      exact ⟨ns, rfl, rfl, rfl, payload, rfl, hcodec _ _ hm, isFrame_grpcFrame⟩

/-- Whatever is sent carries the message that came in, with the namespace of a slot, to the cluster
of that slot. -/
theorem rewriting_changes_namespace (lib : External) (hcodec : ∀ m, (lib.codec m).Undoes)
    (hpoll : ∀ kind, (lib.pollRequest kind).Undoes) :
    (∀ (m : Method) (s : Proxy) (r : Request) (bodyBytes body : Bytes),
      (m.handle lib s r bodyBytes).result = .ok body →
      ∃ req w ns, m.decode lib bodyBytes = some req ∧ m.kind.workflowID req = .ok w ∧
        parsePhysicalNamespace (s.resolve lib.hash32 ⟨w, m.kind.ns req⟩).1.1 = some ns ∧
        Rewritten (lib.codec m) ns.cluster.address (m.kind.setNs req ns.name)
          (m.handle lib s r bodyBytes).request body) ∧
    ∀ (kind : PollKind) (originalReq r : Request) (reqStruct : PollTaskQueueRequest)
      (physNs : GoString) (body : Bytes),
      kind.send lib originalReq reqStruct physNs = .ok (r, body) →
      ∃ ns, parsePhysicalNamespace physNs = some ns ∧
        Rewritten (lib.pollRequest kind) ns.cluster.address { reqStruct with ns := ns.name } r
          body := by
  constructor
  · intro m s r bodyBytes body h
    obtain ⟨req, w, hd, hw, hrew⟩ := Method.handle_ok h
    obtain ⟨ns, hp, hns⟩ := rewriteRequest_ok (hcodec m) hrew
    exact ⟨req, w, ns, hd, hw, hp, hns⟩
  · intro kind originalReq r reqStruct physNs body h
    rw [kind.send_eq] at h
    exact pollCluster_ok (hpoll kind) h

def ProtoCodec.checked [DecidableEq M] (codec : ProtoCodec M) : ProtoCodec M where
  unmarshal := codec.unmarshal
  marshal msg :=
    match codec.marshal msg with
    | .error e => .error e
    | .ok p =>
      match codec.unmarshal p with
      | .error e => .error e
      | .ok msg' => if msg' = msg then .ok p else .error (lit "proto: message not supported")

theorem ProtoCodec.checked_undoes [DecidableEq M] (codec : ProtoCodec M) :
    codec.checked.Undoes := by
  intro msg p h
  simp only [checked] at h ⊢
  cases hm : codec.marshal msg with
  | error e => simp [hm] at h
  | ok q =>
    cases hu : codec.unmarshal q with
    | error e => simp [hm, hu] at h
    | ok msg' =>
      simp only [hm, hu] at h
      split at h
      next heq =>
        cases h
        rw [hu, heq]
      next => cases h

instance decidableEqMessage (m : Method) : DecidableEq m.Message := by
  cases m <;> infer_instance

def checkedExternal : External :=
  { sampleExternal with
    codec := fun m => (sampleCodec m).checked
    pollRequest := fun kind => (sampleExternal.pollRequest kind).checked }

def mappedW1 : Proxy := ⟨.empty, Mappings.put ∅ (lit "w1") orders1, fun _ => 0⟩

theorem rewriting_changes_namespace_w1 :
    ∃ req w ns, Method.startWorkflowExecution.decode checkedExternal
        (sampleBody .startWorkflowExecution (lit "shop")) = some req ∧
      Method.startWorkflowExecution.kind.workflowID req = .ok w ∧
      parsePhysicalNamespace (mappedW1.resolve murmur3Sum32 ⟨w, req.ns⟩).1.1 = some ns ∧
      Rewritten (checkedExternal.codec .startWorkflowExecution) ns.cluster.address
        (Method.startWorkflowExecution.kind.setNs req ns.name)
        (Method.startWorkflowExecution.handle checkedExternal mappedW1 sampleHttp
          (sampleBody .startWorkflowExecution (lit "shop"))).request
        (sampleBody .startWorkflowExecution (lit "orders")) :=
  (rewriting_changes_namespace checkedExternal (fun m => (sampleCodec m).checked_undoes)
    (fun kind => (sampleExternal.pollRequest kind).checked_undoes)).1 .startWorkflowExecution
    mappedW1 sampleHttp _ _ (by decide +kernel)

end Tempura
