import Tempura.Base.Murmur3
import Tempura.ConnPark
import Tempura.Handlers

namespace Tempura
open Base
set_option autoImplicit true

/-- The library encodes `req` and reads it back. -/
def ProtoCodec.RoundTrips (codec : ProtoCodec M) (req : M) : Prop :=
  ∃ p, codec.marshal req = .ok p ∧ codec.unmarshal p = .ok req

/-- An outgoing request that carries the message `req` to the host `a`. -/
structure AimedAt (codec : ProtoCodec M) (a : GoString) (req : M) (r : Request) (body : Bytes) :
    Prop where
  url : r.urlHost = a
  host : r.host = a
  message : ∃ p, body = grpcFrame p ∧ codec.unmarshal p = .ok req

/-- The handler of `m` sends the request it decoded to host `a`, with its namespace set to `n`. -/
def Method.Reaches (lib : External) (m : Method) (s : Proxy) (r : Request) (bodyBytes : Bytes)
    (req : m.Message) (n a : GoString) : Prop :=
  ∃ body, (m.handle lib s r bodyBytes).result = .ok body ∧
    AimedAt (lib.codec m) a (m.kind.setNs req n) (m.handle lib s r bodyBytes).request body

def PollKind.send (lib : External) :
    PollKind → Request → PollTaskQueueRequest → GoString → Outcome (Request × Bytes)
  | .workflow => pollSingleCluster lib
  | .activity => pollSingleActivityCluster lib

theorem PollKind.send_eq (lib : External) (kind : PollKind) :
    kind.send lib = pollCluster (lib.pollRequest kind) := by
  cases kind <;> rfl

theorem grpcFrame_inj (h : grpcFrame p = grpcFrame q) : p = q := by
  have hd := congrArg (List.drop 5) h
  exact hd

theorem AimedAt.ns_eq {k : RequestKind M} {codec : ProtoCodec M} {req : M} {p : Bytes}
    (h : AimedAt codec a (k.setNs req n) r (grpcFrame p))
    (hu : codec.unmarshal p = .ok (k.setNs req n')) : n' = n := by
  obtain ⟨q, hq, hq'⟩ := h.message
  rw [← grpcFrame_inj hq, hu, Except.ok.injEq] at hq'
  rw [← k.ns_setNs req n', hq', k.ns_setNs]

/-- A rewritten request reaches exactly the cluster and the namespace its slot parses to. -/
theorem rewriteRequest_aimed_iff {k : RequestKind M} {codec : ProtoCodec M} {req : M}
    {ns : Namespace} (r : Request) (hp : parsePhysicalNamespace physNs = some ns)
    (hc : codec.RoundTrips (k.setNs req ns.name)) :
    (∃ body, (rewriteRequest k codec r req physNs).1 = .ok body ∧
      AimedAt codec a (k.setNs req n) (rewriteRequest k codec r req physNs).2 body) ↔
    ns = ⟨⟨a⟩, n⟩ := by
  obtain ⟨p, hm, hu⟩ := hc
  rw [rewriteRequest_of_parse r hp hm]
  constructor
  · intro ⟨body, hbody, haim⟩
    cases hbody
    have hn := haim.ns_eq hu
    have ha : ns.cluster.address = a := haim.url
    rw [← hn, ← ha]
  · intro hns
    subst ns
    exact ⟨_, rfl, rfl, rfl, p, rfl, hu⟩

theorem pollCluster_aimed_iff {codec : ProtoCodec PollTaskQueueRequest} {ns : Namespace}
    {reqStruct : PollTaskQueueRequest} (originalReq : Request)
    (hp : parsePhysicalNamespace physNs = some ns)
    (hc : codec.RoundTrips { reqStruct with ns := ns.name }) :
    (∃ r body, pollCluster codec originalReq reqStruct physNs = .ok (r, body) ∧
      AimedAt codec a { reqStruct with ns := n } r body) ↔ ns = ⟨⟨a⟩, n⟩ := by
  obtain ⟨p, hm, hu⟩ := hc
  rw [pollCluster, hp]
  simp only [hm]
  constructor
  · intro ⟨r, body, hsent, haim⟩
    cases hsent
    obtain ⟨q, hq, hq'⟩ := haim.message
    rw [← grpcFrame_inj hq, hu] at hq'
    simp only [Except.ok.injEq, PollTaskQueueRequest.mk.injEq, and_true] at hq'
    have ha : ns.cluster.address = a := haim.url
    rw [← hq', ← ha]
  · intro hns
    subst ns
    exact ⟨_, _, rfl, rfl, rfl, p, rfl, hu⟩

theorem eq_iff_separable (h : parsePhysicalNamespace (buildPhysicalNamespace n a) = some ns) :
    ns = ⟨⟨a⟩, n⟩ ↔ Separable n a := by
  rw [← parse_build_iff, h, Option.some.injEq]

theorem Separable.build_inj (h : Separable n a) (h' : Separable n' a')
    (he : buildPhysicalNamespace n' a' = buildPhysicalNamespace n a) : n' = n ∧ a' = a := by
  have hp := parse_build h
  rw [← he, parse_build h'] at hp
  cases hp
  exact ⟨rfl, rfl⟩

theorem Method.reaches_iff {lib : External} {m : Method} {s : Proxy} {bodyBytes : Bytes}
    {req : m.Message} {ns : Namespace} (r : Request) (hd : m.decode lib bodyBytes = some req)
    (hr : (m.route lib.hash32 s req).1 = .ok physNs)
    (hp : parsePhysicalNamespace physNs = some ns)
    (hc : (lib.codec m).RoundTrips (m.kind.setNs req ns.name)) :
    m.Reaches lib s r bodyBytes req n a ↔ ns = ⟨⟨a⟩, n⟩ := by
  rw [Reaches, handle_of_route r hd hr]
  exact rewriteRequest_aimed_iff r hp hc

theorem Method.Reaches.forward {lib : External} {m : Method} {req : m.Message}
    (h : m.Reaches lib s r bodyBytes req n a) (ha : a ≠ []) (defaultTarget : GoString) :
    ∃ r' body, (m.forward lib defaultTarget s r bodyBytes).1 = .ok (r', body) ∧
      AimedAt (lib.codec m) a (m.kind.setNs req n) r' body := by
  obtain ⟨body, hbody, haim⟩ := h
  refine ⟨director defaultTarget (m.handle lib s r bodyBytes).request, body, ?_, ?_⟩
  · rw [Method.forward]
    simp only [hbody]
  · have hurl : (m.handle lib s r bodyBytes).request.urlHost ≠ [] := haim.url.trans_ne ha
    rw [director]
    simp only [if_neg hurl]
    exact ⟨haim.url, haim.host, haim.message⟩

/-- A request for the slot of `(n, a)` is sent to host `a` under the name `n` exactly when the pair
is separable. -/
theorem requests_reach_cluster_iff (lib : External) (n a : GoString) (ha : a ≠ []) :
    (∀ (m : Method) (s : Proxy) (r : Request) (bodyBytes : Bytes) (req : m.Message),
      m.decode lib bodyBytes = some req →
      (m.route lib.hash32 s req).1 = .ok (buildPhysicalNamespace n a) →
      (∀ ns, parsePhysicalNamespace (buildPhysicalNamespace n a) = some ns →
        (lib.codec m).RoundTrips (m.kind.setNs req ns.name)) →
      (m.Reaches lib s r bodyBytes req n a ↔ Separable n a) ∧
        (Separable n a → ∀ defaultTarget, ∃ r' body,
          (m.forward lib defaultTarget s r bodyBytes).1 = .ok (r', body) ∧
          AimedAt (lib.codec m) a (m.kind.setNs req n) r' body)) ∧
    (∀ (kind : PollKind) (originalReq : Request) (reqStruct : PollTaskQueueRequest),
      (∀ ns, parsePhysicalNamespace (buildPhysicalNamespace n a) = some ns →
        (lib.pollRequest kind).RoundTrips { reqStruct with ns := ns.name }) →
      ((∃ r body, kind.send lib originalReq reqStruct (buildPhysicalNamespace n a) =
          .ok (r, body) ∧
        AimedAt (lib.pollRequest kind) a { reqStruct with ns := n } r body) ↔ Separable n a)) ∧
    (parsePhysicalNamespace (buildPhysicalNamespace n a) = some ⟨⟨a⟩, n⟩ ↔ Separable n a) ∧
    (∀ n' a', Separable n a → Separable n' a' →
      buildPhysicalNamespace n' a' = buildPhysicalNamespace n a → n' = n ∧ a' = a) := by
  obtain ⟨ns, hp⟩ := Option.isSome_iff_exists.mp (parse_build_isSome n a)
  refine ⟨?_, ?_, parse_build_iff n a, fun n' a' h h' he => h.build_inj h' he⟩
  · intro m s r bodyBytes req hd hr hc
    have hiff := (Method.reaches_iff (n := n) (a := a) r hd hr hp (hc ns hp)).trans
      (eq_iff_separable hp)
    exact ⟨hiff, fun hsep => (hiff.mpr hsep).forward ha⟩
  · intro kind originalReq reqStruct hc
    rw [kind.send_eq]
    exact (pollCluster_aimed_iff originalReq hp (hc ns hp)).trans (eq_iff_separable hp)

/-- The wire form of a string or bytes field of at most 127 bytes. -/
def stringField (tag : UInt8) (value : Bytes) : Bytes := tag :: value.length.toUInt8 :: value

theorem encodes_stringField {num : Nat} {tag : UInt8} {text : Bytes} (hnum : 1 ≤ num)
    (htag : num * 8 + 2 = tag.toNat) (hlt : tag.toNat < 128) (hlen : text.length < 128)
    (h : Encodes fs rest) :
    Encodes (⟨num, .bytes text⟩ :: fs) (stringField tag text ++ rest) := by
  have hvarint : Varint [tag] (num * 8 + 2) := htag ▸ .last tag hlt
  have hbyte : text.length.toUInt8.toNat = text.length := by
    simp only [Nat.toUInt8_eq, UInt8.toNat_ofNat']
    omega
  have hvlen : Varint [text.length.toUInt8] text.length := by
    have hlast := Varint.last text.length.toUInt8 (by omega)
    rwa [hbyte] at hlast
  have hone (b : UInt8) : [b].length ≤ 10 := by simp
  have hbody : (WireValue.bytes text).Encodes ([text.length.toUInt8] ++ text) :=
    .bytes hvlen (hone _)
  have hnum' : num < 2 ^ 29 := by omega
  exact @Encodes.cons ⟨num, .bytes text⟩ fs [tag] _ rest hnum hnum' hvarint (hone _) hbody h

/-- The wire format of messages that agree but for one field. -/
def templateCodec (field : M → Bytes) (fill : Bytes → M) (before : Bytes) (tag : UInt8)
    (after : Bytes) : ProtoCodec M where
  unmarshal p :=
    let value := (p.drop (before.length + 2)).take (p.length - (before.length + 2 + after.length))
    if p = before ++ stringField tag value ++ after then .ok (fill value)
    else .error (lit "proto: cannot parse invalid wire-format data")
  marshal msg := .ok (before ++ stringField tag (field msg) ++ after)

theorem templateCodec_roundTrips {field : M → Bytes} {fill : Bytes → M} (before : Bytes)
    (tag : UInt8) (after : Bytes) (hfield : field (fill value) = value) :
    (templateCodec field fill before tag after).RoundTrips (fill value) := by
  refine ⟨before ++ stringField tag value ++ after, by simp only [templateCodec, hfield], ?_⟩
  have hdrop : (before ++ stringField tag value ++ after).drop (before.length + 2) =
      value ++ after := by
    rw [List.append_assoc, List.drop_append, List.drop_of_length_le (by omega)]
    simp [stringField]
  have hlen : (before ++ stringField tag value ++ after).length -
      (before.length + 2 + after.length) = value.length := by
    simp only [stringField, List.length_append, List.length_cons]
    omega
  simp only [templateCodec, hdrop, hlen, List.take_left, if_true]

def sampleToken : Bytes := stringField 18 (lit "w1")

def sampleExecution : Bytes := stringField 10 (lit "w1")

def sampleRequest : (m : Method) → m.Message
  | .startWorkflowExecution => ⟨[], lit "w1", []⟩
  | .respondWorkflowTaskCompleted => ⟨[], sampleToken, [], [], []⟩
  | .respondActivityTaskCompleted => ⟨[], sampleToken, [], []⟩
  | .requestCancelWorkflowExecution => ⟨[], some ⟨lit "w1", []⟩, []⟩
  | .signalWorkflowExecution => ⟨[], some ⟨lit "w1", []⟩, []⟩
  | .queryWorkflow => ⟨[], some ⟨lit "w1", []⟩, []⟩
  | .respondQueryTaskCompleted => ⟨[], sampleToken, []⟩
  | .getWorkflowExecutionHistory => ⟨[], some ⟨lit "w1", []⟩, []⟩

/-- The encodings of `sampleRequest` up to the namespace and after it, with the tag between. -/
def sampleLayout : Method → Bytes × UInt8 × Bytes
  | .startWorkflowExecution => ([], 10, stringField 18 (lit "w1"))
  | .respondWorkflowTaskCompleted => (stringField 10 sampleToken, 74, [])
  | .respondActivityTaskCompleted => (stringField 10 sampleToken, 34, [])
  | .requestCancelWorkflowExecution => ([], 10, stringField 18 sampleExecution)
  | .signalWorkflowExecution => ([], 10, stringField 18 sampleExecution)
  | .queryWorkflow => ([], 10, stringField 18 sampleExecution)
  | .respondQueryTaskCompleted => (stringField 10 sampleToken, 50, [])
  | .getWorkflowExecutionHistory => ([], 10, stringField 18 sampleExecution)

def sampleCodec (m : Method) : ProtoCodec m.Message :=
  templateCodec m.kind.ns (m.kind.setNs (sampleRequest m)) (sampleLayout m).1 (sampleLayout m).2.1
    (sampleLayout m).2.2

def sampleBody (m : Method) (name : GoString) : Bytes :=
  grpcFrame ((sampleLayout m).1 ++ stringField (sampleLayout m).2.1 name ++ (sampleLayout m).2.2)

def pollBody (name : GoString) : Bytes := grpcFrame (stringField 10 name)

def executionTag : PollKind → UInt8
  | .workflow => 18
  | .activity => 34

def taskOf (token : Bytes) : PollTaskQueueResponse := ⟨token, some ⟨lit "w1", []⟩, []⟩

def sampleExternal : External where
  hash32 := murmur3Sum32
  gzip := ⟨fun _ => .error (lit "gzip: invalid header"), fun bs => (bs, none)⟩
  json := ordersCodec
  codec := sampleCodec
  pollRequest _ := templateCodec (·.ns) (fun name => ⟨name, []⟩) [] 10 []
  pollResponse kind :=
    templateCodec (·.taskToken) taskOf [] 10 (stringField (executionTag kind) sampleExecution)

def sampleHttp : Request := ⟨[], [], lit "proxy:8088", lit "/", -1, none⟩

def taskResponse (token : Bytes) : UpstreamResponse :=
  ⟨200, [], .ok (grpcFrame (stringField 10 token ++ stringField 18 sampleExecution))⟩

def sampleResponse : UpstreamResponse := taskResponse sampleToken

def singleSlot (n a : GoString) : Proxy :=
  ⟨adminRun murmur3Sum32
    [.create ⟨lit "POST", .ok ⟨lit "orders"⟩⟩, .add ⟨lit "POST", .ok ⟨lit "orders", n, a⟩⟩],
    ∅, fun _ => 0⟩

theorem requests_reach_cluster_iff_orders :
    Separable (lit "orders") (lit "c1.local:7233") ∧
    Method.startWorkflowExecution.Reaches sampleExternal
      (singleSlot (lit "orders") (lit "c1.local:7233")) sampleHttp
      (sampleBody .startWorkflowExecution (lit "orders"))
      ⟨lit "orders", lit "w1", []⟩ (lit "orders") (lit "c1.local:7233") := by
  have hsep : Separable (lit "orders") (lit "c1.local:7233") := by
    rw [← parse_build_iff]
    decide
  have hall := requests_reach_cluster_iff sampleExternal (lit "orders") (lit "c1.local:7233")
    (by decide)
  refine ⟨hsep, (hall.1 .startWorkflowExecution _ sampleHttp _ _ rfl ?_ ?_).1.mpr hsep⟩
  · decide +kernel
  · intro ns _
    exact templateCodec_roundTrips [] 10 (stringField 18 (lit "w1")) rfl

/-- An IPv6 address is cut at its first double colon, and the request goes to the host `[`. -/
theorem ipv6_cluster_not_reached :
    ¬ ∀ (n a : GoString), n ≠ [] → a ≠ [] → ∀ (m : Method) (s : Proxy) (r : Request)
      (bodyBytes : Bytes) (req : m.Message), m.decode sampleExternal bodyBytes = some req →
      (m.route sampleExternal.hash32 s req).1 = .ok (buildPhysicalNamespace n a) →
      (∀ ns, parsePhysicalNamespace (buildPhysicalNamespace n a) = some ns →
        (sampleExternal.codec m).RoundTrips (m.kind.setNs req ns.name)) →
      m.Reaches sampleExternal s r bodyBytes req n a := by
  intro hall
  have hroute : (Method.startWorkflowExecution.route sampleExternal.hash32
      (singleSlot (lit "orders") (lit "[::1]:7233")) ⟨lit "orders", lit "w1", []⟩).1 =
      .ok (buildPhysicalNamespace (lit "orders") (lit "[::1]:7233")) := by decide +kernel
  have hc (ns : Namespace) : (sampleCodec .startWorkflowExecution).RoundTrips
      (Method.startWorkflowExecution.kind.setNs ⟨lit "orders", lit "w1", []⟩ ns.name) :=
    templateCodec_roundTrips [] 10 (stringField 18 (lit "w1")) rfl
  have h := hall (lit "orders") (lit "[::1]:7233") (by decide) (by decide)
    .startWorkflowExecution (singleSlot (lit "orders") (lit "[::1]:7233")) sampleHttp
    (sampleBody .startWorkflowExecution (lit "orders")) ⟨lit "orders", lit "w1", []⟩ rfl hroute
    (fun ns _ => hc ns)
  have hp : parsePhysicalNamespace (buildPhysicalNamespace (lit "orders") (lit "[::1]:7233")) =
      some ⟨⟨lit "["⟩, lit "orders"⟩ := by decide
  rw [Method.reaches_iff sampleHttp rfl hroute hp (hc _)] at h
  exact absurd h (by decide)

end Tempura
