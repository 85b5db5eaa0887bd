import Tempura.RingLaws
import Tempura.Stickiness
import Tempura.TokenParser

namespace Tempura
open Base
set_option autoImplicit true

/-- The ring is sorted, and every slot name in the namespace contains the delimiter. -/
structure VirtualNamespace.Delimited (v : VirtualNamespace) : Prop where
  sorted : v.ring.ring.SortedLE
  slots : ∀ h slot, v.ring.vnodeToSlot.lookup h = some slot → delim <:+: slot
  names : ∀ slot ∈ v.getAllNamespaces, delim <:+: slot

namespace VirtualNamespace
variable {v : VirtualNamespace}

theorem delimited_new (name : GoString) : (newVirtualNamespace name).Delimited where
  sorted := List.Pairwise.nil.sortedLE
  slots h slot hl := by cases hl
  names slot hs := by cases hs

theorem Delimited.add (hv : v.Delimited) (hash32 : GoString → UInt32) {name : GoString}
    (hname : delim <:+: name) : (v.add hash32 name).Delimited where
  sorted := v.ring.addSlot_sorted name
  slots h slot hl := by
    obtain ⟨_, rfl⟩ | hold := ConsistentHash.addSlot_owner hl
    · exact hname
    · exact hv.slots h slot hold
  names slot hs := by
    rw [mem_getAllNamespaces, add_lookup] at hs
    by_cases he : slot = name
    · rw [he]
      exact hname
    · rw [if_neg he, ← mem_getAllNamespaces] at hs
      exact hv.names slot hs

theorem Delimited.remove (hv : v.Delimited) (hash32 : GoString → UInt32) (name : GoString) :
    (v.remove hash32 name).2.Delimited where
  sorted := by
    rw [remove_ring]
    exact ConsistentHash.removeSlot_sorted hv.sorted name
  slots h slot hl := by
    rw [remove_ring] at hl
    exact hv.slots h slot (ConsistentHash.removeSlot_owner hl).2
  names slot hs := hv.names slot (mem_getAllNamespaces_remove.mp hs)

theorem Delimited.call (hv : v.Delimited) (hash32 : GoString → UInt32) (c : NamespaceCall)
    (hc : delim <:+: c.name) : (v.call hash32 c).Delimited := by
  cases c with
  | add name => exact hv.add hash32 hc
  | remove name => exact hv.remove hash32 name

theorem Delimited.loadSlot (hv : v.Delimited) (hash32 : GoString → UInt32)
    (e : Σ _ : GoString, NamespaceStatus) (he : delim <:+: e.1) :
    (loadSlot hash32 v e).Delimited := by
  rw [Tempura.loadSlot]
  split
  · exact hv.add hash32 he
  · refine ⟨hv.sorted, hv.slots, ?_⟩
    intro slot hs
    rw [mem_getAllNamespaces, FiniteMap.lookup_insert_ite] at hs
    by_cases heq : slot = e.1
    · rw [heq]
      exact he
    · rw [if_neg heq, ← mem_getAllNamespaces] at hs
      exact hv.names slot hs

theorem delimited_loadNamespace (hash32 : GoString → UInt32) (name : GoString)
    (slots : List (Σ _ : GoString, NamespaceStatus)) (h : ∀ e ∈ slots, delim <:+: e.1) :
    (loadNamespace hash32 name slots).Delimited := by
  rw [loadNamespace]
  apply List.foldlRecOn (motive := VirtualNamespace.Delimited) slots _ (delimited_new name)
  intro v hv e he
  exact hv.loadSlot hash32 e (h e he)

end VirtualNamespace

def VirtualNamespaceRegistry.Delimited (reg : VirtualNamespaceRegistry) : Prop :=
  ∀ name v, reg.resolve name = some v → v.Delimited

/-- The names come with a request to the admin server, or were saved with the registry. -/
def Event.Built : Event → Prop
  | .registry (.create _) => True
  | .registry (.call _ c) => ∃ n a, c.name = buildPhysicalNamespace n a
  | .request _ _ => True
  | .poll _ _ _ => True
  | .checkpoint => True
  | .restart visit => ∀ e ∈ visit, ∀ slot ∈ e.2, ∃ n a, slot.1 = buildPhysicalNamespace n a

namespace VirtualNamespaceRegistry
variable {reg : VirtualNamespaceRegistry}

theorem delimited_empty : empty.Delimited := by
  intro name v hv
  rw [resolve_empty] at hv
  cases hv

theorem Delimited.step (h : reg.Delimited) (hash32 : GoString → UInt32) {st : RegistryStep}
    (hst : (Event.registry st).Built) : (reg.step hash32 st).Delimited := by
  intro name v' hv'
  obtain hv | ⟨v, c, rfl, hv, rfl⟩ | ⟨_, _, rfl⟩ := resolve_step_cases st hv'
  · exact h name v' hv
  · obtain ⟨n, a, hc⟩ := hst
    exact (h name v hv).call hash32 c (hc ▸ delim_infix_build n a)
  · exact VirtualNamespace.delimited_new name

theorem delimited_loadSchema (hash32 : GoString → UInt32) (visit : SchemaVisit)
    (h : ∀ e ∈ visit, ∀ slot ∈ e.2, delim <:+: slot.1) : (loadSchema hash32 visit).Delimited := by
  rw [loadSchema]
  apply List.foldlRecOn (motive := Delimited) visit _ delimited_empty
  intro reg hreg e he name v hv
  rw [resolve_update] at hv
  split at hv
  · cases hv
    exact VirtualNamespace.delimited_loadNamespace hash32 e.1 e.2 (h e he)
  · exact hreg name v hv

end VirtualNamespaceRegistry

theorem not_delim_infix_nil : ¬ delim <:+: [] := by
  rw [List.infix_nil]
  decide

theorem VirtualNamespace.Delimited.getSlot {v : VirtualNamespace} (hv : v.Delimited)
    (hne : v.ring.getSlot hash32 key ≠ []) : delim <:+: v.ring.getSlot hash32 key := by
  obtain ⟨h, hl⟩ := ConsistentHash.lookup_of_getSlot hne
  exact hv.slots h _ hl

def VirtualNamespace.Serves (hash32 : GoString → UInt32) (v : VirtualNamespace)
    (workflowID : GoString) : Prop :=
  ∃ h slot, IsSuccessor {x | x ∈ v.ring.ring} (hash32 workflowID) h ∧
    v.ring.vnodeToSlot.lookup h = some slot

theorem VirtualNamespace.Delimited.serves_iff {v : VirtualNamespace} (hv : v.Delimited)
    (hash32 : GoString → UInt32) (w : GoString) :
    v.Serves hash32 w ↔ delim <:+: v.ring.getSlot hash32 w := by
  by_cases hring : v.ring.ring = []
  · rw [v.ring.getSlot_empty w hring]
    refine iff_of_false ?_ not_delim_infix_nil
    rintro ⟨h, slot, hsucc, _⟩
    exact List.not_mem_nil (hring ▸ hsucc.1)
  · obtain ⟨h, hsucc, hget⟩ := @ConsistentHash.getSlot_successor hash32 _ hv.sorted hring w
    rw [hget]
    constructor
    · rintro ⟨h', slot, hsucc', hl⟩
      rw [hsucc.unique hsucc', hl]
      exact hv.slots h' slot hl
    · intro hinfix
      cases hl : v.ring.vnodeToSlot.lookup h with
      | none =>
        rw [hl] at hinfix
        exact absurd hinfix not_delim_infix_nil
      | some slot => exact ⟨h, slot, hsucc, hl⟩

structure Proxy.Delimited (s : Proxy) : Prop where
  registry : s.registry.Delimited
  store : ∀ w physNs, w ≠ registryKey → s.db.lookup w = some physNs → physNs ≠ [] →
    delim <:+: physNs

theorem Cause.delimited {lib : External} {s : Proxy} {e : Event} (hen : e.Enabled lib s)
    (hs : s.registry.Delimited) (h : Cause lib s e (.put tag w physNs)) (hw : w ≠ registryKey)
    (hne : physNs ≠ []) : delim <:+: physNs := by
  cases h with
  | @resolve m req _ v _ hmiss hv => exact (hs _ v hv).getSlot hne
  | @task kind _ v res arrivals resp task hv ht _ =>
    exact (hs _ v hv).names _ ((hen v hv).tags.subset (List.mem_map_of_mem (mem_of_firstTask ht)))
  | checkpoint hm => exact absurd rfl hw

theorem Proxy.Delimited.step {lib : External} {s : Proxy} {e : Event} (h : s.Delimited)
    (hen : e.Enabled lib s) (he : e.Built) : (s.step lib e).Delimited where
  registry := by
    cases e with
    | registry st => exact h.registry.step lib.hash32 he
    | request m req =>
      rw [Proxy.step_request_registry]
      exact h.registry
    | poll kind virtual arrivals =>
      rw [Proxy.step, fanOut_proxy]
      exact h.registry
    | checkpoint => exact h.registry
    | restart visit =>
      simp only [Proxy.step, newVirtualNamespaceRegistry]
      split
      · exact VirtualNamespaceRegistry.delimited_empty
      · split
        · exact VirtualNamespaceRegistry.delimited_empty
        · split
          · exact VirtualNamespaceRegistry.delimited_empty
          · apply VirtualNamespaceRegistry.delimited_loadSchema
            intro row hrow slot hslot
            obtain ⟨n, a, hname⟩ := he row hrow slot hslot
            rw [hname]
            exact delim_infix_build n a
  store := by
    intro w physNs hw hl hne
    rw [Proxy.step_db] at hl
    have hinv := lookup_replay_invariant
      (I := fun found => ∀ physNs, found = some physNs → physNs ≠ [] → delim <:+: physNs)
      (fun physNs => h.store w physNs hw) (e.writes lib s) ?_
    · exact hinv physNs hl hne
    · intro write hwrite hkey physNs' hleft hne'
      have hcause := cause_of_mem_writes e hwrite
      cases write with
      | put tag key value =>
        cases hleft
        exact hcause.delimited hen h.registry (fun he => hw (hkey.trans he)) hne'
      | delete key => cases hleft

theorem delimited_of_run {lib : External} (hrun : Run (Audited.Step lib) Audited.start es a)
    (hes : ∀ e ∈ es, e.Built) : a.proxy.Delimited := by
  apply hrun.invariant (I := fun a => a.proxy.Delimited) _ hes
  · intro a e a' ha he hs
    obtain ⟨hen, rfl⟩ := hs
    exact ha.step hen he
  · refine ⟨VirtualNamespaceRegistry.delimited_empty, ?_⟩
    intro w physNs hw hl
    cases hl

/-- The workflow id has an entry that names a slot, or the virtual namespace has a slot for it. -/
def Proxy.Routes (hash32 : GoString → UInt32) (s : Proxy) (payload : Payload) : Prop :=
  (Mappings.stored s.db payload.workflowID ≠ [] ∧
    (payload.workflowID = registryKey →
      delim <:+: Mappings.stored s.db payload.workflowID)) ∨
  (Mappings.stored s.db payload.workflowID = [] ∧
    ∃ v, s.registry.resolve payload.virtualNamespace = some v ∧
      v.Serves hash32 payload.workflowID)

theorem Proxy.Delimited.routes_iff {s : Proxy} (h : s.Delimited) (hash32 : GoString → UInt32)
    (payload : Payload) :
    s.Routes hash32 payload ↔ delim <:+: (s.resolve hash32 payload).1.1 := by
  rw [Proxy.resolve_answer, Routes]
  by_cases hs : Mappings.stored s.db payload.workflowID = []
  · rw [if_neg (not_not_intro hs), slotOf, hs]
    cases hv : s.registry.resolve payload.virtualNamespace with
    | none =>
      refine iff_of_false ?_ not_delim_infix_nil
      rintro (⟨hne, _⟩ | ⟨_, v, hv', _⟩)
      · exact hne rfl
      · cases hv'
    | some v => simp [(h.registry _ v hv).serves_iff]
  · rw [if_pos hs]
    simp only [hs, ne_eq, not_false_iff, true_and, false_and, or_false]
    constructor
    · intro hkey
      by_cases hw : payload.workflowID = registryKey
      · exact hkey hw
      · exact h.store _ _ hw (Mappings.lookup_of_stored rfl hs) hs
    · intro hinfix _
      exact hinfix

theorem rewriteRequest_returns_iff {k : RequestKind M} {codec : ProtoCodec M} :
    ((∃ body, (rewriteRequest k codec r req physNs).1 = .ok body) ∨
      ∃ e, (rewriteRequest k codec r req physNs).1 = .err e) ↔ delim <:+: physNs := by
  rw [← parsePhysicalNamespace_isSome_iff, rewriteRequest]
  cases parsePhysicalNamespace physNs with
  | none => simp
  | some ns =>
    simp only [Option.isSome_some, iff_true]
    cases codec.marshal (k.setNs req ns.name) with
    | error e => exact .inr ⟨_, rfl⟩
    | ok payload => exact .inl ⟨_, rfl⟩

/-- The parser is never led back, and every field it reads fits. -/
structure TokenSafe (token : Bytes) : Prop where
  acyclic : ∀ i, Relation.ReflTransGen (Skips token) 0 i → ¬ Relation.TransGen (Skips token) i i
  fits : ∀ i num wire stop, Relation.ReflTransGen (Skips token) 0 i →
    FieldAt token i num wire stop → FieldFits num wire stop

theorem tokenSafe_iff {token : Bytes} (hlen : token.length < 2 ^ 63) :
    TokenSafe token ↔ extractWorkflowIDFromTaskToken token ≠ .hang ∧
      extractWorkflowIDFromTaskToken token ≠ .panic := by
  have hpanic : extractWorkflowIDFromTaskToken token ≠ .panic ↔
      ∀ i num wire stop, Relation.ReflTransGen (Skips token) 0 i →
        FieldAt token i num wire stop → FieldFits num wire stop := by
    rw [ne_eq, extract_eq_iff token (by decide), extractLoop_panic_iff hlen]
    push Not
    rfl
  rw [extract_ne_hang_iff, hpanic]
  exact ⟨fun h => ⟨h.acyclic, h.fits⟩, fun h => ⟨h.1, h.2⟩⟩

theorem tokenWorkflowID_ok_iff {token : Bytes} (hlen : token.length < 2 ^ 63)
    (fallback : GoString) : (∃ w, tokenWorkflowID token fallback = .ok w) ↔ TokenSafe token := by
  rw [tokenSafe_iff hlen, tokenWorkflowID]
  cases extractWorkflowIDFromTaskToken token with
  | ok w => simp
  | err e => simp
  | panic => simp
  | hang => simp

def Method.token? : (m : Method) → m.Message → Option Bytes
  | .respondWorkflowTaskCompleted, req => some req.taskToken
  | .respondActivityTaskCompleted, req => some req.taskToken
  | .respondQueryTaskCompleted, req => some req.taskToken
  | .startWorkflowExecution, _ => none
  | .requestCancelWorkflowExecution, _ => none
  | .signalWorkflowExecution, _ => none
  | .queryWorkflow, _ => none
  | .getWorkflowExecutionHistory, _ => none

theorem Method.workflowID_cases (m : Method) (req : m.Message) :
    (∃ w, m.token? req = none ∧ m.kind.workflowID req = .ok w) ∨
      ∃ token fallback, m.token? req = some token ∧
        m.kind.workflowID req = tokenWorkflowID token fallback := by
  cases m with
  | respondWorkflowTaskCompleted => exact .inr ⟨_, _, rfl, rfl⟩
  | respondActivityTaskCompleted => exact .inr ⟨_, _, rfl, rfl⟩
  | respondQueryTaskCompleted => exact .inr ⟨_, _, rfl, rfl⟩
  | startWorkflowExecution => exact .inl ⟨_, rfl, rfl⟩
  | requestCancelWorkflowExecution => exact .inl ⟨_, rfl, rfl⟩
  | signalWorkflowExecution => exact .inl ⟨_, rfl, rfl⟩
  | queryWorkflow => exact .inl ⟨_, rfl, rfl⟩
  | getWorkflowExecutionHistory => exact .inl ⟨_, rfl, rfl⟩

theorem Method.workflowID_ok_iff {m : Method} {req : m.Message}
    (hlen : ∀ token, m.token? req = some token → token.length < 2 ^ 63) :
    (∃ w, m.kind.workflowID req = .ok w) ↔
      ∀ token, m.token? req = some token → TokenSafe token := by
  obtain ⟨w, hnone, hw⟩ | ⟨token, fallback, htoken, hw⟩ := m.workflowID_cases req
  · rw [hnone, hw]
    simp
  · rw [hw, tokenWorkflowID_ok_iff (hlen token htoken), htoken]
    simp

theorem Method.workflowID_ne_err (m : Method) (req : m.Message) (e : GoString) :
    m.kind.workflowID req ≠ .err e := by
  obtain ⟨w, _, hw⟩ | ⟨token, fallback, _, hw⟩ := m.workflowID_cases req
  · rw [hw]
    simp
  · rw [hw, tokenWorkflowID]
    cases extractWorkflowIDFromTaskToken token <;> simp

/-- A handler that has decoded its request returns exactly if the token is safe to parse and the
workflow id has a slot to go to. -/
theorem handlers_return_iff (lib : External) (es : List Event) (a : Audited)
    (hrun : Run (Audited.Step lib) Audited.start es a) (hes : ∀ e ∈ es, e.Built) (m : Method)
    (r : Request) (bodyBytes : Bytes) (req : m.Message) (hd : m.decode lib bodyBytes = some req)
    (hlen : ∀ token, m.token? req = some token → token.length < 2 ^ 63) :
    ((∃ body, (m.handle lib a.proxy r bodyBytes).result = .ok body) ∨
      ∃ e, (m.handle lib a.proxy r bodyBytes).result = .err e) ↔
    (∀ token, m.token? req = some token → TokenSafe token) ∧
      ∀ w, m.kind.workflowID req = .ok w →
        a.proxy.Routes lib.hash32 ⟨w, m.kind.ns req⟩ := by
  have hs := delimited_of_run hrun hes
  rw [← Method.workflowID_ok_iff hlen, Method.handle_result hd]
  cases hw : m.kind.workflowID req with
  | ok w =>
    simp only [rewriteRequest_returns_iff, hs.routes_iff]
    simp
  | err e => exact absurd hw (m.workflowID_ne_err req e)
  | panic => simp
  | hang => simp

theorem handlers_return_w1 :
    (∃ body, (Method.signalWorkflowExecution.handle sampleExternal placedW1 sampleHttp
      (sampleBody .signalWorkflowExecution (lit "orders"))).result = .ok body) ∨
    ∃ e, (Method.signalWorkflowExecution.handle sampleExternal placedW1 sampleHttp
      (sampleBody .signalWorkflowExecution (lit "orders"))).result = .err e := by
  have hes : ∀ e ∈ startedW1, (∀ s, e.Enabled sampleExternal s) ∧ e.Built := by
    intro e he
    simp only [startedW1, List.mem_cons, List.not_mem_nil, or_false] at he
    rcases he with rfl | rfl | rfl
    · exact ⟨fun _ => trivial, trivial⟩
    · exact ⟨fun _ => trivial, lit "orders", lit "c1.local:7233", by decide⟩
    · exact ⟨fun _ => trivial, trivial⟩
  have hrun := Audited.run_foldl Audited.start startedW1 (fun e he => (hes e he).1)
  have h := handlers_return_iff sampleExternal startedW1 _ hrun (fun e he => (hes e he).2)
    .signalWorkflowExecution sampleHttp (sampleBody .signalWorkflowExecution (lit "orders"))
    ⟨lit "orders", some ⟨lit "w1", []⟩, []⟩ rfl (fun token ht => by cases ht)
  rw [Audited.foldl_next_proxy] at h
  apply h.mpr
  have hstored : Mappings.stored placedW1.db (lit "w1") ≠ [] := by
    rw [Mappings.stored_of_lookup placedW1_lookup]
    decide
  constructor
  · intro token ht
    cases ht
  · intro w hw
    cases hw
    exact .inl ⟨hstored, fun hkey => absurd hkey (by decide)⟩

/-- A namespace that is not registered resolves to no slot, which does not parse. -/
theorem unregistered_namespace_panics : ¬ ∀ (lib : External) (es : List Event) (a : Audited),
    Run (Audited.Step lib) Audited.start es a → (∀ e ∈ es, e.Built) →
    ∀ (m : Method) (r : Request) (bodyBytes : Bytes) (req : m.Message),
    m.decode lib bodyBytes = some req →
    (∃ body, (m.handle lib a.proxy r bodyBytes).result = .ok body) ∨
      ∃ e, (m.handle lib a.proxy r bodyBytes).result = .err e := by
  intro hall
  have h := hall sampleExternal [] Audited.start .nil (fun e he => absurd he List.not_mem_nil)
    .startWorkflowExecution sampleHttp (sampleBody .startWorkflowExecution (lit "orders")) _ rfl
  have hpanic : (Method.startWorkflowExecution.handle sampleExternal Audited.start.proxy sampleHttp
      (sampleBody .startWorkflowExecution (lit "orders"))).result = .panic := by decide +kernel
  rw [hpanic] at h
  obtain ⟨body, hbody⟩ | ⟨e, he⟩ := h
  · cases hbody
  · cases he

end Tempura
