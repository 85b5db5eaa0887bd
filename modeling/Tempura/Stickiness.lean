import Tempura.Isolation

namespace Tempura
open Base
set_option autoImplicit true

/-- The proxy and the executions that are open at the clusters. -/
structure World where
  proxy : Proxy
  executions : Set (GoString × GoString)

/-- A step of the proxy, or an execution that ends by itself. -/
inductive Action where
  | event (e : Event)
  | close (w physNs : GoString)

def Action.Names (lib : External) (w : GoString) : Action → Prop
  | .event e => e.Names lib w
  | .close _ _ => False

/-- An event that carries no workflow id to or from a cluster. -/
def Event.Internal : Event → Prop
  | .registry _ => True
  | .request _ _ => False
  | .poll _ _ _ => False
  | .checkpoint => True
  | .restart _ => True

namespace World

inductive Step (lib : External) : World → Action → World → Prop
  | internal {s : Proxy} {E : Set (GoString × GoString)} {e : Event} (hi : e.Internal)
      (hen : e.Enabled lib s) : Step lib ⟨s, E⟩ (.event e) ⟨s.step lib e, E⟩
  /-- A request that opens and closes nothing, a start that its cluster refuses among them. -/
  | request {s : Proxy} {E : Set (GoString × GoString)} {m : Method} {req : m.Message}
      (hc : ∀ w, m.kind.workflowID req = .ok w → m.completions req = 0) :
      Step lib ⟨s, E⟩ (.event (.request m req)) ⟨s.step lib (.request m req), E⟩
  /-- The cluster that a start is routed to opens the execution. -/
  | start {s : Proxy} {E : Set (GoString × GoString)} {req : StartWorkflowExecutionRequest}
      {physNs : GoString}
      (hr : (Method.startWorkflowExecution.route lib.hash32 s req).1 = .ok physNs)
      (hp : (parsePhysicalNamespace physNs).isSome) :
      Step lib ⟨s, E⟩ (.event (.request .startWorkflowExecution req))
        ⟨s.step lib (.request .startWorkflowExecution req), insert (req.workflowId, physNs) E⟩
  /-- A completion is accepted where it is routed to. -/
  | complete {s : Proxy} {E : Set (GoString × GoString)} {m : Method} {req : m.Message}
      {w physNs : GoString} (hc : 0 < m.completions req) (hw : m.kind.workflowID req = .ok w)
      (hr : (m.route lib.hash32 s req).1 = .ok physNs) :
      Step lib ⟨s, E⟩ (.event (.request m req)) ⟨s.step lib (.request m req), E \ {(w, physNs)}⟩
  /-- A cluster hands out the task of an execution that is open there. -/
  | poll {s : Proxy} {E : Set (GoString × GoString)} {kind : PollKind} {virtual : GoString}
      {arrivals : List PollResult} (hen : (Event.poll kind virtual arrivals).Enabled lib s)
      (ht : ∀ res resp task, firstTask lib kind arrivals = some (res, resp, task) →
        getWorkflowId task.workflowExecution ≠ [] →
        (getWorkflowId task.workflowExecution, res.physNs) ∈ E) :
      Step lib ⟨s, E⟩ (.event (.poll kind virtual arrivals))
        ⟨s.step lib (.poll kind virtual arrivals), E⟩
  | close {s : Proxy} {E : Set (GoString × GoString)} {w physNs : GoString} :
      Step lib ⟨s, E⟩ (.close w physNs) ⟨s, E \ {(w, physNs)}⟩

end World

theorem World.Step.proxy_eq {lib : External} (h : World.Step lib a act b) :
    match act with
    | .event e => b.proxy = a.proxy.step lib e
    | .close _ _ => b.proxy = a.proxy := by
  cases h <;> rfl

/-- The store maps the workflow of every open execution to the place where it runs. -/
structure Sticky (s : Proxy) (E : Set (GoString × GoString)) : Prop where
  mapped : ∀ w physNs, (w, physNs) ∈ E → s.db.lookup w = some physNs
  parses : ∀ w physNs, (w, physNs) ∈ E → (parsePhysicalNamespace physNs).isSome
  apart : ∀ w physNs, (w, physNs) ∈ E → w ≠ registryKey

theorem ne_nil_of_parses (h : (parsePhysicalNamespace physNs).isSome) : physNs ≠ [] := by
  intro hnil
  subst physNs
  revert h
  decide

theorem Sticky.mono (h : Sticky s E) (hsub : E' ⊆ E) : Sticky s E' where
  mapped w physNs hmem := h.mapped w physNs (hsub hmem)
  parses w physNs hmem := h.parses w physNs (hsub hmem)
  apart w physNs hmem := h.apart w physNs (hsub hmem)

theorem Sticky.insert (h : Sticky s E) (hl : s.db.lookup w = some physNs)
    (hp : (parsePhysicalNamespace physNs).isSome) (hw : w ≠ registryKey) :
    Sticky s (insert (w, physNs) E) where
  mapped := by
    intro w' physNs' hmem
    cases hmem with
    | inl heq => cases heq; exact hl
    | inr hold => exact h.mapped w' physNs' hold
  parses := by
    intro w' physNs' hmem
    cases hmem with
    | inl heq => cases heq; exact hp
    | inr hold => exact h.parses w' physNs' hold
  apart := by
    intro w' physNs' hmem
    cases hmem with
    | inl heq => cases heq; exact hw
    | inr hold => exact h.apart w' physNs' hold

theorem Sticky.stored_ne_nil (h : Sticky s E) (hmem : (w, physNs) ∈ E) :
    Mappings.stored s.db w ≠ [] := by
  rw [Mappings.stored_of_lookup (h.mapped w physNs hmem)]
  exact ne_nil_of_parses (h.parses w physNs hmem)

theorem Sticky.unique (h : Sticky s E) (hP : (w, P) ∈ E) (hQ : (w, Q) ∈ E) : P = Q := by
  have hl := h.mapped w P hP
  rw [h.mapped w Q hQ, Option.some.injEq] at hl
  exact hl.symm

theorem Sticky.route {m : Method} {req : m.Message} (h : Sticky s E)
    (hmem : (w, physNs) ∈ E) (hw : m.kind.workflowID req = .ok w) (hash32 : GoString → UInt32) :
    (m.route hash32 s req).1 = .ok physNs := by
  rw [Method.route_of_ok hw, Proxy.resolve_hit (h.stored_ne_nil hmem)]
  exact congrArg Outcome.ok (Mappings.stored_of_lookup (h.mapped w physNs hmem))

/-- A step keeps the mappings if it writes nothing else for open executions. -/
theorem Sticky.step {lib : External} (h : Sticky s E)
    (hkeep : ∀ w physNs, (w, physNs) ∈ E → ∀ wr, Cause lib s e wr → w = wr.key →
      ∃ tag, wr = .put tag w physNs) :
    Sticky (s.step lib e) E where
  parses := h.parses
  apart := h.apart
  mapped := by
    intro w physNs hmem
    rw [Proxy.step_db]
    apply lookup_replay_of_same (h.mapped w physNs hmem)
    intro wr hwr hkey
    exact hkeep w physNs hmem wr (cause_of_mem_writes e hwr) hkey

theorem Sticky.step_internal {lib : External} (h : Sticky s E) (hi : e.Internal) :
    Sticky (s.step lib e) E := by
  apply h.step
  intro w physNs hmem wr hcause hkey
  cases hcause with
  | resolve => exact hi.elim
  | complete => exact hi.elim
  | task => exact hi.elim
  | checkpoint hm => exact absurd hkey (h.apart w physNs hmem)

theorem Sticky.step_request {lib : External} {m : Method} {req : m.Message} (h : Sticky s E)
    (hc : ∀ w physNs, (w, physNs) ∈ E → m.kind.workflowID req = .ok w → m.completions req = 0) :
    Sticky (s.step lib (.request m req)) E := by
  apply h.step
  intro w physNs hmem wr hcause hkey
  cases hcause with
  | resolve hw hmiss hv =>
    cases hkey
    exact absurd hmiss (h.stored_ne_nil hmem)
  | complete hw hpos =>
    cases hkey
    exact absurd (hc _ physNs hmem hw) (Nat.ne_of_gt hpos)

theorem Sticky.step_poll {lib : External} (h : Sticky s E)
    (ht : ∀ res resp task physNs, firstTask lib kind arrivals = some (res, resp, task) →
      getWorkflowId task.workflowExecution ≠ [] →
      (getWorkflowId task.workflowExecution, physNs) ∈ E → physNs = res.physNs) :
    Sticky (s.step lib (.poll kind virtual arrivals)) E := by
  apply h.step
  intro w physNs hmem wr hcause hkey
  cases hcause with
  | task hv htask hne =>
    cases hkey
    rw [ht _ _ _ physNs htask hne hmem]
    exact ⟨_, rfl⟩

theorem World.Step.sticky {lib : External} {a b : World} (h : World.Step lib a act b)
    (hk : ¬ act.Names lib registryKey) (ha : Sticky a.proxy a.executions) :
    Sticky b.proxy b.executions := by
  cases h with
  | internal hi hen => exact ha.step_internal hi
  | request hc => exact ha.step_request (fun w physNs hmem hw => hc w hw)
  | @start s E req physNs hr hp =>
    have hw : Method.startWorkflowExecution.kind.workflowID req = .ok req.workflowId := rfl
    have hstep : Sticky (s.step lib (.request .startWorkflowExecution req)) E :=
      ha.step_request (fun w physNs hmem hw => rfl)
    apply hstep.insert _ hp
    · intro heq
      exact hk (heq ▸ hw)
    · rw [Method.route_of_ok hw] at hr
      rw [Proxy.step, Method.route_of_ok hw]
      exact Proxy.lookup_resolve (Outcome.ok.inj hr) (ne_nil_of_parses hp)
  | @complete s E m req w physNs hc hw hr =>
    apply (ha.mono Set.sdiff_subset).step_request
    intro w' physNs' hmem hw'
    -- the request is routed to the only open execution of its workflow, which it closes
    have hroute := ha.route hmem.1 hw' lib.hash32
    rw [hr, Outcome.ok.injEq] at hroute
    rw [hw, Outcome.ok.injEq] at hw'
    exact absurd (by rw [hw', hroute]; rfl) hmem.2
  | poll hen ht =>
    apply ha.step_poll
    intro res resp task physNs htask hne hmem
    exact ha.unique hmem (ht res resp task htask hne)
  | close => exact ha.mono Set.sdiff_subset

theorem sticky_of_run {lib : External} {world : World}
    (hrun : Run (World.Step lib) ⟨s₀, ∅⟩ acts world)
    (hk : ∀ act ∈ acts, ¬ act.Names lib registryKey) : Sticky world.proxy world.executions := by
  apply hrun.invariant (I := fun world => Sticky world.proxy world.executions) _ hk
  · intro a act b ha hact hstep
    exact hstep.sticky hact ha
  · exact ⟨nofun, nofun, nofun⟩

/-- Along every run from no open executions, the store maps each open execution to where it runs,
and every request that names it goes there. -/
theorem open_executions_sticky (lib : External) (s₀ : Proxy) (acts : List Action) (world : World)
    (hrun : Run (World.Step lib) ⟨s₀, ∅⟩ acts world)
    (hk : ∀ act ∈ acts, ¬ act.Names lib registryKey) :
    (∀ w P, (w, P) ∈ world.executions → world.proxy.db.lookup w = some P) ∧
    (∀ w P Q, (w, P) ∈ world.executions → (w, Q) ∈ world.executions → P = Q) ∧
    (∀ w P (m : Method) (req : m.Message), (w, P) ∈ world.executions →
      m.kind.workflowID req = .ok w →
      (m.route lib.hash32 world.proxy req).1 = .ok P ∧
      ∃ ns, parsePhysicalNamespace P = some ns ∧
        ∀ r bodyBytes, m.decode lib bodyBytes = some req →
          m.GoesTo lib world.proxy r bodyBytes req ns) := by
  have hsticky := sticky_of_run hrun hk
  refine ⟨hsticky.mapped, fun w P Q => hsticky.unique, ?_⟩
  intro w P m req hmem hw
  have hroute := hsticky.route hmem hw lib.hash32
  obtain ⟨ns, hp⟩ := Option.isSome_iff_exists.mp (hsticky.parses w P hmem)
  exact ⟨hroute, ns, hp, fun r bodyBytes hd => Method.goesTo_of_route r hd hroute hp⟩

def startedW1 : List Event :=
  [.registry (.create (lit "orders")), .registry (.call (lit "orders") (.add orders1)), startW1]

def placedW1 : Proxy := startedW1.foldl (Proxy.step sampleExternal) Audited.start.proxy

theorem placedW1_slot :
    slotOf murmur3Sum32 ⟨lit "w1", lit "orders"⟩ placedW1.registry = orders1 := by
  decide +kernel

theorem placedW1_lookup : placedW1.db.lookup (lit "w1") = some orders1 := by
  decide +kernel

theorem startedW1_run : Run (World.Step sampleExternal) ⟨Audited.start.proxy, ∅⟩
    (startedW1.map .event) ⟨placedW1, {(lit "w1", orders1)}⟩ := by
  have hr : (Method.startWorkflowExecution.route murmur3Sum32
      ((startedW1.take 2).foldl (Proxy.step sampleExternal) Audited.start.proxy)
      ⟨lit "orders", lit "w1", []⟩).1 = .ok orders1 := by decide +kernel
  have hstart := @World.Step.start sampleExternal _ ∅ _ _ hr (by decide)
  rw [insert_empty_eq] at hstart
  exact .snoc (.snoc (.snoc .nil (.internal trivial trivial)) (.internal trivial trivial)) hstart

theorem startedW1_names :
    ∀ act ∈ startedW1.map Action.event, ¬ act.Names sampleExternal registryKey := by
  intro act hact
  simp only [startedW1, List.map_cons, List.map_nil, List.mem_cons, List.not_mem_nil,
    or_false] at hact
  rcases hact with rfl | rfl | rfl
  · exact id
  · exact id
  · intro hname
    exact absurd (Outcome.ok.inj hname) (by decide)

def cordonedStart : List Event :=
  [.registry (.create (lit "orders")),
    .registry (.call (lit "orders") (.add orders1)),
    startW1,
    .registry (.call (lit "orders") (.remove orders1))]

theorem open_executions_sticky_orders :
    let s := cordonedStart.foldl (Proxy.step sampleExternal) Audited.start.proxy
    s.db.lookup (lit "w1") = some orders1 ∧
      (Method.signalWorkflowExecution.route murmur3Sum32 s
        ⟨lit "orders", some ⟨lit "w1", []⟩, []⟩).1 = .ok orders1 := by
  intro s
  have hrun : Run (World.Step sampleExternal) ⟨Audited.start.proxy, ∅⟩
      (cordonedStart.map .event) ⟨s, {(lit "w1", orders1)}⟩ :=
    .snoc startedW1_run (.internal trivial trivial)
  have hnames : ∀ act ∈ cordonedStart.map Action.event,
      ¬ act.Names sampleExternal registryKey := by
    intro act hact
    cases List.mem_append.mp (show act ∈ startedW1.map Action.event ++ _ from hact) with
    | inl hmem => exact startedW1_names act hmem
    | inr hmem =>
      rw [List.mem_singleton.mp hmem]
      exact id
  obtain ⟨hmapped, _, hroute⟩ := open_executions_sticky sampleExternal _ _ _ hrun hnames
  exact ⟨hmapped _ _ rfl, (hroute _ _ .signalWorkflowExecution _ rfl rfl).1⟩

end Tempura
