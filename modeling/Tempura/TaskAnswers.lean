import Tempura.Stickiness

namespace Tempura
open Base
set_option autoImplicit true

/-- A step that neither deletes the entry of `w` nor returns a task of `w`. -/
def Event.Spares (lib : External) (w : GoString) : Event → Prop
  | .registry _ => True
  | .request m req => m.kind.workflowID req = .ok w → m.completions req = 0
  | .poll kind virtual arrivals => ¬ (Event.poll kind virtual arrivals).Names lib w
  | .checkpoint => True
  | .restart _ => True

def Proxy.Step (lib : External) (s : Proxy) (e : Event) (s' : Proxy) : Prop :=
  e.Enabled lib s ∧ s' = s.step lib e

/-- An encoding of a task: each field at most once and in any order, the workflow id in field 2. -/
structure IsTaskToken (token : Bytes) (w : GoString) : Prop where
  encodes : ∃ fs, Encodes fs token ∧ (fs.map WireField.num).Nodup ∧ ⟨2, .bytes w⟩ ∈ fs
  length : token.length < 2 ^ 63

theorem IsTaskToken.workflowID (h : IsTaskToken token w) (hne : w ≠ []) (fallback : GoString) :
    tokenWorkflowID token fallback = .ok w := by
  obtain ⟨fs, henc, hnd, hmem⟩ := h.encodes
  rw [tokenWorkflowID, extractWorkflowID_encodes henc h.length, firstBytes_of_nodup hmem hnd]
  simp only [if_neg hne]

theorem Sticky.step_spares {lib : External} (h : Sticky s {(w, physNs)}) (he : e.Spares lib w) :
    Sticky (s.step lib e) {(w, physNs)} := by
  cases e with
  | registry st => exact h.step_internal trivial
  | request m req =>
    apply h.step_request
    intro w' physNs' hmem hw'
    cases hmem
    exact he hw'
  | poll kind virtual arrivals =>
    apply h.step_poll
    intro res resp task physNs' ht hne hmem
    exact absurd ⟨res, resp, task, ht, (Prod.mk.inj hmem).1⟩ he
  | checkpoint => exact h.step_internal trivial
  | restart visit => exact h.step_internal trivial

theorem taskMapping_of_workflowId (hw : getWorkflowId task.workflowExecution = w) (hne : w ≠ []) :
    taskMapping physNs task = some (w, physNs) := by
  subst w
  rw [taskMapping]
  cases he : task.workflowExecution with
  | none =>
    rw [he] at hne
    exact absurd rfl hne
  | some execution =>
    rw [he] at hne
    exact if_pos hne

theorem sticky_of_poll {lib : External} {kind : PollKind}
    (hpoll : kind.execute lib s bodyBytes arrivals = (.ok resp, s'))
    (harr : ∀ reqStruct v, kind.decode lib bodyBytes = some reqStruct →
      s.registry.resolve reqStruct.ns = some v → Arrivals v.getAllNamespaces arrivals)
    (ht : firstTask lib kind arrivals = some (res, resp, task))
    (hw : getWorkflowId task.workflowExecution = w) (hne : w ≠ []) (hkey : w ≠ registryKey) :
    Sticky s' {(w, res.physNs)} := by
  obtain ⟨reqStruct, hd, hfan⟩ := PollKind.execute_ok hpoll
  obtain ⟨v, hv, _, rfl⟩ := fanOut_ok hfan
  have hparse := (harr reqStruct v hd hv).parses res (mem_of_firstTask ht)
  rw [pollLoop_of_first ht, taskMapping_of_workflowId hw hne]
  have hsub : ({(w, res.physNs)} : Set (GoString × GoString)) ⊆ insert (w, res.physNs) ∅ := by
    intro p hp
    exact .inl hp
  have hempty : Sticky (s.cache (some (w, res.physNs))) ∅ := ⟨nofun, nofun, nofun⟩
  exact (hempty.insert (AList.lookup_insert _) hparse hkey).mono hsub

/-- The answer to a task is sent back to the cluster that it was polled from, as long as the entry
is neither deleted nor polled again. -/
theorem task_answer_returns (lib : External) (kind : PollKind) (s s' s'' : Proxy)
    (bodyBytes : Bytes) (arrivals : List PollResult) (res : PollResult) (resp : UpstreamResponse)
    (task : PollTaskQueueResponse) (w : GoString) (es : List Event)
    (hpoll : kind.execute lib s bodyBytes arrivals = (.ok resp, s'))
    (harr : ∀ reqStruct v, kind.decode lib bodyBytes = some reqStruct →
      s.registry.resolve reqStruct.ns = some v → Arrivals v.getAllNamespaces arrivals)
    (ht : firstTask lib kind arrivals = some (res, resp, task))
    (htoken : IsTaskToken task.taskToken w)
    (hw : getWorkflowId task.workflowExecution = w) (hne : w ≠ []) (hkey : w ≠ registryKey)
    (hrun : Run (Proxy.Step lib) s' es s'') (hes : ∀ e ∈ es, e.Spares lib w) :
    ∃ ns, parsePhysicalNamespace res.physNs = some ns ∧
      (∀ r answer req, Method.respondWorkflowTaskCompleted.decode lib answer = some req →
        req.taskToken = task.taskToken →
        Method.respondWorkflowTaskCompleted.GoesTo lib s'' r answer req ns) ∧
      (∀ r answer req, Method.respondActivityTaskCompleted.decode lib answer = some req →
        req.taskToken = task.taskToken →
        Method.respondActivityTaskCompleted.GoesTo lib s'' r answer req ns) := by
  have hsticky : Sticky s'' {(w, res.physNs)} := by
    apply hrun.invariant (sticky_of_poll hpoll harr ht hw hne hkey) hes
    intro s e s' hs he hstep
    obtain ⟨_, rfl⟩ := hstep
    exact hs.step_spares he
  obtain ⟨ns, hp⟩ := Option.isSome_iff_exists.mp (hsticky.parses _ _ rfl)
  refine ⟨ns, hp, ?_, ?_⟩
  · intro r answer req hd htok
    have hreq : Method.respondWorkflowTaskCompleted.kind.workflowID req = .ok w := by
      apply IsTaskToken.workflowID _ hne
      rw [htok]
      exact htoken
    exact Method.goesTo_of_route r hd (hsticky.route rfl hreq lib.hash32) hp
  · intro r answer req hd htok
    have hreq : Method.respondActivityTaskCompleted.kind.workflowID req = .ok w := by
      apply IsTaskToken.workflowID _ hne
      rw [htok]
      exact htoken
    exact Method.goesTo_of_route r hd (hsticky.route rfl hreq lib.hash32) hp

theorem isTaskToken_sample : IsTaskToken sampleToken (lit "w1") where
  encodes := by
    have henc : Encodes [⟨2, .bytes (lit "w1")⟩] sampleToken :=
      encodes_stringField (by decide) rfl (by decide) (by decide) .nil
    exact ⟨_, henc, by decide, List.mem_cons_self⟩
  length := by decide

theorem arrivals_singleSlot (resp : Except GoString UpstreamResponse)
    {reqStruct : PollTaskQueueRequest} {v : VirtualNamespace}
    (hd : PollKind.workflow.decode sampleExternal (pollBody (lit "orders")) = some reqStruct)
    (hv : (singleSlot (lit "orders") (lit "c1.local:7233")).registry.resolve reqStruct.ns =
      some v) : Arrivals v.getAllNamespaces [⟨orders1, resp⟩] := by
  have hnames : ((singleSlot (lit "orders") (lit "c1.local:7233")).registry.resolve
      (lit "orders")).map (·.getAllNamespaces) = some [orders1] := by decide +kernel
  have hparses : ∀ res ∈ [(⟨orders1, resp⟩ : PollResult)],
      (parsePhysicalNamespace res.physNs).isSome := by
    intro res hres
    rw [List.mem_singleton.mp hres]
    change (parsePhysicalNamespace orders1).isSome
    decide
  cases hd
  exact Arrivals.of_names hnames ⟨List.Subperm.refl _, hparses, fun _ => rfl⟩ hv

def beforeAnswer : List Event :=
  [.registry (.call (lit "orders") (.remove orders1)),
    .request .signalWorkflowExecution ⟨lit "orders", some ⟨lit "w1", []⟩, []⟩]

theorem task_answer_returns_orders :
    let polled := executePoll sampleExternal (singleSlot (lit "orders") (lit "c1.local:7233"))
      (pollBody (lit "orders")) [⟨orders1, .ok sampleResponse⟩]
    let s := beforeAnswer.foldl (Proxy.step sampleExternal) polled.2
    (handleRespondWorkflowTaskCompleted sampleExternal s sampleHttp
      (sampleBody .respondWorkflowTaskCompleted (lit "orders"))).request.host =
        lit "c1.local:7233" := by
  intro polled s
  have hrun : Run (Proxy.Step sampleExternal) polled.2 beforeAnswer s :=
    .snoc (.snoc .nil ⟨trivial, rfl⟩) ⟨trivial, rfl⟩
  have hspares : ∀ e ∈ beforeAnswer, e.Spares sampleExternal (lit "w1") := by
    intro e he
    simp only [beforeAnswer, List.mem_cons, List.not_mem_nil, or_false] at he
    rcases he with rfl | rfl
    · trivial
    · exact fun _ => rfl
  obtain ⟨ns, hp, hanswer, _⟩ := task_answer_returns sampleExternal .workflow
    (singleSlot (lit "orders") (lit "c1.local:7233")) polled.2 s (pollBody (lit "orders"))
    [⟨orders1, .ok sampleResponse⟩] ⟨orders1, .ok sampleResponse⟩ sampleResponse
    (taskOf sampleToken) (lit "w1") beforeAnswer rfl (fun _ _ => arrivals_singleSlot _) rfl
    isTaskToken_sample rfl (by decide) (by decide) hrun hspares
  have hgoes := hanswer sampleHttp (sampleBody .respondWorkflowTaskCompleted (lit "orders"))
    ⟨lit "orders", sampleToken, [], [], []⟩ rfl rfl
  have hns : parsePhysicalNamespace orders1 = some ⟨⟨lit "c1.local:7233"⟩, lit "orders"⟩ := by
    decide
  rw [hns, Option.some.injEq] at hp
  rw [← hp] at hgoes
  exact hgoes.host

end Tempura
