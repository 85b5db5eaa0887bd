import Tempura.TaskAnswers

namespace Tempura
open Base
set_option autoImplicit true

/-- Each field at most once and in any order, the task queue in field 2. -/
structure IsQueryToken (token : Bytes) (taskQueue : GoString) : Prop where
  encodes : ∃ fs, Encodes fs token ∧ (fs.map WireField.num).Nodup ∧
    (⟨2, .bytes taskQueue⟩ ∈ fs ∨ taskQueue = [] ∧ 2 ∉ fs.map WireField.num)
  length : token.length < 2 ^ 63

theorem IsQueryToken.workflowID (h : IsQueryToken token taskQueue) :
    tokenWorkflowID token [] = .ok taskQueue := by
  obtain ⟨fs, henc, hnd, hfield⟩ := h.encodes
  rw [tokenWorkflowID, extractWorkflowID_encodes henc h.length]
  cases hfield with
  | inl hmem =>
    rw [firstBytes_of_nodup hmem hnd]
    by_cases hq : taskQueue = []
    · rw [hq]
      rfl
    · simp only [if_neg hq]
  | inr hnone =>
    obtain ⟨rfl, hnot⟩ := hnone
    rw [firstBytes_of_not_mem hnot]

theorem taskMapping_of_no_workflowId (h : getWorkflowId task.workflowExecution = []) :
    taskMapping physNs task = none := by
  rw [taskMapping]
  cases he : task.workflowExecution with
  | none => rfl
  | some execution =>
    rw [he] at h
    exact if_neg (not_not_intro h)

theorem stored_cache_taskMapping (s : Proxy) (physNs : GoString) (task : PollTaskQueueResponse)
    (key : GoString) :
    Mappings.stored (s.cache (taskMapping physNs task)).db key =
      if key ≠ [] ∧ key = getWorkflowId task.workflowExecution then physNs
      else Mappings.stored s.db key := by
  by_cases hw : getWorkflowId task.workflowExecution = []
  · rw [taskMapping_of_no_workflowId hw, if_neg (fun h => h.1 (h.2.trans hw))]
    rfl
  · rw [taskMapping_of_workflowId rfl hw, Mappings.stored_eq, Mappings.stored_eq, Proxy.cache,
      Mappings.put, FiniteMap.lookup_insert_ite]
    by_cases hk : key = getWorkflowId task.workflowExecution
    · rw [if_pos hk, if_pos ⟨hk ▸ hw, hk⟩]
      rfl
    · rw [if_neg hk, if_neg (fun h => hk h.2)]

/-- The answer goes back to its cluster exactly when the task queue, looked up as a workflow id, is
that of the task, or has an entry for the cluster, or is placed there by the ring. -/
theorem query_answer_returns_iff (lib : External) (kind : PollKind) (s s' : Proxy)
    (bodyBytes : Bytes) (arrivals : List PollResult) (res : PollResult) (resp : UpstreamResponse)
    (task : PollTaskQueueResponse) (taskQueue : GoString) (req : RespondQueryTaskCompletedRequest)
    (hpoll : kind.execute lib s bodyBytes arrivals = (.ok resp, s'))
    (harr : ∀ reqStruct v, kind.decode lib bodyBytes = some reqStruct →
      s.registry.resolve reqStruct.ns = some v → Arrivals v.getAllNamespaces arrivals)
    (ht : firstTask lib kind arrivals = some (res, resp, task))
    (htoken : IsQueryToken task.taskToken taskQueue) (hreq : req.taskToken = task.taskToken) :
    ((Method.respondQueryTaskCompleted.route lib.hash32 s' req).1 = .ok res.physNs ↔
      (taskQueue ≠ [] ∧ taskQueue = getWorkflowId task.workflowExecution) ∨
      Mappings.stored s.db taskQueue = res.physNs ∨
      Mappings.stored s.db taskQueue = [] ∧
        slotOf lib.hash32 ⟨taskQueue, req.ns⟩ s.registry = res.physNs) ∧
    ((Method.respondQueryTaskCompleted.route lib.hash32 s' req).1 = .ok res.physNs →
      ∃ ns, parsePhysicalNamespace res.physNs = some ns ∧
        ∀ r answer, Method.respondQueryTaskCompleted.decode lib answer = some req →
          Method.respondQueryTaskCompleted.GoesTo lib s' r answer req ns) := by
  obtain ⟨reqStruct, hd, hfan⟩ := PollKind.execute_ok hpoll
  obtain ⟨v, hv, _, rfl⟩ := fanOut_ok hfan
  have hparse := (harr reqStruct v hd hv).parses res (mem_of_firstTask ht)
  have hw : Method.respondQueryTaskCompleted.kind.workflowID req = .ok taskQueue := by
    change tokenWorkflowID req.taskToken [] = _
    rw [hreq]
    exact htoken.workflowID
  have hreg : (s.cache (taskMapping res.physNs task)).registry = s.registry := by
    cases taskMapping res.physNs task <;> rfl
  constructor
  · rw [Method.route_eq_iff hw (ne_nil_of_parses hparse), pollLoop_of_first ht, hreg,
      stored_cache_taskMapping]
    by_cases hq : taskQueue ≠ [] ∧ taskQueue = getWorkflowId task.workflowExecution
    · rw [if_pos hq]
      exact iff_of_true (.inl rfl) (.inl hq)
    · rw [if_neg hq, or_iff_right hq]
      rfl
  · intro hroute
    obtain ⟨ns, hp⟩ := Option.isSome_iff_exists.mp hparse
    exact ⟨ns, hp, fun r answer hda => Method.goesTo_of_route r hda hroute hp⟩

def queryToken : Bytes :=
  stringField 10 (lit "ns") ++ stringField 18 (lit "queue") ++ stringField 26 (lit "q1")

theorem isQueryToken_sample : IsQueryToken queryToken (lit "queue") where
  encodes := by
    have henc : Encodes [⟨1, .bytes (lit "ns")⟩, ⟨2, .bytes (lit "queue")⟩, ⟨3, .bytes (lit "q1")⟩]
        queryToken :=
      encodes_stringField (by decide) rfl (by decide) (by decide)
        (encodes_stringField (by decide) rfl (by decide) (by decide)
          (encodes_stringField (by decide) rfl (by decide) (by decide) .nil))
    exact ⟨_, henc, by decide, .inl (by decide)⟩
  length := by decide

theorem query_answer_returns_iff_orders :
    let polled := executePoll sampleExternal (singleSlot (lit "orders") (lit "c1.local:7233"))
      (pollBody (lit "orders")) [⟨orders1, .ok (taskResponse queryToken)⟩]
    (Method.respondQueryTaskCompleted.route murmur3Sum32 polled.2
      ⟨lit "orders", queryToken, []⟩).1 = .ok orders1 := by
  intro polled
  have h := (query_answer_returns_iff sampleExternal .workflow
    (singleSlot (lit "orders") (lit "c1.local:7233")) polled.2 (pollBody (lit "orders"))
    [⟨orders1, .ok (taskResponse queryToken)⟩] ⟨orders1, .ok (taskResponse queryToken)⟩
    (taskResponse queryToken) (taskOf queryToken) (lit "queue") ⟨lit "orders", queryToken, []⟩ rfl
    (fun _ _ => arrivals_singleSlot _) rfl isQueryToken_sample rfl).1
  exact h.mpr (.inr (.inr ⟨by decide +kernel, by decide +kernel⟩))

def twoSlots : List Event :=
  [.registry (.create (lit "orders")),
    .registry (.call (lit "orders") (.add orders1)),
    .registry (.call (lit "orders") (.add orders2)),
    startW1]

theorem twoSlots_run (lib : External) :
    Run (Audited.Step lib) Audited.start twoSlots
      (twoSlots.foldl (Audited.next lib) Audited.start) := by
  apply Audited.run_foldl
  intro e he s
  simp only [twoSlots, List.mem_cons, List.not_mem_nil, or_false] at he
  rcases he with rfl | rfl | rfl | rfl <;> trivial

/-- The ring places the name of the task queue on the other slot. -/
theorem query_answer_goes_astray :
    ¬ ∀ (lib : External) (es : List Event) (a : Audited) (s' : Proxy) (bodyBytes : Bytes)
      (arrivals : List PollResult) (res : PollResult) (resp : UpstreamResponse)
      (task : PollTaskQueueResponse) (taskQueue : GoString)
      (req : RespondQueryTaskCompletedRequest),
      Run (Audited.Step lib) Audited.start es a →
      executePoll lib a.proxy bodyBytes arrivals = (.ok resp, s') →
      (∀ reqStruct v, PollKind.workflow.decode lib bodyBytes = some reqStruct →
        a.proxy.registry.resolve reqStruct.ns = some v → Arrivals v.getAllNamespaces arrivals) →
      firstTask lib .workflow arrivals = some (res, resp, task) →
      IsQueryToken task.taskToken taskQueue → req.taskToken = task.taskToken →
      (Method.respondQueryTaskCompleted.route lib.hash32 s' req).1 = .ok res.physNs := by
  intro hall
  have hnames : ((twoSlots.foldl (Audited.next sampleExternal)
      Audited.start).proxy.registry.resolve (lit "orders")).map (·.getAllNamespaces) =
      some [orders2, orders1] := by decide +kernel
  have hroute := hall sampleExternal twoSlots _ _ (pollBody (lit "orders"))
    [⟨orders1, .ok (taskResponse queryToken)⟩, ⟨orders2, .error (lit "deadline exceeded")⟩]
    ⟨orders1, .ok (taskResponse queryToken)⟩ (taskResponse queryToken) (taskOf queryToken)
    (lit "queue") ⟨lit "orders", queryToken, []⟩ (twoSlots_run sampleExternal) rfl
    (by
      intro reqStruct v hd hv
      cases hd
      exact Arrivals.of_names hnames ⟨(List.Perm.swap _ _ _).subperm, by decide, fun _ => rfl⟩ hv)
    rfl isQueryToken_sample rfl
  revert hroute
  decide +kernel

end Tempura
