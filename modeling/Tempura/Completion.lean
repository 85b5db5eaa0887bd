import Tempura.Stickiness

namespace Tempura
open Base
set_option autoImplicit true

theorem lookup_step_complete {lib : External} {m : Method} {req : m.Message} (s : Proxy)
    (hw : m.kind.workflowID req = .ok w) (hc : 0 < m.completions req) :
    (s.step lib (.request m req)).db.lookup w = none := by
  rw [Proxy.step, Method.route_of_ok hw]
  exact lookup_replay_deletes _ w hc

theorem stored_step_complete {lib : External} {m : Method} {req : m.Message} (s : Proxy)
    (hw : m.kind.workflowID req = .ok w) (hc : 0 < m.completions req) :
    Mappings.stored (s.step lib (.request m req)).db w = [] := by
  rw [Mappings.stored_eq, lookup_step_complete s hw hc]
  rfl

theorem foldl_step_registry (lib : External) (s : Proxy) (steps : List RegistryStep) :
    (steps.map Event.registry).foldl (Proxy.step lib) s =
      { s with registry := steps.foldl (VirtualNamespaceRegistry.step lib.hash32) s.registry } := by
  induction steps generalizing s with
  | nil => rfl
  | cons st steps ih =>
    rw [List.map_cons, List.foldl_cons, ih]
    rfl

/-- Once a completion was sent out, the next request of the workflow goes to `physNs` exactly when
the ring has `physNs` for it. -/
theorem after_completion_routes_iff (lib : External) (s : Proxy) (w physNs : GoString)
    (m : Method) (req : m.Message) (steps : List RegistryStep) (m' : Method) (req' : m'.Message)
    (hw : m.kind.workflowID req = .ok w) (hc : 0 < m.completions req)
    (hw' : m'.kind.workflowID req' = .ok w) (hne : physNs ≠ []) :
    (m'.route lib.hash32
      ((steps.map Event.registry).foldl (Proxy.step lib) (s.step lib (.request m req))) req').1 =
        .ok physNs ↔
    slotOf lib.hash32 ⟨w, m'.kind.ns req'⟩
      (steps.foldl (VirtualNamespaceRegistry.step lib.hash32) s.registry) = physNs := by
  rw [foldl_step_registry, Proxy.step_request_registry]
  exact Method.route_miss_iff hw' (stored_step_complete s hw hc) hne

def completeW1 : RespondWorkflowTaskCompletedRequest :=
  ⟨lit "orders", sampleToken, [], [⟨.completeWorkflowExecution, []⟩], []⟩

theorem completeW1_workflowID :
    Method.respondWorkflowTaskCompleted.kind.workflowID completeW1 = .ok (lit "w1") := by
  decide +kernel

theorem after_completion_routes_iff_orders :
    (Method.signalWorkflowExecution.route murmur3Sum32
      (placedW1.step sampleExternal (.request .respondWorkflowTaskCompleted completeW1))
      ⟨lit "orders", some ⟨lit "w1", []⟩, []⟩).1 = .ok orders1 :=
  (after_completion_routes_iff sampleExternal placedW1 (lit "w1") orders1
    .respondWorkflowTaskCompleted completeW1 [] .signalWorkflowExecution
    ⟨lit "orders", some ⟨lit "w1", []⟩, []⟩ completeW1_workflowID (by decide) rfl
    (by decide)).mpr placedW1_slot

def replaceOrders1 : List RegistryStep :=
  [.call (lit "orders") (.add orders2), .call (lit "orders") (.remove orders1)]

theorem replacedOrders1_slot : slotOf murmur3Sum32 ⟨lit "w1", lit "orders"⟩
    (replaceOrders1.foldl (VirtualNamespaceRegistry.step murmur3Sum32) placedW1.registry) =
      orders2 := by
  decide +kernel

theorem route_after_replaceOrders1 {m : Method} {req : m.Message}
    (hw : m.kind.workflowID req = .ok (lit "w1")) (hns : m.kind.ns req = lit "orders") :
    (m.route murmur3Sum32 ((replaceOrders1.map Event.registry).foldl (Proxy.step sampleExternal)
      (placedW1.step sampleExternal (.request .respondWorkflowTaskCompleted completeW1)))
      req).1 = .ok orders2 := by
  rw [foldl_step_registry, Proxy.step_request_registry]
  refine (Method.route_miss_iff hw ?_ (by decide)).mpr ?_
  · exact stored_step_complete placedW1 completeW1_workflowID (by decide)
  · rw [hns]
    exact replacedOrders1_slot

/-- The execution is still open on the first slot, but its signal goes to the second. -/
theorem rejected_completion_loses_workflow :
    ¬ ∀ (lib : External) (acts : List Action) (world : World) (w physNs : GoString) (m : Method)
      (req : m.Message) (steps : List RegistryStep) (m' : Method) (req' : m'.Message),
      Run (World.Step lib) ⟨Audited.start.proxy, ∅⟩ acts world → (w, physNs) ∈ world.executions →
      world.proxy.db.lookup w = some physNs →
      m.kind.workflowID req = .ok w → 0 < m.completions req →
      (∀ st ∈ steps, ∃ virtual c, st = .call virtual c) → m'.kind.workflowID req' = .ok w →
      (m'.route lib.hash32 ((steps.map Event.registry).foldl (Proxy.step lib)
        (world.proxy.step lib (.request m req))) req').1 = .ok physNs := by
  intro hall
  have hcalls : ∀ st ∈ replaceOrders1, ∃ virtual c, st = .call virtual c := by
    intro st hst
    simp only [replaceOrders1, List.mem_cons, List.not_mem_nil, or_false] at hst
    rcases hst with rfl | rfl
    · exact ⟨_, _, rfl⟩
    · exact ⟨_, _, rfl⟩
  have h := hall sampleExternal _ _ (lit "w1") orders1 .respondWorkflowTaskCompleted completeW1
    replaceOrders1 .signalWorkflowExecution ⟨lit "orders", some ⟨lit "w1", []⟩, []⟩ startedW1_run
    rfl placedW1_lookup completeW1_workflowID (by decide) hcalls rfl
  have hroute := @route_after_replaceOrders1 .signalWorkflowExecution
    ⟨lit "orders", some ⟨lit "w1", []⟩, []⟩ rfl rfl
  exact absurd (hroute.symm.trans h) (by decide)

/-- A request for `w` that finds no entry is placed on `physNs` by the ring. -/
def Action.Places (lib : External) (w physNs : GoString) (s : Proxy) : Action → Prop
  | .event (.request m req) => m.kind.workflowID req = .ok w → Mappings.stored s.db w = [] →
      slotOf lib.hash32 ⟨w, m.kind.ns req⟩ s.registry = physNs
  | _ => True

/-- `w` is not started again, and `physNs` is where the ring has it whenever that matters. -/
structure World.Undisturbed (lib : External) (w physNs : GoString) (a : World) (act : Action)
    (b : World) : Prop where
  step : World.Step lib a act b
  closed : ∀ Q, (w, Q) ∉ b.executions
  places : act.Places lib w physNs a.proxy

/-- `w` has no open execution, and no entry but one for `physNs`. -/
structure Finished (w physNs : GoString) (world : World) : Prop where
  closed : ∀ Q, (w, Q) ∉ world.executions
  entry : Mappings.stored world.proxy.db w = [] ∨ Mappings.stored world.proxy.db w = physNs

theorem World.Step.task_open {lib : External}
    (h : World.Step lib a (.event (.poll kind virtual arrivals)) b)
    (ht : firstTask lib kind arrivals = some (res, resp, task))
    (hne : getWorkflowId task.workflowExecution ≠ []) :
    (getWorkflowId task.workflowExecution, res.physNs) ∈ a.executions := by
  cases h with
  | internal hi hen => exact hi.elim
  | poll hen hopen => exact hopen res resp task ht hne

theorem Finished.step {lib : External} {a b : World} (h : Finished w physNs a)
    (hw : w ≠ registryKey) (hs : World.Undisturbed lib w physNs a act b) :
    Finished w physNs b where
  closed := hs.closed
  entry := by
    have hproxy := hs.step.proxy_eq
    cases act with
    | close w' physNs' =>
      rw [hproxy]
      exact h.entry
    | event e =>
      have hentry := h.entry
      rw [Mappings.stored_eq] at hentry
      rw [hproxy, Proxy.step_db, Mappings.stored_eq]
      apply lookup_replay_invariant
        (I := fun found => found.getD [] = [] ∨ found.getD [] = physNs) hentry
      intro wr hwr hkey
      cases cause_of_mem_writes e hwr with
      | @resolve m req w' v hw' hmiss hv =>
        cases hkey
        have hplace := hs.places hw' hmiss
        rw [slotOf_of_resolve hv] at hplace
        exact .inr hplace
      | complete => exact .inl rfl
      | task hv ht hne =>
        cases hkey
        exact absurd (hs.step.task_open ht hne) (h.closed _)
      | checkpoint => exact absurd hkey hw

theorem finished_complete {lib : External} {a b : World} {m : Method} {req : m.Message}
    (ha : Sticky a.proxy a.executions) (hopen : (w, physNs) ∈ a.executions)
    (hw : m.kind.workflowID req = .ok w) (hc : 0 < m.completions req)
    (hs : World.Step lib a (.event (.request m req)) b) : Finished w physNs b where
  closed := by
    cases hs with
    | internal hi hen => exact hi.elim
    | request hc' => exact absurd (hc' w hw) (Nat.ne_of_gt hc)
    | start => exact absurd hc (Nat.lt_irrefl 0)
    | complete hc' hw' hr =>
      intro Q hQ
      -- the one open execution is where the request is routed to, and it is closed there
      have hroute := ha.route hQ.1 hw lib.hash32
      rw [hr, Outcome.ok.injEq] at hroute
      rw [hw, Outcome.ok.injEq] at hw'
      exact hQ.2 (by rw [hw', hroute]; rfl)
  entry := by
    rw [hs.proxy_eq]
    exact .inl (stored_step_complete a.proxy hw hc)

/-- After a completion, and as long as the ring places all requests that find no entry there, a read
is routed to where the workflow ran exactly if the ring places it there too. -/
theorem completed_workflow_readable (lib : External) (s₀ : Proxy) (acts acts' : List Action)
    (a b c : World) (w physNs : GoString) (m : Method) (req : m.Message)
    (hrun : Run (World.Step lib) ⟨s₀, ∅⟩ acts a)
    (hk : ∀ act ∈ acts, ¬ act.Names lib registryKey) (hopen : (w, physNs) ∈ a.executions)
    (hw : m.kind.workflowID req = .ok w) (hc : 0 < m.completions req)
    (hdone : World.Step lib a (.event (.request m req)) b)
    (hafter : Run (World.Undisturbed lib w physNs) b acts' c) :
    ∀ (read : Method) (q : read.Message), read.kind.workflowID q = .ok w →
      ((read.route lib.hash32 c.proxy q).1 = .ok physNs ↔
        (Action.event (.request read q)).Places lib w physNs c.proxy) := by
  have hsticky := sticky_of_run hrun hk
  have hfinished : Finished w physNs c := by
    apply hafter.invariant (P := fun _ => True) (finished_complete hsticky hopen hw hc hdone)
      (fun _ _ => trivial)
    intro a act b ha _ hs
    exact ha.step (hsticky.apart w physNs hopen) hs
  have hne := ne_nil_of_parses (hsticky.parses w physNs hopen)
  intro read q hq
  rw [Method.route_eq_iff hq hne]
  constructor
  · rintro (hp | ⟨_, hslot⟩) _ hmiss
    · exact absurd (hp.symm.trans hmiss) hne
    · exact hslot
  · intro hplaces
    cases hfinished.entry with
    | inl hmiss => exact .inr ⟨hmiss, hplaces hq hmiss⟩
    | inr hp => exact .inl hp

theorem completeW1_step :
    World.Step sampleExternal ⟨placedW1, {(lit "w1", orders1)}⟩
      (.event (.request .respondWorkflowTaskCompleted completeW1))
      ⟨placedW1.step sampleExternal (.request .respondWorkflowTaskCompleted completeW1),
        {(lit "w1", orders1)} \ {(lit "w1", orders1)}⟩ := by
  apply World.Step.complete (by decide) completeW1_workflowID
  rw [Method.route_eq_iff completeW1_workflowID (by decide)]
  exact .inl (Mappings.stored_of_lookup placedW1_lookup)

theorem completed_workflow_readable_orders :
    (Method.getWorkflowExecutionHistory.route murmur3Sum32
      (placedW1.step sampleExternal (.request .respondWorkflowTaskCompleted completeW1))
      ⟨lit "orders", some ⟨lit "w1", []⟩, []⟩).1 = .ok orders1 :=
  (completed_workflow_readable sampleExternal _ _ [] _ _ _ (lit "w1") orders1 _ _
    startedW1_run startedW1_names rfl completeW1_workflowID (by decide) completeW1_step .nil
    .getWorkflowExecutionHistory ⟨lit "orders", some ⟨lit "w1", []⟩, []⟩ rfl).mpr
    (fun _ _ => placedW1_slot)

/-- The history of a completed workflow is looked for on the slot that replaced its own. -/
theorem completed_workflow_lost :
    ¬ ∀ (lib : External) (acts acts' : List Action) (a b c : World) (w physNs : GoString)
      (m : Method) (req : m.Message) (q : GetWorkflowExecutionHistoryRequest),
      Run (World.Step lib) ⟨Audited.start.proxy, ∅⟩ acts a →
      (∀ act ∈ acts, ¬ act.Names lib registryKey) → (w, physNs) ∈ a.executions →
      m.kind.workflowID req = .ok w → 0 < m.completions req →
      World.Step lib a (.event (.request m req)) b →
      Run (fun a act b => World.Step lib a act b ∧ ∀ Q, (w, Q) ∉ b.executions) b acts' c →
      Method.getWorkflowExecutionHistory.kind.workflowID q = .ok w →
      (Method.getWorkflowExecutionHistory.route lib.hash32 c.proxy q).1 = .ok physNs := by
  intro hall
  have hclosed : ∀ Q, (lit "w1", Q) ∉
      ({(lit "w1", orders1)} \ {(lit "w1", orders1)} : Set (GoString × GoString)) :=
    fun Q hQ => hQ.2 hQ.1
  have h := hall sampleExternal _ (replaceOrders1.map (fun st => .event (.registry st))) _ _ _
    (lit "w1") orders1 _ _ ⟨lit "orders", some ⟨lit "w1", []⟩, []⟩ startedW1_run startedW1_names
    rfl completeW1_workflowID (by decide) completeW1_step
    (.snoc (.snoc .nil ⟨.internal trivial trivial, hclosed⟩)
      ⟨.internal trivial trivial, hclosed⟩) rfl
  have hroute := @route_after_replaceOrders1 .getWorkflowExecutionHistory
    ⟨lit "orders", some ⟨lit "w1", []⟩, []⟩ rfl rfl
  exact absurd (hroute.symm.trans h) (by decide)

end Tempura
