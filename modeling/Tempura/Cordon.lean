import Tempura.Completion

namespace Tempura
open Base
set_option autoImplicit true

/-- Every vnode of the ring stands for an active name and is one of its points. -/
def VirtualNamespace.RingActive (hash32 : GoString → UInt32) (v : VirtualNamespace) : Prop :=
  ∀ h slot, v.ring.vnodeToSlot.lookup h = some slot →
    v.namespaces.lookup slot = some .active ∧ h ∈ vnodeHashes hash32 v.ring.virtualNodes slot

theorem ringActive_new (hash32 : GoString → UInt32) (name : GoString) :
    (newVirtualNamespace name).RingActive hash32 := by
  intro h slot hl
  cases hl

theorem VirtualNamespace.RingActive.add {v : VirtualNamespace} (hv : v.RingActive hash32)
    (name : GoString) : (v.add hash32 name).RingActive hash32 := by
  intro h slot hl
  have hnodes : (v.add hash32 name).ring.virtualNodes = v.ring.virtualNodes :=
    ConsistentHash.addSlot_virtualNodes v.ring name
  rw [add_lookup, hnodes]
  obtain ⟨hmem, rfl⟩ | hold := ConsistentHash.addSlot_owner hl
  · exact ⟨if_pos rfl, hmem⟩
  · obtain ⟨hactive, hmem⟩ := hv h slot hold
    refine ⟨?_, hmem⟩
    split
    · rfl
    · exact hactive

/-- A cordoned name loses all its vnodes, since they are among its points. -/
theorem VirtualNamespace.RingActive.remove {v : VirtualNamespace} (hv : v.RingActive hash32)
    (name : GoString) : (v.remove hash32 name).2.RingActive hash32 := by
  intro h slot hl
  rw [remove_ring] at hl
  rw [remove_lookup, remove_ring, ConsistentHash.removeSlot_virtualNodes]
  obtain ⟨hnot, hold⟩ := ConsistentHash.removeSlot_owner hl
  obtain ⟨hactive, hmem⟩ := hv h slot hold
  have hne : slot ≠ name := by
    rintro rfl
    exact hnot hmem
  exact ⟨(if_neg hne).trans hactive, hmem⟩

theorem VirtualNamespace.RingActive.call {v : VirtualNamespace} (hv : v.RingActive hash32)
    (c : NamespaceCall) : (v.call hash32 c).RingActive hash32 := by
  cases c with
  | add name => exact hv.add name
  | remove name => exact hv.remove name

theorem VirtualNamespace.RingActive.getSlot {v : VirtualNamespace} (hv : v.RingActive hash32)
    (hne : v.ring.getSlot hash32 key ≠ []) :
    v.namespaces.lookup (v.ring.getSlot hash32 key) = some .active := by
  obtain ⟨h, hl⟩ := ConsistentHash.lookup_of_getSlot hne
  exact (hv h _ hl).1

def RegistryActive (hash32 : GoString → UInt32) (reg : VirtualNamespaceRegistry) : Prop :=
  ∀ name v, reg.resolve name = some v → v.RingActive hash32

theorem RegistryActive.step (h : RegistryActive hash32 reg) (st : RegistryStep) :
    RegistryActive hash32 (reg.step hash32 st) := by
  intro name v' hv'
  obtain hv | ⟨v, c, _, hv, rfl⟩ | ⟨_, _, rfl⟩ :=
    VirtualNamespaceRegistry.resolve_step_cases st hv'
  · exact h name v' hv
  · exact (h name v hv).call c
  · exact ringActive_new hash32 name

def Action.InProcess : Action → Prop
  | .event e => e.InProcess
  | .close _ _ => True

theorem World.registry_invariant {lib : External} {I : VirtualNamespaceRegistry → Prop}
    {world : World} (hrun : Run (World.Step lib) ⟨Audited.start.proxy, ∅⟩ acts world)
    (hacts : ∀ act ∈ acts, act.InProcess) (h0 : I .empty)
    (hstep : ∀ reg st, Action.event (.registry st) ∈ acts → I reg → I (reg.step lib.hash32 st)) :
    I world.proxy.registry := by
  apply hrun.invariant (I := fun world => I world.proxy.registry)
    (P := fun act => act ∈ acts) h0 (fun act hact => hact)
  intro a act b ha hact hs
  have hproxy := hs.proxy_eq
  cases act with
  | close w physNs =>
    rw [hproxy]
    exact ha
  | event e =>
    rw [hproxy]
    obtain hr | ⟨st, rfl, hr⟩ := @registry_step_cases lib a.proxy e (hacts _ hact)
    · rw [hr]
      exact ha
    · rw [hr]
      exact hstep _ st hact ha

theorem start_active_iff {s : Proxy} {req : StartWorkflowExecutionRequest}
    (hactive : v.RingActive hash32) (hv : s.registry.resolve req.ns = some v)
    (hr : (Method.startWorkflowExecution.route hash32 s req).1 = .ok physNs) (hne : physNs ≠ []) :
    v.namespaces.lookup physNs = some .active ↔
      Mappings.stored s.db req.workflowId = [] ∨
        v.namespaces.lookup (Mappings.stored s.db req.workflowId) = some .active := by
  have hw : Method.startWorkflowExecution.kind.workflowID req = .ok req.workflowId := rfl
  obtain hs | ⟨hmiss, hslot⟩ := (Method.route_eq_iff hw hne).mp hr
  · rw [hs]
    exact (or_iff_right hne).symm
  · rw [slotOf_of_resolve hv] at hslot
    subst hslot
    exact iff_of_true (hactive.getSlot hne) (.inl hmiss)

theorem registryLockstep_empty (hash32 : GoString → UInt32) (U : Set GoString) :
    RegistryLockstep hash32 U .empty := by
  intro name v hv
  rw [VirtualNamespaceRegistry.resolve_empty] at hv
  cases hv

/-- A start lands on an active name exactly when the store has no entry for its workflow id, or one
for an active name. -/
theorem start_lands_on_active_iff (lib : External) (acts : List Action) (world : World)
    (req : StartWorkflowExecutionRequest) (v : VirtualNamespace)
    (hrun : Run (World.Step lib) ⟨Audited.start.proxy, ∅⟩ acts world)
    (hacts : ∀ act ∈ acts, act.InProcess)
    (hv : world.proxy.registry.resolve req.ns = some v) :
    (∀ physNs, (Method.startWorkflowExecution.route lib.hash32 world.proxy req).1 = .ok physNs →
      physNs ≠ [] →
      (v.namespaces.lookup physNs = some .active ↔
        Mappings.stored world.proxy.db req.workflowId = [] ∨
          v.namespaces.lookup (Mappings.stored world.proxy.db req.workflowId) = some .active)) ∧
    (∀ U : Set GoString, Separate (vnodePoints lib.hash32 defaultVirtualNodes) U → [] ∉ U →
      (∀ virtual c, Action.event (.registry (.call virtual c)) ∈ acts → c.name ∈ U) →
      v.activeNames.Nonempty → Mappings.stored world.proxy.db req.workflowId = [] →
      ∃ physNs, physNs ≠ [] ∧
        (Method.startWorkflowExecution.route lib.hash32 world.proxy req).1 = .ok physNs) := by
  have hw : Method.startWorkflowExecution.kind.workflowID req = .ok req.workflowId := rfl
  constructor
  · have hactive : RegistryActive lib.hash32 world.proxy.registry :=
      World.registry_invariant hrun hacts nofun (fun reg st _ h => h.step st)
    intro physNs hr hne
    exact start_active_iff (hactive _ v hv) hv hr hne
  · intro U hsep hnil hU hsome hmiss
    have hlockstep : RegistryLockstep lib.hash32 U world.proxy.registry := by
      apply World.registry_invariant hrun hacts (registryLockstep_empty lib.hash32 U)
      rintro reg st hst h
      apply h.step hsep
      rintro virtual c rfl
      exact hU virtual c hst
    obtain ⟨hlock, hsub⟩ := hlockstep _ v hv
    obtain ⟨hempty, _⟩ | hmem := hlock.getSlot_eq_nil_or req.workflowId
    · rw [hempty] at hsome
      exact absurd hsome Set.not_nonempty_empty
    · have hne : v.ring.getSlot lib.hash32 req.workflowId ≠ [] := fun hn => hnil (hn ▸ hsub hmem)
      exact ⟨_, hne, (Method.route_miss_iff hw hmiss hne).mpr (slotOf_of_resolve hv)⟩

theorem startedW1_inProcess : ∀ act ∈ startedW1.map Action.event, act.InProcess := by
  intro act hact
  simp only [startedW1, List.map_cons, List.map_nil, List.mem_cons, List.not_mem_nil,
    or_false] at hact
  rcases hact with rfl | rfl | rfl <;> trivial

theorem start_lands_on_active_iff_orders : ∃ v,
    placedW1.registry.resolve (lit "orders") = some v ∧
      v.namespaces.lookup orders1 = some .active := by
  have hsome : (placedW1.registry.resolve (lit "orders")).isSome := by decide +kernel
  obtain ⟨v, hv⟩ := Option.isSome_iff_exists.mp hsome
  have hroute : (Method.startWorkflowExecution.route murmur3Sum32 placedW1
      ⟨lit "orders", lit "w2", []⟩).1 = .ok orders1 := by decide +kernel
  have hmiss : Mappings.stored placedW1.db (lit "w2") = [] := by decide +kernel
  exact ⟨v, hv, ((start_lands_on_active_iff sampleExternal _ _ ⟨lit "orders", lit "w2", []⟩ v
    startedW1_run startedW1_inProcess hv).1 orders1 hroute (by decide)).mpr (.inl hmiss)⟩

def replacedW1 : Proxy :=
  (replaceOrders1.map Event.registry).foldl (Proxy.step sampleExternal) placedW1

theorem replacedW1_statuses : ∃ v, replacedW1.registry.resolve (lit "orders") = some v ∧
    v.namespaces.lookup orders1 = some .cordoned ∧ v.namespaces.lookup orders2 = some .active := by
  have h : (replacedW1.registry.resolve (lit "orders")).map
      (fun v => (v.namespaces.lookup orders1, v.namespaces.lookup orders2)) =
      some (some .cordoned, some .active) := by decide +kernel
  obtain ⟨v, hv, hl⟩ := Option.map_eq_some_iff.mp h
  exact ⟨v, hv, Prod.mk.inj hl⟩

/-- The entry of an execution that ended by itself leads the next start to a cordoned slot. -/
theorem start_lands_on_cordoned :
    ¬ ∀ (lib : External) (acts : List Action) (world : World)
      (req : StartWorkflowExecutionRequest) (v : VirtualNamespace) (physNs : GoString),
      Run (World.Step lib) ⟨Audited.start.proxy, ∅⟩ acts world →
      (∀ act ∈ acts, act.InProcess) → (∀ Q, (req.workflowId, Q) ∉ world.executions) →
      world.proxy.registry.resolve req.ns = some v → v.activeNames.Nonempty →
      (Method.startWorkflowExecution.route lib.hash32 world.proxy req).1 = .ok physNs →
      v.namespaces.lookup physNs = some .active := by
  intro hall
  obtain ⟨v, hv, hcordoned, hactive⟩ := replacedW1_statuses
  have hrun : Run (World.Step sampleExternal) ⟨Audited.start.proxy, ∅⟩
      (startedW1.map .event ++ [.close (lit "w1") orders1] ++
        [.event (.registry (.call (lit "orders") (.add orders2)))] ++
        [.event (.registry (.call (lit "orders") (.remove orders1)))])
      ⟨replacedW1, {(lit "w1", orders1)} \ {(lit "w1", orders1)}⟩ :=
    .snoc (.snoc (.snoc startedW1_run .close) (.internal trivial trivial))
      (.internal trivial trivial)
  have hacts : ∀ act ∈ startedW1.map Action.event ++ [.close (lit "w1") orders1] ++
      [.event (.registry (.call (lit "orders") (.add orders2)))] ++
      [.event (.registry (.call (lit "orders") (.remove orders1)))], act.InProcess := by
    intro act hact
    simp only [List.mem_append, List.mem_singleton] at hact
    rcases hact with ((hact | rfl) | rfl) | rfl
    · exact startedW1_inProcess act hact
    · trivial
    · trivial
    · trivial
  have hroute : (Method.startWorkflowExecution.route murmur3Sum32 replacedW1
      ⟨lit "orders", lit "w1", []⟩).1 = .ok orders1 := by
    have hdb : replacedW1.db = placedW1.db := by rw [replacedW1, foldl_step_registry]
    rw [Method.route_eq_iff rfl (by decide), hdb]
    exact .inl (Mappings.stored_of_lookup placedW1_lookup)
  have h := hall sampleExternal _ _ ⟨lit "orders", lit "w1", []⟩ v orders1 hrun hacts
    (fun Q hQ => hQ.2 hQ.1) hv ⟨orders2, hactive⟩ hroute
  rw [hcordoned] at h
  cases h

end Tempura
