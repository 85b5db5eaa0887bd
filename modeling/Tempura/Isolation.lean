import Tempura.StoreSeparation

namespace Tempura
open Base
set_option autoImplicit true

/-- Every vnode of the ring stands for a name of the status map. -/
def VirtualNamespace.RingNamed (v : VirtualNamespace) : Prop :=
  ∀ h slot, v.ring.vnodeToSlot.lookup h = some slot → slot ∈ v.getAllNamespaces

theorem ringNamed_new (name : GoString) : (newVirtualNamespace name).RingNamed := by
  intro h slot hl
  cases hl

theorem VirtualNamespace.RingNamed.call {v : VirtualNamespace} (hv : v.RingNamed)
    (hash32 : GoString → UInt32) (c : NamespaceCall) : (v.call hash32 c).RingNamed := by
  intro h slot hl
  cases c with
  | add name =>
    obtain ⟨_, rfl⟩ | hold := ConsistentHash.addSlot_owner hl
    · exact mem_getAllNamespaces_add v slot
    · exact getAllNamespaces_add_subset v name (hv h slot hold)
  | remove name =>
    rw [VirtualNamespace.call, remove_ring] at hl
    obtain ⟨_, hold⟩ := ConsistentHash.removeSlot_owner hl
    exact mem_getAllNamespaces_remove.mpr (hv h slot hold)

theorem VirtualNamespace.RingNamed.getSlot_mem {v : VirtualNamespace} (hv : v.RingNamed)
    {hash32 : GoString → UInt32} (hne : v.ring.getSlot hash32 key ≠ []) :
    v.ring.getSlot hash32 key ∈ v.getAllNamespaces := by
  obtain ⟨h, hl⟩ := ConsistentHash.lookup_of_getSlot hne
  exact hv h _ hl

def RegistryNamed (reg : VirtualNamespaceRegistry) : Prop :=
  ∀ name v, reg.resolve name = some v → v.RingNamed

theorem RegistryNamed.step (h : RegistryNamed reg) (hash32 : GoString → UInt32)
    (st : RegistryStep) : RegistryNamed (reg.step hash32 st) := by
  intro name v' hv'
  obtain hv | ⟨v, c, _, hv, rfl⟩ | ⟨_, _, rfl⟩ :=
    VirtualNamespaceRegistry.resolve_step_cases st hv'
  · exact h name v' hv
  · exact (h name v hv).call hash32 c
  · exact ringNamed_new name

def Event.InProcess : Event → Prop
  | .restart _ => False
  | _ => True

theorem registry_step_cases {lib : External} {s : Proxy} {e : Event} (he : e.InProcess) :
    (s.step lib e).registry = s.registry ∨
      ∃ st, e = .registry st ∧ (s.step lib e).registry = s.registry.step lib.hash32 st := by
  cases e with
  | registry st => exact .inr ⟨st, rfl, rfl⟩
  | request m req => exact .inl (Proxy.step_request_registry lib s m req)
  | poll kind virtual arrivals =>
    rw [Proxy.step, fanOut_proxy]
    exact .inl rfl
  | checkpoint => exact .inl rfl
  | restart visit => exact he.elim

theorem registry_step_mono {lib : External} {s : Proxy} {e : Event} (he : e.InProcess)
    (hv : s.registry.resolve virtual = some v) :
    ∃ v', (s.step lib e).registry.resolve virtual = some v' ∧
      ∀ slot ∈ v.getAllNamespaces, slot ∈ v'.getAllNamespaces := by
  obtain hr | ⟨st, _, hr⟩ := @registry_step_cases lib s e he
  · rw [hr]
    exact ⟨v, hv, fun slot hs => hs⟩
  · rw [hr]
    exact VirtualNamespaceRegistry.resolve_step_mono st hv

theorem registryNamed_step {lib : External} {s : Proxy} {e : Event} (he : e.InProcess)
    (h : RegistryNamed s.registry) : RegistryNamed (s.step lib e).registry := by
  obtain hr | ⟨st, _, hr⟩ := @registry_step_cases lib s e he
  · rw [hr]
    exact h
  · rw [hr]
    exact h.step lib.hash32 st

/-- Rings know registered names only, and mappings are to names of their virtual namespace. -/
structure Owned (a : Audited) : Prop where
  named : RegistryNamed a.proxy.registry
  listed : ∀ w virtual slot, latest w a.log = some (.tenant virtual, slot) → slot ≠ [] →
    ∃ v, a.proxy.registry.resolve virtual = some v ∧ slot ∈ v.getAllNamespaces

theorem owned_start : Owned Audited.start where
  named := nofun
  listed := nofun

theorem Cause.listed {lib : External} {s : Proxy} {e : Event} (hen : e.Enabled lib s)
    (hn : RegistryNamed s.registry) (h : Cause lib s e (.put (.tenant virtual) w slot))
    (hne : slot ≠ []) :
    ∃ v, s.registry.resolve virtual = some v ∧ slot ∈ v.getAllNamespaces := by
  cases h with
  | @resolve m req _ v hw hmiss hv => exact ⟨v, hv, (hn _ v hv).getSlot_mem hne⟩
  | @task kind _ v res arrivals resp task hv ht hw =>
    exact ⟨v, hv, (hen v hv).tags.subset (List.mem_map_of_mem (mem_of_firstTask ht))⟩

theorem Owned.next {lib : External} {a : Audited} {e : Event} (h : Owned a) (he : e.InProcess)
    (hen : e.Enabled lib a.proxy) : Owned (a.next lib e) where
  named := registryNamed_step he h.named
  listed := by
    intro w virtual slot hl hne
    obtain ⟨v, hv, hmem⟩ : ∃ v, a.proxy.registry.resolve virtual = some v ∧
        slot ∈ v.getAllNamespaces := by
      cases latest_append_cases hl with
      | inl hold => exact h.listed w virtual slot hold hne
      | inr hnew => exact (cause_of_mem_writes e (mem_of_latest hnew)).listed hen h.named hne
    obtain ⟨v', hv', hsub⟩ := registry_step_mono he hv
    exact ⟨v', hv', hsub slot hmem⟩

/-- A resolution answers with a slot of its own virtual namespace, provided the entry it finds, if
any, was written for that virtual namespace. -/
theorem tenant_isolation (lib : External) (es : List Event) (a : Audited) (payload : Payload)
    (v : VirtualNamespace) (hrun : Run (Audited.Step lib) Audited.start es a)
    (hes : ∀ e ∈ es, e.InProcess)
    (hv : a.proxy.registry.resolve payload.virtualNamespace = some v)
    (hown : ∀ origin slot, latest payload.workflowID a.log = some (origin, slot) →
      origin = .tenant payload.virtualNamespace)
    (hne : (a.proxy.resolve lib.hash32 payload).1.1 ≠ []) :
    (a.proxy.resolve lib.hash32 payload).1.1 ∈ v.getAllNamespaces := by
  have howned : Owned a := by
    apply hrun.invariant owned_start hes
    intro a e a' ha he hs
    obtain ⟨hen, rfl⟩ := hs
    exact ha.next he hen
  by_cases hs : Mappings.stored a.proxy.db payload.workflowID ≠ []
  · rw [Proxy.resolve_hit hs]
    have hl := Audited.lookup_eq hrun payload.workflowID
    rw [Mappings.lookup_of_stored rfl hs] at hl
    obtain ⟨⟨origin, slot⟩, ht, hslot⟩ := Option.map_eq_some_iff.mp hl.symm
    cases hown origin slot ht
    change slot = _ at hslot
    rw [← hslot] at hs ⊢
    obtain ⟨v', hv', hmem⟩ := howned.listed _ _ _ ht hs
    rw [hv, Option.some.injEq] at hv'
    rw [hv']
    exact hmem
  · rw [Proxy.resolve_miss (not_not.mp hs) hv] at hne ⊢
    exact (howned.named _ v hv).getSlot_mem hne

def twoTenants : List Event :=
  [.registry (.create (lit "orders")),
    .registry (.create (lit "billing")),
    .registry (.call (lit "orders") (.add orders1)),
    .registry (.call (lit "billing") (.add orders2)),
    startW1]

theorem twoTenants_run (lib : External) :
    Run (Audited.Step lib) Audited.start twoTenants
      (twoTenants.foldl (Audited.next lib) Audited.start) ∧
    ∀ e ∈ twoTenants, e.InProcess := by
  constructor
  · apply Audited.run_foldl
    intro e he s
    simp only [twoTenants, List.mem_cons, List.not_mem_nil, or_false] at he
    rcases he with rfl | rfl | rfl | rfl | rfl <;> trivial
  · intro e he
    simp only [twoTenants, List.mem_cons, List.not_mem_nil, or_false] at he
    rcases he with rfl | rfl | rfl | rfl | rfl <;> trivial

theorem tenant_isolation_orders :
    let s := (twoTenants.foldl (Audited.next sampleExternal) Audited.start).proxy
    ∃ v, s.registry.resolve (lit "orders") = some v ∧
      (s.resolve murmur3Sum32 ⟨lit "w1", lit "orders"⟩).1.1 ∈ v.getAllNamespaces := by
  intro s
  have hsome : (s.registry.resolve (lit "orders")).isSome := by decide +kernel
  obtain ⟨v, hv⟩ := Option.isSome_iff_exists.mp hsome
  obtain ⟨hrun, hes⟩ := twoTenants_run sampleExternal
  refine ⟨v, hv, tenant_isolation sampleExternal twoTenants _ ⟨lit "w1", lit "orders"⟩ v hrun hes
    hv ?_ (by decide +kernel)⟩
  intro origin slot hl
  have hlog : (latest (lit "w1") (twoTenants.foldl (Audited.next sampleExternal)
      Audited.start).log).map (·.1) = some (.tenant (lit "orders")) := by decide +kernel
  rw [hl] at hlog
  exact Option.some.inj hlog

/-- The store is keyed by the workflow id alone, which two virtual namespaces may share. -/
theorem mapping_crosses_tenants :
    ¬ ∀ (lib : External) (es : List Event) (a : Audited) (payload : Payload)
      (v : VirtualNamespace), Run (Audited.Step lib) Audited.start es a →
      (∀ e ∈ es, e.InProcess) →
      a.proxy.registry.resolve payload.virtualNamespace = some v →
      (a.proxy.resolve lib.hash32 payload).1.1 ≠ [] →
      (a.proxy.resolve lib.hash32 payload).1.1 ∈ v.getAllNamespaces := by
  intro hall
  have hsome : (((twoTenants.foldl (Audited.next sampleExternal)
      Audited.start).proxy.registry.resolve (lit "billing")).map (·.getAllNamespaces)) =
      some [orders2] := by decide +kernel
  obtain ⟨v, hv, hnames⟩ := Option.map_eq_some_iff.mp hsome
  obtain ⟨hrun, hes⟩ := twoTenants_run sampleExternal
  have hmem := hall sampleExternal twoTenants _ ⟨lit "w1", lit "billing"⟩ v hrun hes hv
    (by decide +kernel)
  rw [hnames] at hmem
  revert hmem
  decide +kernel

end Tempura
