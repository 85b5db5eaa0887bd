import Mathlib.Logic.Function.Basic
import Tempura.Checkpoint
import Tempura.Base.Run

namespace Tempura
open Base
set_option autoImplicit true

/-- Every virtual namespace of the one schema is in the other, with all its slots. -/
def Schema.Within (schema schema' : Schema) : Prop :=
  ∀ name slots, schema.lookup name = some slots →
    ∃ slots', schema'.lookup name = some slots' ∧ ∀ slot ∈ slots.keys, slot ∈ slots'.keys

theorem Schema.Within.refl (schema : Schema) : schema.Within schema :=
  fun _ slots h => ⟨slots, h, fun _ hs => hs⟩

theorem Schema.Within.trans {a b c : Schema} (hab : a.Within b) (hbc : b.Within c) :
    a.Within c := by
  intro name slots h
  obtain ⟨slots', h', hsub⟩ := hab name slots h
  obtain ⟨slots'', h'', hsub'⟩ := hbc name slots' h'
  exact ⟨slots'', h'', fun slot hs => hsub' slot (hsub slot hs)⟩

theorem schema_within_step (hash32 : GoString → UInt32) (reg : VirtualNamespaceRegistry)
    (st : RegistryStep) : reg.schema.Within (reg.step hash32 st).schema := by
  intro name slots h
  rw [schema_lookup] at h
  obtain ⟨v, hv, rfl⟩ := Option.map_eq_some_iff.mp h
  obtain ⟨v', hv', hsub⟩ :=
    @VirtualNamespaceRegistry.resolve_step_mono hash32 reg name v st hv
  refine ⟨v'.getAllNamespacesWithStatus, ?_, hsub⟩
  rw [schema_lookup, hv']
  rfl

theorem schema_within_load (hash32 : GoString → UInt32) {schema : Schema}
    (hvisit : Visits schema visit) : schema.Within (loadSchema hash32 visit).schema := by
  intro name slots h
  obtain ⟨loaded, hperm, hload⟩ := resolve_loadSchema hash32 hvisit h
  refine ⟨_, ?_, fun slot hs => (mem_getAllNamespaces_loadNamespace hash32 name hperm).mpr hs⟩
  rw [schema_lookup, hload]
  rfl

/-- Processes that share the registry's key, and how many checkpoints each knows of. -/
structure Fleet (ι : Type) where
  key : Option GoString
  process : ι → Option VirtualNamespaceRegistry
  written : List Schema
  known : ι → Nat

inductive FleetEvent (ι : Type) where
  | start (i : ι) (reply : Option GoString) (visit : SchemaVisit)
  | stop (i : ι)
  | registry (i : ι) (st : RegistryStep)
  | checkpoint (i : ι)

namespace Fleet

def start (ι : Type) : Fleet ι := ⟨none, fun _ => none, [], fun _ => 0⟩

section Steps
variable {ι : Type} [DecidableEq ι] (hash32 : GoString → UInt32) (json : SchemaCodec)

inductive Step : Fleet ι → FleetEvent ι → Fleet ι → Prop
  /-- The read of a new process yields what the key holds, or fails, or yields what cannot be
  decoded. -/
  | start {f : Fleet ι} {i : ι} {reply : Option GoString} {visit : SchemaVisit}
      (hreply : reply = f.key ∨
        ∀ text schema, reply = some text → json.unmarshal text ≠ .ok schema)
      (hvisit : VisitsReply json reply visit) :
      Step f (.start i reply visit)
        { f with
          process := Function.update f.process i
            (some (newVirtualNamespaceRegistry hash32 json reply visit))
          known := Function.update f.known i f.written.length }
  | stop {f : Fleet ι} {i : ι} :
      Step f (.stop i) { f with process := Function.update f.process i none }
  | registry {f : Fleet ι} {i : ι} {reg : VirtualNamespaceRegistry} {st : RegistryStep}
      (hi : f.process i = some reg) :
      Step f (.registry i st)
        { f with process := Function.update f.process i (some (reg.step hash32 st)) }
  | checkpoint {f : Fleet ι} {i : ι} {reg : VirtualNamespaceRegistry} {text : GoString}
      (hi : f.process i = some reg) (hm : json.marshal reg.schema = .ok text) :
      Step f (.checkpoint i)
        { f with
          key := some text
          written := f.written ++ [reg.schema]
          known := Function.update f.known i (f.written.length + 1) }
  | unwritten {f : Fleet ι} {i : ι} {reg : VirtualNamespaceRegistry} {text : GoString}
      (hi : f.process i = some reg) (hm : json.marshal reg.schema = .error text) :
      Step f (.checkpoint i) f

/-- A process checkpoints only if it knows of all checkpoints and can read back what it writes. -/
def Careful (f : Fleet ι) : FleetEvent ι → Prop
  | .start _ reply _ => reply = f.key
  | .stop _ => True
  | .registry _ _ => True
  | .checkpoint i => f.known i = f.written.length ∧
      ∀ reg text, f.process i = some reg → json.marshal reg.schema = .ok text →
        json.ReadsBack reg.schema text

def CarefulStep (f : Fleet ι) (e : FleetEvent ι) (f' : Fleet ι) : Prop :=
  Step hash32 json f e f' ∧ Careful json f e

end Steps

/-- Checkpoints grow, and each process has what was written before it started or last wrote. -/
structure Growing (json : SchemaCodec) (f : Fleet ι) : Prop where
  ordered : f.written.Pairwise Schema.Within
  known_le : ∀ i, f.known i ≤ f.written.length
  seen : ∀ i reg, f.process i = some reg → ∀ schema ∈ f.written.take (f.known i),
    schema.Within reg.schema
  readable : ∀ schema, f.written.getLast? = some schema →
    ∃ text, f.key = some text ∧ json.ReadsBack schema text

theorem growing_start (json : SchemaCodec) : Growing json (start ι) where
  ordered := .nil
  known_le _ := Nat.le_refl 0
  seen := nofun
  readable := nofun

theorem within_last {l : List Schema} (h : l.Pairwise Schema.Within)
    (hlast : l.getLast? = some last) (hmem : schema ∈ l) : schema.Within last := by
  obtain ⟨l', rfl⟩ := List.getLast?_eq_some_iff.mp hlast
  rw [List.pairwise_append] at h
  rcases List.mem_append.mp hmem with hold | hself
  · exact h.2.2 schema hold last List.mem_cons_self
  · rw [List.mem_singleton.mp hself]
    exact .refl last

theorem Growing.within_loaded {f : Fleet ι} (h : Growing json f) (hash32 : GoString → UInt32)
    (hvisit : VisitsReply json f.key visit) (hmem : schema ∈ f.written) :
    schema.Within (newVirtualNamespaceRegistry hash32 json f.key visit).schema := by
  obtain ⟨last, hlast⟩ : ∃ last, f.written.getLast? = some last := by
    cases hl : f.written.getLast? with
    | some last => exact ⟨last, rfl⟩
    | none =>
      rw [List.getLast?_eq_none_iff.mp hl] at hmem
      cases hmem
  obtain ⟨text, hkey, hback⟩ := h.readable last hlast
  rw [hkey] at hvisit ⊢
  obtain ⟨hload, hvisits⟩ := hback.load hash32 hvisit
  rw [hload]
  exact (within_last h.ordered hlast hmem).trans (schema_within_load hash32 hvisits)

theorem Growing.within_of_known {f : Fleet ι} (h : Growing json f) (hi : f.process i = some reg)
    (hknown : f.known i = f.written.length) (hmem : schema ∈ f.written) :
    schema.Within reg.schema := by
  apply h.seen i reg hi
  rw [hknown, List.take_length]
  exact hmem

variable [DecidableEq ι]

theorem Growing.start {f : Fleet ι} (h : Growing json f) (hash32 : GoString → UInt32) (i : ι)
    (hvisit : VisitsReply json f.key visit) :
    Growing json
      { f with
        process := Function.update f.process i
          (some (newVirtualNamespaceRegistry hash32 json f.key visit))
        known := Function.update f.known i f.written.length } where
  ordered := h.ordered
  known_le := by
    intro j
    by_cases hj : j = i
    · subst j
      simp only [Function.update_self, le_refl]
    · simp only [Function.update_of_ne hj]
      exact h.known_le j
  seen := by
    intro j reg hreg schema hmem
    by_cases hj : j = i
    · subst j
      simp only [Function.update_self, Option.some.injEq] at hreg
      rw [← hreg]
      exact h.within_loaded hash32 hvisit (List.mem_of_mem_take hmem)
    · simp only [Function.update_of_ne hj] at hreg hmem
      exact h.seen j reg hreg schema hmem
  readable := h.readable

theorem Growing.process {f : Fleet ι} (h : Growing json f) (i : ι)
    {after : Option VirtualNamespaceRegistry}
    (hafter : ∀ reg', after = some reg' →
      ∃ reg, f.process i = some reg ∧ reg.schema.Within reg'.schema) :
    Growing json { f with process := Function.update f.process i after } where
  ordered := h.ordered
  known_le := h.known_le
  seen := by
    intro j reg' hreg' schema hmem
    by_cases hj : j = i
    · subst j
      simp only [Function.update_self] at hreg'
      obtain ⟨reg, hreg, hwithin⟩ := hafter reg' hreg'
      exact (h.seen i reg hreg schema hmem).trans hwithin
    · simp only [Function.update_of_ne hj] at hreg'
      exact h.seen j reg' hreg' schema hmem
  readable := h.readable

theorem Growing.checkpoint {f : Fleet ι} (h : Growing json f) (hi : f.process i = some reg)
    (hknown : f.known i = f.written.length) (hback : json.ReadsBack reg.schema text) :
    Growing json
      { f with
        key := some text
        written := f.written ++ [reg.schema]
        known := Function.update f.known i (f.written.length + 1) } where
  ordered := by
    refine List.pairwise_append.mpr ⟨h.ordered, List.pairwise_singleton _ _, ?_⟩
    intro schema hmem _ hself
    rw [List.mem_singleton.mp hself]
    exact h.within_of_known hi hknown hmem
  known_le := by
    intro j
    by_cases hj : j = i
    · subst j
      simp only [Function.update_self, List.length_append, List.length_singleton, le_refl]
    · simp only [Function.update_of_ne hj, List.length_append, List.length_singleton]
      exact Nat.le_succ_of_le (h.known_le j)
  seen := by
    intro j reg' hreg' schema hmem
    by_cases hj : j = i
    · subst j
      rw [hi, Option.some.injEq] at hreg'
      subst reg'
      cases List.mem_append.mp (List.mem_of_mem_take hmem) with
      | inl hold => exact h.within_of_known hi hknown hold
      | inr hself =>
        rw [List.mem_singleton.mp hself]
        exact .refl _
    · simp only [Function.update_of_ne hj] at hmem
      rw [List.take_append_of_le_length (h.known_le j)] at hmem
      exact h.seen j reg' hreg' schema hmem
  readable := by
    intro schema hlast
    rw [List.getLast?_concat, Option.some.injEq] at hlast
    exact ⟨text, rfl, hlast ▸ hback⟩

theorem Growing.step {f f' : Fleet ι} (h : Growing json f) (hs : Step hash32 json f e f')
    (hc : Careful json f e) : Growing json f' := by
  cases hs with
  | start hreply hvisit =>
    cases hc
    exact h.start hash32 _ hvisit
  | stop => exact h.process _ nofun
  | @registry i reg st hi =>
    apply h.process
    rintro _ ⟨⟩
    exact ⟨reg, hi, schema_within_step hash32 reg st⟩
  | checkpoint hi hm => exact h.checkpoint hi hc.1 (hc.2 _ _ hi hm)
  | unwritten => exact h

end Fleet

/-- As long as every start reads the key and nobody checkpoints behind another's back, each
checkpoint has all virtual namespaces and slots of the earlier ones. -/
theorem checkpoints_grow {ι : Type} [DecidableEq ι] (hash32 : GoString → UInt32)
    (json : SchemaCodec) (es : List (FleetEvent ι)) (f : Fleet ι)
    (hrun : Run (Fleet.CarefulStep hash32 json) (Fleet.start ι) es f) :
    f.written.Pairwise Schema.Within := by
  have hgrowing : Fleet.Growing json f := by
    apply hrun.invariant (P := fun _ => True) (Fleet.growing_start json) (fun _ _ => trivial)
    intro f e f' hf _ hs
    exact hf.step hs.1 hs.2
  exact hgrowing.ordered

def ordersSteps : List RegistryStep :=
  [.create (lit "orders"), .call (lit "orders") (.add orders1),
    .call (lit "orders") (.add orders2), .call (lit "orders") (.remove orders1)]

def ordersRegistry : VirtualNamespaceRegistry :=
  ordersSteps.foldl (VirtualNamespaceRegistry.step murmur3Sum32) .empty

def bareCodec : SchemaCodec where
  marshal schema := if schema.rows = [] then .ok (lit "\x7b\x7d") else ordersCodec.marshal schema
  unmarshal text := if text = lit "\x7b\x7d" then .ok ∅ else ordersCodec.unmarshal text
  unmarshal_nil := by
    intro schema
    rw [if_neg (by decide)]
    exact ordersCodec.unmarshal_nil schema

theorem bareCodec_roundTrips (h : bareCodec.marshal schema = .ok text) :
    bareCodec.unmarshal text = .ok schema := by
  simp only [bareCodec] at h ⊢
  by_cases hrows : schema.rows = []
  · rw [if_pos hrows] at h
    cases h
    rw [if_pos rfl, @Schema.rows_injective schema ∅ hrows]
  · rw [if_neg hrows] at h
    rw [if_neg]
    · exact ordersCodec_roundTrips h
    · rw [(ordersCodec_marshal h).2]
      decide

theorem bareCodec_readsBack (h : bareCodec.marshal schema = .ok text) :
    bareCodec.ReadsBack schema text :=
  ⟨schema, bareCodec_roundTrips h, schema.agrees_refl⟩

theorem bareCodec_orders : bareCodec.marshal ordersRegistry.schema = .ok ordersText := by
  have hne : ordersRegistry.schema.rows ≠ [] := by decide +kernel
  have hrows : ordersRegistry.schema.rows = ordersSchema.rows := by decide +kernel
  simp only [bareCodec, if_neg hne, ordersCodec, if_pos hrows]

theorem Fleet.run_registry {ι : Type} [DecidableEq ι] {hash32 : GoString → UInt32}
    {json : SchemaCodec} {f : Fleet ι} {i : ι} (hi : f.process i = some reg)
    (steps : List RegistryStep) :
    Run (CarefulStep hash32 json) f (steps.map (.registry i))
      { f with
        process := Function.update f.process i
          (some (steps.foldl (VirtualNamespaceRegistry.step hash32) reg)) } := by
  induction steps using List.reverseRecOn with
  | nil =>
    rw [List.foldl_nil, ← hi, Function.update_eq_self]
    exact .nil
  | append_singleton steps st ih =>
    have hstep : Step hash32 json
        { f with
          process := Function.update f.process i
            (some (steps.foldl (VirtualNamespaceRegistry.step hash32) reg)) }
        (.registry i st) _ := .registry (Function.update_self _ _ _)
    rw [Function.update_idem] at hstep
    rw [List.map_append, List.foldl_append]
    exact .snoc ih ⟨hstep, trivial⟩

theorem ordersSaved_run : ∃ (es : List (FleetEvent Bool)) (f : Fleet Bool),
    Run (Fleet.CarefulStep murmur3Sum32 bareCodec) (Fleet.start Bool) es f ∧
    f.written = [ordersRegistry.schema] ∧ f.process true = some ordersRegistry ∧
    f.known true = 1 := by
  have hstart : Fleet.CarefulStep murmur3Sum32 bareCodec (Fleet.start Bool)
      (.start true none []) _ := ⟨.start (.inl rfl) nofun, rfl⟩
  have hup : Function.update (Fleet.start Bool).process true
      (some (newVirtualNamespaceRegistry murmur3Sum32 bareCodec none [])) true =
      some VirtualNamespaceRegistry.empty := rfl
  have hsteps := (Run.snoc .nil hstart).append (Fleet.run_registry (i := true) hup ordersSteps)
  exact ⟨_, _, .snoc hsteps ⟨@Fleet.Step.checkpoint Bool _ murmur3Sum32 bareCodec _ true
    ordersRegistry ordersText rfl bareCodec_orders, rfl, fun _ _ _ => bareCodec_readsBack⟩,
    rfl, rfl, rfl⟩

theorem checkpoints_grow_orders : ∃ f : Fleet Bool,
    f.written.length = 2 ∧ f.written.Pairwise Schema.Within := by
  obtain ⟨es, f, hrun, hwritten, hprocess, hknown⟩ := ordersSaved_run
  have hcareful : Fleet.Careful bareCodec f (.checkpoint true) := by
    refine ⟨?_, fun reg text _ hm => bareCodec_readsBack hm⟩
    rw [hknown, hwritten]
    rfl
  refine ⟨_, ?_, checkpoints_grow murmur3Sum32 bareCodec _ _
    (.snoc hrun ⟨.checkpoint hprocess bareCodec_orders, hcareful⟩)⟩
  rw [hwritten]
  rfl

/-- A process whose first read fails writes its empty registry over the other's. -/
theorem failed_start_empties_registry :
    ¬ ∀ (hash32 : GoString → UInt32) (json : SchemaCodec) (es : List (FleetEvent Bool))
      (f : Fleet Bool),
      (∀ schema text, json.marshal schema = .ok text → json.unmarshal text = .ok schema) →
      Run (Fleet.Step hash32 json) (Fleet.start Bool) es f →
      f.written.Pairwise Schema.Within := by
  intro hall
  obtain ⟨es, f, hrun, hwritten, _⟩ := ordersSaved_run
  have hempty : bareCodec.marshal VirtualNamespaceRegistry.empty.schema =
      .ok (lit "\x7b\x7d") := by decide
  have hstart : Fleet.Step murmur3Sum32 bareCodec f (.start false none []) _ :=
    .start (.inr nofun) nofun
  have hpair := hall murmur3Sum32 bareCodec _ _ (fun _ _ => bareCodec_roundTrips)
    (.snoc (.snoc (hrun.mono (fun h => h.1)) hstart)
      (.checkpoint (Function.update_self _ _ _) hempty))
  have horders : (ordersRegistry.schema.lookup (lit "orders")).isSome := by decide +kernel
  obtain ⟨slots, hslots⟩ := Option.isSome_iff_exists.mp horders
  simp only [hwritten] at hpair
  have hwithin := (List.pairwise_cons.mp hpair).1 _ List.mem_cons_self
  obtain ⟨slots', hslots', _⟩ := hwithin (lit "orders") slots hslots
  cases hslots'

end Tempura
