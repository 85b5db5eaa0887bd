import Tempura.AdminApi

namespace Tempura
open Base
set_option autoImplicit true

/-- The persisted form of the registry: virtual name to slot to status. -/
abbrev Schema := FiniteMap GoString (FiniteMap GoString NamespaceStatus)

/-- `json.Marshal` and `json.Unmarshal` at the schema. An empty text is no JSON value. -/
structure SchemaCodec where
  marshal : Schema → Except GoString GoString
  unmarshal : GoString → Except GoString Schema
  unmarshal_nil : ∀ schema, unmarshal [] ≠ .ok schema

abbrev Redis := FiniteMap GoString GoString

def registryKey : GoString := lit "virtual_namespace_registry"

def VirtualNamespaceRegistry.schema (reg : VirtualNamespaceRegistry) : Schema :=
  reg.namespaces.mapValues VirtualNamespace.getAllNamespacesWithStatus

/-- One tick of the checkpointing routine. -/
def checkpoint (json : SchemaCodec) (reg : VirtualNamespaceRegistry) (db : Redis) : Redis :=
  match json.marshal reg.schema with
  | .error _ => db
  | .ok byteData => db.insert registryKey byteData

/-- The entries in the order in which the two `range` loops of the load visit them. -/
abbrev SchemaVisit := List (GoString × List (Σ _ : GoString, NamespaceStatus))

/-- Go picks the order of each loop; every entry is visited once. -/
def Visits (schema : Schema) (visit : SchemaVisit) : Prop :=
  (visit.map (·.1)).Perm schema.keys ∧
    ∀ e ∈ visit, ∃ slotsMap, schema.lookup e.1 = some slotsMap ∧ e.2.Perm slotsMap.entries

section Load
variable (hash32 : GoString → UInt32)

def loadSlot (vNs : VirtualNamespace) (e : Σ _ : GoString, NamespaceStatus) :
    VirtualNamespace :=
  if e.2 = .active then vNs.add hash32 e.1
  else { vNs with namespaces := vNs.namespaces.insert e.1 e.2 }

def loadNamespace (virtualName : GoString) (slots : List (Σ _ : GoString, NamespaceStatus)) :
    VirtualNamespace :=
  slots.foldl (loadSlot hash32) (newVirtualNamespace virtualName)

def loadSchema (visit : SchemaVisit) : VirtualNamespaceRegistry :=
  visit.foldl (fun v e => v.update e.1 (loadNamespace hash32 e.1 e.2)) .empty

/-- A failed read, an empty text and an undecodable one all leave the new registry empty. -/
def newVirtualNamespaceRegistry (json : SchemaCodec) (reply : Option GoString)
    (visit : SchemaVisit) : VirtualNamespaceRegistry :=
  match reply with
  | none => .empty
  | some redisData =>
    if redisData = [] then .empty
    else
      match json.unmarshal redisData with
      | .error _ => .empty
      | .ok _ => loadSchema hash32 visit

end Load

/-- `visit` is a possible order of the loops when `reply` is what the start reads. -/
def VisitsReply (json : SchemaCodec) (reply : Option GoString) (visit : SchemaVisit) : Prop :=
  ∀ redisData schema, reply = some redisData → json.unmarshal redisData = .ok schema →
    Visits schema visit

/-- Both have the same slots with the same statuses, in whatever order. -/
def Schema.Agrees (schema schema' : Schema) : Prop :=
  ∀ name, Option.Rel (fun slots slots' => ∀ slot, slots.lookup slot = slots'.lookup slot)
    (schema.lookup name) (schema'.lookup name)

/-- The text decodes to a schema that agrees with this one. -/
def SchemaCodec.ReadsBack (json : SchemaCodec) (schema : Schema) (text : GoString) : Prop :=
  ∃ decoded, json.unmarshal text = .ok decoded ∧ decoded.Agrees schema

theorem Schema.agrees_refl (schema : Schema) : schema.Agrees schema := by
  intro name
  cases schema.lookup name with
  | none => exact .none
  | some slots => exact .some (fun _ => rfl)

theorem Schema.Agrees.keys_perm {schema schema' : Schema} (h : schema.Agrees schema') :
    schema.keys.Perm schema'.keys := by
  rw [List.perm_ext_iff_of_nodup schema.keys_nodup schema'.keys_nodup]
  intro name
  rw [FiniteMap.mem_keys_iff, FiniteMap.mem_keys_iff, ← Option.isSome_iff_exists,
    ← Option.isSome_iff_exists]
  have hrel := h name
  generalize schema.lookup name = slots, schema'.lookup name = slots' at hrel ⊢
  cases hrel with
  | some _ => rfl
  | none => rfl

theorem Visits.of_agrees {schema schema' : Schema} (h : Visits schema visit)
    (hagrees : schema.Agrees schema') : Visits schema' visit := by
  refine ⟨h.1.trans hagrees.keys_perm, fun e he => ?_⟩
  obtain ⟨slots, hslots, hperm⟩ := h.2 e he
  have hrel := hagrees e.1
  rw [hslots] at hrel
  cases hl : schema'.lookup e.1 with
  | none =>
    rw [hl] at hrel
    cases hrel
  | some slots' =>
    rw [hl] at hrel
    cases hrel with
    | some hsame =>
      refine ⟨slots', rfl, hperm.trans (List.lookup_ext slots.nodupKeys slots'.nodupKeys ?_)⟩
      intro slot status
      exact iff_of_eq (congrArg (status ∈ ·) (hsame slot))

theorem loadSlot_namespaces (vNs : VirtualNamespace) (e : Σ _ : GoString, NamespaceStatus) :
    (loadSlot hash32 vNs e).namespaces = vNs.namespaces.insert e.1 e.2 := by
  rw [loadSlot]
  split
  · next h => rw [h]; rfl
  · rfl

theorem foldl_loadSlot_namespaces (slots : List (Σ _ : GoString, NamespaceStatus))
    (vNs : VirtualNamespace) :
    (slots.foldl (loadSlot hash32) vNs).namespaces =
      slots.foldl (fun m e => m.insert e.1 e.2) vNs.namespaces := by
  induction slots generalizing vNs with
  | nil => rfl
  | cons e slots ih => rw [List.foldl_cons, List.foldl_cons, ih, loadSlot_namespaces]

theorem loadNamespace_lookup (virtualName : GoString)
    {slots : List (Σ _ : GoString, NamespaceStatus)} (hnd : slots.NodupKeys) (s : GoString) :
    (loadNamespace hash32 virtualName slots).namespaces.lookup s = slots.dlookup s := by
  rw [loadNamespace, foldl_loadSlot_namespaces, FiniteMap.lookup_foldl_insert _ hnd]
  simp [newVirtualNamespace]

theorem activeNames_loadSlot (vNs : VirtualNamespace) (e : Σ _ : GoString, NamespaceStatus)
    (hnew : vNs.namespaces.lookup e.1 = none) :
    (loadSlot hash32 vNs e).activeNames =
      if e.2 = .active then insert e.1 vNs.activeNames else vNs.activeNames := by
  ext s
  change (loadSlot hash32 vNs e).namespaces.lookup s = some .active ↔ _
  rw [loadSlot_namespaces, FiniteMap.lookup_insert_ite]
  by_cases hs : s = e.1
  · subst s
    have hnot : e.1 ∉ vNs.activeNames := by
      intro h
      change vNs.namespaces.lookup e.1 = some .active at h
      rw [hnew] at h
      cases h
    by_cases ha : e.2 = .active <;> simp [ha, hnot]
  · by_cases ha : e.2 = .active
    · simp only [if_neg hs, if_pos ha]
      change _ ↔ s = e.1 ∨ _
      simp only [hs, false_or]
      rfl
    · simp only [if_neg hs, if_neg ha]
      rfl

theorem Lockstep.loadSlot {U : Set GoString} (h : Lockstep hash32 vNs)
    (hsep : Separate (vnodePoints hash32 defaultVirtualNodes) U) (hv : vNs.activeNames ⊆ U)
    (e : Σ _ : GoString, NamespaceStatus) (he : e.2 = .active → e.1 ∈ U)
    (hnew : vNs.namespaces.lookup e.1 = none) :
    Lockstep hash32 (loadSlot hash32 vNs e) ∧ (loadSlot hash32 vNs e).activeNames ⊆ U := by
  rw [Lockstep, activeNames_loadSlot vNs e hnew]
  by_cases ha : e.2 = .active
  · rw [if_pos ha, Tempura.loadSlot, if_pos ha]
    have hins := Set.insert_subset (he ha) hv
    exact ⟨Represents.addSlot h (hsep.mono hins), hins⟩
  · rw [if_neg ha, Tempura.loadSlot, if_neg ha]
    exact ⟨h, hv⟩

theorem Lockstep.foldl_loadSlot {U : Set GoString} (h : Lockstep hash32 vNs)
    (hsep : Separate (vnodePoints hash32 defaultVirtualNodes) U) (hv : vNs.activeNames ⊆ U)
    (slots : List (Σ _ : GoString, NamespaceStatus)) (hnd : slots.NodupKeys)
    (he : ∀ e ∈ slots, e.2 = .active → e.1 ∈ U)
    (hnew : ∀ e ∈ slots, vNs.namespaces.lookup e.1 = none) :
    Lockstep hash32 (slots.foldl (Tempura.loadSlot hash32) vNs) := by
  induction slots generalizing vNs with
  | nil => exact h
  | cons e slots ih =>
    rw [List.nodupKeys_cons] at hnd
    obtain ⟨hlock, hsub⟩ := h.loadSlot hsep hv e (he e List.mem_cons_self)
      (hnew e List.mem_cons_self)
    apply ih hlock hsub hnd.2 (fun e' he' => he e' (List.mem_cons_of_mem _ he'))
    intro e' he'
    rw [loadSlot_namespaces, FiniteMap.lookup_insert_ite, if_neg]
    · exact hnew e' (List.mem_cons_of_mem _ he')
    · rintro heq
      exact hnd.1 (heq ▸ List.mem_keys_of_mem he')

theorem resolve_foldl_update (visit : SchemaVisit) (hnd : (visit.map (·.1)).Nodup)
    (reg : VirtualNamespaceRegistry) (name : GoString) :
    (∀ slots, (name, slots) ∈ visit →
      (visit.foldl (fun v e => v.update e.1 (loadNamespace hash32 e.1 e.2)) reg).resolve name =
        some (loadNamespace hash32 name slots)) ∧
    (name ∉ visit.map (·.1) →
      (visit.foldl (fun v e => v.update e.1 (loadNamespace hash32 e.1 e.2)) reg).resolve name =
        reg.resolve name) := by
  induction visit generalizing reg with
  | nil => simp
  | cons e visit ih =>
    obtain ⟨a, slots'⟩ := e
    rw [List.map_cons, List.nodup_cons] at hnd
    rw [List.foldl_cons]
    obtain ⟨hin, hout⟩ := ih hnd.2 (reg.update a (loadNamespace hash32 a slots'))
    constructor
    · intro slots hmem
      rcases List.mem_cons.mp hmem with heq | hmem
      · cases heq
        rw [hout hnd.1, VirtualNamespaceRegistry.resolve_update, if_pos rfl]
      · exact hin slots hmem
    · intro hnot
      rw [List.map_cons, List.mem_cons, not_or] at hnot
      rw [hout hnot.2, VirtualNamespaceRegistry.resolve_update, if_neg hnot.1]

theorem Lockstep.getSlot_congr (h : Lockstep hash32 v) (h' : Lockstep hash32 v')
    (heq : v.activeNames = v'.activeNames)
    (hsep : Separate (vnodePoints hash32 defaultVirtualNodes) v.activeNames) (key : GoString) :
    v.ring.getSlot hash32 key = v'.ring.getSlot hash32 key := by
  rw [Lockstep, ← heq] at h'
  exact Represents.getSlot_congr h h' one_le_defaultVirtualNodes hsep key

/-- Every registered namespace is in lockstep, with active names from `U`. -/
def RegistryLockstep (hash32 : GoString → UInt32) (U : Set GoString)
    (reg : VirtualNamespaceRegistry) : Prop :=
  ∀ name v, reg.resolve name = some v → Lockstep hash32 v ∧ v.activeNames ⊆ U

theorem RegistryLockstep.step {U : Set GoString} (h : RegistryLockstep hash32 U reg)
    (hsep : Separate (vnodePoints hash32 defaultVirtualNodes) U) (st : RegistryStep)
    (hst : ∀ virtual c, st = .call virtual c → c.name ∈ U) :
    RegistryLockstep hash32 U (reg.step hash32 st) := by
  intro name v' hv'
  rcases VirtualNamespaceRegistry.resolve_step_cases st hv' with
    hv | ⟨v, c, rfl, hv, rfl⟩ | ⟨rfl, _, rfl⟩
  · exact h name v' hv
  · obtain ⟨hlock, hsub⟩ := h name v hv
    have hc := hst name c rfl
    exact ⟨hlock.call c (hsep.mono (Set.insert_subset hc hsub)),
      activeNames_call_subset c hc hsub⟩
  · refine ⟨lockstep_new hash32 name, ?_⟩
    rw [activeNames_new]
    exact Set.empty_subset U

def adminRun (hash32 : GoString → UInt32) (calls : List AdminCall) : VirtualNamespaceRegistry :=
  calls.foldl (VirtualNamespaceRegistry.admin hash32) .empty

theorem RegistryLockstep.admin_calls {U : Set GoString}
    (hsep : Separate (vnodePoints hash32 defaultVirtualNodes) U) (calls : List AdminCall)
    (hU : ∀ c ∈ calls, ∀ s, c.slot? = some s → s ∈ U) (h : RegistryLockstep hash32 U reg) :
    RegistryLockstep hash32 U (calls.foldl (VirtualNamespaceRegistry.admin hash32) reg) := by
  apply List.foldlRecOn (motive := RegistryLockstep hash32 U) calls _ h
  intro reg h c hc
  rw [VirtualNamespaceRegistry.admin_eq]
  cases hst : c.step? with
  | none => exact h
  | some st =>
    apply h.step hsep
    rintro virtual call rfl
    exact hU c hc _ (AdminCall.slot_of_step hst)

theorem loadNamespace_statuses (hash32 : GoString → UInt32) (name : GoString)
    {slotsMap : FiniteMap GoString NamespaceStatus} (hperm : slots.Perm slotsMap.entries)
    (s : GoString) :
    (loadNamespace hash32 name slots).namespaces.lookup s = slotsMap.lookup s := by
  have hnd : slots.NodupKeys := (List.perm_nodupKeys hperm).mpr slotsMap.nodupKeys
  rw [loadNamespace_lookup name hnd]
  exact List.perm_dlookup s hnd hperm

/-- Loading the statuses of a namespace in lockstep, in any order, rebuilds its ring. -/
theorem Lockstep.loadNamespace {U : Set GoString} (h : Lockstep hash32 v) (hv : v.activeNames ⊆ U)
    (hsep : Separate (vnodePoints hash32 defaultVirtualNodes) U)
    {slots : List (Σ _ : GoString, NamespaceStatus)} (hperm : slots.Perm v.namespaces.entries)
    (name : GoString) :
    (∀ s, (loadNamespace hash32 name slots).namespaces.lookup s = v.namespaces.lookup s) ∧
      ∀ key, (loadNamespace hash32 name slots).ring.getSlot hash32 key =
        v.ring.getSlot hash32 key := by
  have hnd : slots.NodupKeys := (List.perm_nodupKeys hperm).mpr v.namespaces.nodupKeys
  have hsame := loadNamespace_statuses hash32 name hperm
  have hact : v.activeNames = (Tempura.loadNamespace hash32 name slots).activeNames := by
    ext s
    change v.namespaces.lookup s = _ ↔
      (Tempura.loadNamespace hash32 name slots).namespaces.lookup s = _
    rw [hsame]
  have hlock : Lockstep hash32 (Tempura.loadNamespace hash32 name slots) := by
    apply (lockstep_new hash32 name).foldl_loadSlot hsep _ slots hnd
    · intro e he hactive
      apply hv
      change v.namespaces.lookup e.1 = some .active
      rw [← hactive]
      exact AList.mem_lookup_iff.mpr (hperm.mem_iff.mp he)
    · intro e _
      exact AList.lookup_empty e.1
    · rw [activeNames_new]
      exact Set.empty_subset U
  exact ⟨hsame, fun key => (h.getSlot_congr hlock hact (hsep.mono hv) key).symm⟩

theorem schema_lookup (reg : VirtualNamespaceRegistry) (name : GoString) :
    reg.schema.lookup name =
      (reg.resolve name).map VirtualNamespace.getAllNamespacesWithStatus :=
  FiniteMap.lookup_mapValues _ _ _

theorem resolve_loadSchema (hash32 : GoString → UInt32) {schema : Schema}
    (hvisit : Visits schema visit) (h : schema.lookup name = some slotsMap) :
    ∃ slots, slots.Perm slotsMap.entries ∧
      (loadSchema hash32 visit).resolve name = some (loadNamespace hash32 name slots) := by
  obtain ⟨hkeys, hslots⟩ := hvisit
  have hnd : (visit.map (·.1)).Nodup := hkeys.nodup_iff.mpr schema.keys_nodup
  have hmem : name ∈ visit.map (·.1) :=
    hkeys.mem_iff.mpr (FiniteMap.mem_keys_iff.mpr ⟨_, h⟩)
  obtain ⟨⟨name', slots⟩, he, rfl⟩ := List.mem_map.mp hmem
  obtain ⟨m, hm, hperm⟩ := hslots _ he
  rw [h, Option.some.injEq] at hm
  subst m
  exact ⟨slots, hperm, (resolve_foldl_update visit hnd .empty name').1 slots he⟩

theorem resolve_loadSchema_none (hash32 : GoString → UInt32) {schema : Schema}
    (hvisit : Visits schema visit) (h : schema.lookup name = none) :
    (loadSchema hash32 visit).resolve name = none := by
  obtain ⟨hkeys, _⟩ := hvisit
  have hnd : (visit.map (·.1)).Nodup := hkeys.nodup_iff.mpr schema.keys_nodup
  have hnot : name ∉ visit.map (·.1) := by
    intro hmem
    obtain ⟨m, hm⟩ := FiniteMap.mem_keys_iff.mp (hkeys.mem_iff.mp hmem)
    rw [h] at hm
    cases hm
  rw [loadSchema, (resolve_foldl_update visit hnd .empty name).2 hnot,
    VirtualNamespaceRegistry.resolve_empty]

theorem loadSchema_schema {U : Set GoString} (h : RegistryLockstep hash32 U reg)
    (hsep : Separate (vnodePoints hash32 defaultVirtualNodes) U) (hvisit : Visits reg.schema visit)
    (name : GoString) :
    ((loadSchema hash32 visit).resolve name = none ↔ reg.resolve name = none) ∧
    ∀ v v', reg.resolve name = some v → (loadSchema hash32 visit).resolve name = some v' →
      (∀ s, v'.namespaces.lookup s = v.namespaces.lookup s) ∧
      ∀ key, v'.ring.getSlot hash32 key = v.ring.getSlot hash32 key := by
  have hlookup := schema_lookup reg name
  cases hr : reg.resolve name with
  | none =>
    rw [hr] at hlookup
    exact ⟨iff_of_true (resolve_loadSchema_none hash32 hvisit hlookup) rfl, nofun⟩
  | some v =>
    rw [hr] at hlookup
    obtain ⟨slots, hperm, hload⟩ := resolve_loadSchema hash32 hvisit hlookup
    obtain ⟨hlock, hsub⟩ := h name v hr
    rw [hload]
    refine ⟨⟨nofun, nofun⟩, ?_⟩
    rintro _ _ ⟨⟩ ⟨⟩
    exact hlock.loadNamespace hsub hsep hperm name

def VirtualNamespaceRegistry.Lists (reg : VirtualNamespaceRegistry) (virtual slot : GoString) :
    Prop :=
  ∃ v, reg.resolve virtual = some v ∧ slot ∈ v.getAllNamespaces

theorem mem_getAllNamespaces_loadNamespace (hash32 : GoString → UInt32) (name : GoString)
    {slotsMap : FiniteMap GoString NamespaceStatus} (hperm : slots.Perm slotsMap.entries) :
    slot ∈ (loadNamespace hash32 name slots).getAllNamespaces ↔ slot ∈ slotsMap.keys := by
  rw [VirtualNamespace.mem_getAllNamespaces, loadNamespace_statuses hash32 name hperm]
  exact FiniteMap.mem_keys_iff.symm

theorem loadSchema_lists_iff (hash32 : GoString → UInt32) {reg : VirtualNamespaceRegistry}
    (hvisit : Visits reg.schema visit) :
    (loadSchema hash32 visit).Lists virtual slot ↔ reg.Lists virtual slot := by
  have hlookup := schema_lookup reg virtual
  rw [VirtualNamespaceRegistry.Lists, VirtualNamespaceRegistry.Lists]
  cases hr : reg.resolve virtual with
  | none =>
    rw [hr] at hlookup
    simp only [resolve_loadSchema_none hash32 hvisit hlookup]
  | some v =>
    rw [hr] at hlookup
    obtain ⟨slots, hperm, hload⟩ := resolve_loadSchema hash32 hvisit hlookup
    simp only [hload, Option.some.injEq, exists_eq_left']
    exact mem_getAllNamespaces_loadNamespace hash32 virtual hperm

/-- A load of what the codec reads back is a load of the schema that was written. -/
theorem SchemaCodec.ReadsBack.load {json : SchemaCodec} {schema : Schema}
    (h : json.ReadsBack schema text) (hash32 : GoString → UInt32)
    (hvisit : VisitsReply json (some text) visit) :
    newVirtualNamespaceRegistry hash32 json (some text) visit = loadSchema hash32 visit ∧
      Visits schema visit := by
  obtain ⟨decoded, hu, hagrees⟩ := h
  have htext : text ≠ [] := by
    rintro rfl
    exact json.unmarshal_nil _ hu
  refine ⟨?_, (hvisit text decoded rfl hu).of_agrees hagrees⟩
  simp only [newVirtualNamespaceRegistry, if_neg htext, hu]

/-- A restart after a checkpoint finds the same namespaces, statuses and routes. -/
theorem checkpoint_reload (hash32 : GoString → UInt32) (json : SchemaCodec)
    (calls : List AdminCall) (db : Redis) (visit : SchemaVisit)
    (hsep : Separate (vnodePoints hash32 defaultVirtualNodes) {s | ∃ c ∈ calls, c.slot? = some s})
    (hjson : ∃ text, json.marshal (adminRun hash32 calls).schema = .ok text ∧
      json.ReadsBack (adminRun hash32 calls).schema text)
    (hvisit : VisitsReply json
      ((checkpoint json (adminRun hash32 calls) db).lookup registryKey) visit) :
    let reg := adminRun hash32 calls
    let reg' := newVirtualNamespaceRegistry hash32 json
      ((checkpoint json reg db).lookup registryKey) visit
    ∀ name, (reg'.resolve name = none ↔ reg.resolve name = none) ∧
      ∀ v v', reg.resolve name = some v → reg'.resolve name = some v' →
        (∀ s, v'.namespaces.lookup s = v.namespaces.lookup s) ∧
        ∀ key, v'.ring.getSlot hash32 key = v.ring.getSlot hash32 key := by
  intro reg reg' name
  obtain ⟨text, hm, hback⟩ := hjson
  have hread : (checkpoint json reg db).lookup registryKey = some text := by
    rw [checkpoint, hm]
    exact AList.lookup_insert db
  rw [hread] at hvisit
  obtain ⟨hload, hvisits⟩ := hback.load hash32 hvisit
  have hreg' : reg' = loadSchema hash32 visit := by
    simp only [reg', hread, hload]
  rw [hreg']
  refine loadSchema_schema ?_ hsep hvisits name
  apply RegistryLockstep.admin_calls hsep calls (fun c hc s hs => ⟨c, hc, hs⟩)
  intro name' v hv
  rw [VirtualNamespaceRegistry.resolve_empty] at hv
  cases hv

def Schema.rows (schema : Schema) : SchemaVisit := schema.entries.map (fun e => (e.1, e.2.entries))

theorem visits_rows (schema : Schema) : Visits schema schema.rows := by
  rw [Schema.rows]
  constructor
  · rw [List.map_map]
    exact List.Perm.refl _
  · intro e he
    obtain ⟨⟨name, slotsMap⟩, hmem, rfl⟩ := List.mem_map.mp he
    exact ⟨slotsMap, AList.mem_lookup_iff.mpr hmem, List.Perm.refl _⟩

def ordersCalls : List AdminCall :=
  [.create ⟨lit "POST", .ok ⟨lit "orders"⟩⟩,
    .add ⟨lit "POST", .ok ⟨lit "orders", lit "orders", lit "c1.local:7233"⟩⟩,
    .add ⟨lit "POST", .ok ⟨lit "orders", lit "orders", lit "c2.local:7233"⟩⟩,
    .remove ⟨lit "POST", .ok ⟨lit "orders", lit "orders", lit "c1.local:7233"⟩⟩]

def ordersSchema : Schema := (adminRun murmur3Sum32 ordersCalls).schema

def ordersText : GoString :=
  lit "\x7b\"orders\":\x7b\"orders::c1.local:7233\":\"cordoned\"," ++
    lit "\"orders::c2.local:7233\":\"active\"\x7d\x7d"

def ordersCodec : SchemaCodec where
  marshal schema :=
    if schema.rows = ordersSchema.rows then .ok ordersText else .error (lit "unsupported")
  unmarshal text := if text = ordersText then .ok ordersSchema else .error (lit "invalid character")
  unmarshal_nil := by
    intro schema
    rw [if_neg (by decide)]
    nofun

theorem ordersCodec_unmarshal (h : ordersCodec.unmarshal text = .ok schema) :
    schema = ordersSchema := by
  simp only [ordersCodec] at h
  split at h
  · exact (Except.ok.inj h).symm
  · cases h

theorem visitsReply_orders (reply : Option GoString) :
    VisitsReply ordersCodec reply ordersSchema.rows := by
  intro redisData schema _ hdata
  rw [ordersCodec_unmarshal hdata]
  exact visits_rows ordersSchema

theorem Schema.rows_injective : Function.Injective Schema.rows := by
  intro schema schema' h
  apply AList.ext
  refine List.map_injective_iff.mpr ?_ h
  rintro ⟨name, slots⟩ ⟨name', slots'⟩ he
  obtain ⟨rfl, hslots⟩ : name = name' ∧ slots.entries = slots'.entries := Prod.mk.inj he
  rw [AList.ext hslots]

theorem ordersCodec_marshal (h : ordersCodec.marshal schema = .ok text) :
    schema = ordersSchema ∧ text = ordersText := by
  simp only [ordersCodec] at h
  split at h
  · next hrows => exact ⟨Schema.rows_injective hrows, (Except.ok.inj h).symm⟩
  · cases h

theorem ordersCodec_roundTrips (h : ordersCodec.marshal schema = .ok text) :
    ordersCodec.unmarshal text = .ok schema := by
  obtain ⟨rfl, rfl⟩ := ordersCodec_marshal h
  simp only [ordersCodec, if_true]

theorem ordersCodec_readsBack (h : ordersCodec.marshal schema = .ok text) :
    ordersCodec.ReadsBack schema text :=
  ⟨schema, ordersCodec_roundTrips h, schema.agrees_refl⟩

theorem ordersSchema_resolves :
    (((adminRun murmur3Sum32 ordersCalls).resolve (lit "orders")).map
      (fun v => v.namespaces.entries)) =
    some [⟨orders1, .cordoned⟩, ⟨orders2, .active⟩] := by
  decide +kernel

theorem checkpoint_reload_orders :
    let reg := adminRun murmur3Sum32 ordersCalls
    let reg' := newVirtualNamespaceRegistry murmur3Sum32 ordersCodec
      ((checkpoint ordersCodec reg ∅).lookup registryKey)
      (ordersSchema.entries.map (fun e => (e.1, e.2.entries)))
    ∃ v v', reg.resolve (lit "orders") = some v ∧ reg'.resolve (lit "orders") = some v' ∧
      v'.namespaces.lookup orders1 = some .cordoned ∧
      v'.namespaces.lookup orders2 = some .active ∧
      ∀ key, v'.ring.getSlot murmur3Sum32 key = v.ring.getSlot murmur3Sum32 key := by
  intro reg reg'
  have hslots : {s | ∃ c ∈ ordersCalls, c.slot? = some s} ⊆ {orders1, orders2} := by
    rintro s ⟨c, hc, hs⟩
    simp only [ordersCalls, List.mem_cons, List.not_mem_nil, or_false] at hc
    rcases hc with rfl | rfl | rfl | rfl
    · cases hs
    · exact .inl (Option.some.inj hs).symm
    · exact .inr (Option.some.inj hs).symm
    · exact .inl (Option.some.inj hs).symm
  have hm : ordersCodec.marshal ordersSchema = .ok ordersText := by
    simp only [ordersCodec, if_true]
  obtain ⟨hknown, hsame⟩ := checkpoint_reload murmur3Sum32 ordersCodec ordersCalls ∅ _
    (separate_orders.mono hslots) ⟨ordersText, hm, ordersCodec_readsBack hm⟩
    (visitsReply_orders _) (lit "orders")
  obtain ⟨v, hv, hentries⟩ := Option.map_eq_some_iff.mp ordersSchema_resolves
  cases hv' : reg'.resolve (lit "orders") with
  | none =>
    rw [hknown.mp hv'] at hv
    cases hv
  | some v' =>
    obtain ⟨hstatuses, hroutes⟩ := hsame v v' hv hv'
    refine ⟨v, v', hv, rfl, ?_, ?_, hroutes⟩
    · rw [hstatuses, AList.lookup, hentries]
      rfl
    · rw [hstatuses, AList.lookup, hentries]
      rfl

end Tempura
