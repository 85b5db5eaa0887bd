import Tempura.Stickiness

namespace Tempura
open Base
set_option autoImplicit true

/-- A run of one process, with the registry it last wrote out, if any, and its writes since. -/
structure Persisted where
  audited : Audited
  saved : Option VirtualNamespaceRegistry
  since : List StoreWrite

namespace Persisted

def start : Persisted := ⟨Audited.start, none, []⟩

/-- A tick that cannot encode the registry writes nothing. -/
def next (lib : External) (a : Persisted) : Event → Persisted
  | .checkpoint =>
    match lib.json.marshal a.audited.proxy.registry.schema with
    | .ok _ => ⟨a.audited.next lib .checkpoint, some a.audited.proxy.registry, []⟩
    | .error _ => ⟨a.audited.next lib .checkpoint, a.saved, a.since⟩
  | e => ⟨a.audited.next lib e, a.saved, a.since ++ e.writes lib a.audited.proxy⟩

def Step (lib : External) (a : Persisted) (e : Event) (a' : Persisted) : Prop :=
  e.Enabled lib a.audited.proxy ∧ a' = a.next lib e

/-- The store maps `w` to `slot`, by a write for `virtual`. -/
def Maps (a : Persisted) (w virtual slot : GoString) : Prop :=
  a.audited.proxy.db.lookup w = some slot ∧
    (latest w a.audited.log).map (·.1) = some (.tenant virtual)

theorem next_cases (lib : External) (a : Persisted) (e : Event) :
    (∃ text, e = .checkpoint ∧ lib.json.marshal a.audited.proxy.registry.schema = .ok text ∧
      a.next lib e = ⟨a.audited.next lib e, some a.audited.proxy.registry, []⟩) ∨
    ((∀ text, .put .checkpoint registryKey text ∉ e.writes lib a.audited.proxy) ∧
      a.next lib e =
        ⟨a.audited.next lib e, a.saved, a.since ++ e.writes lib a.audited.proxy⟩) := by
  cases e with
  | checkpoint =>
    cases hm : lib.json.marshal a.audited.proxy.registry.schema with
    | ok text =>
      left
      refine ⟨text, rfl, rfl, ?_⟩
      rw [next, hm]
    | error e =>
      right
      rw [next, Event.writes, hm]
      exact ⟨fun _ => List.not_mem_nil, by rw [List.append_nil]⟩
  | registry st => exact .inr ⟨fun _ => List.not_mem_nil, rfl⟩
  | request m req =>
    refine .inr ⟨fun text hmem => ?_, rfl⟩
    cases cause_of_mem_writes _ hmem
  | poll kind virtual arrivals =>
    refine .inr ⟨fun text hmem => ?_, rfl⟩
    cases cause_of_mem_writes _ hmem
  | restart visit => exact .inr ⟨fun _ => List.not_mem_nil, rfl⟩

theorem audited_run {lib : External} (h : Run (Step lib) start es a) :
    Run (Audited.Step lib) Audited.start es a.audited := by
  induction h with
  | nil => exact .nil
  | @snoc es a e a' hr hs ih =>
    obtain ⟨hen, rfl⟩ := hs
    refine .snoc ih ⟨hen, ?_⟩
    obtain ⟨_, _, _, hnext⟩ | ⟨_, hnext⟩ := a.next_cases lib e
    · rw [hnext]
    · rw [hnext]

theorem maps_iff {lib : External} (h : Run (Step lib) start es a) :
    a.Maps w virtual slot ↔ latest w a.audited.log = some (.tenant virtual, slot) := by
  rw [Maps, Audited.lookup_eq (audited_run h)]
  cases latest w a.audited.log with
  | none => exact iff_of_false nofun nofun
  | some t =>
    simp only [Option.map_some, Option.some.injEq, Prod.ext_iff]
    exact And.comm

end Persisted

/-- Every mapping older than what was last written out is to a slot which was written out. -/
structure Durable (lib : External) (a : Persisted) : Prop where
  owned : Owned a.audited
  settled : ∃ old, a.audited.log = old ++ a.since ∧
    ∀ w virtual slot, latest w old = some (.tenant virtual, slot) → slot ≠ [] →
      ∃ reg, a.saved = some reg ∧ reg.Lists virtual slot
  unsaved : a.saved = none → a.audited.proxy.db.lookup registryKey = none
  readable : ∀ reg, a.saved = some reg → ∃ text, lib.json.marshal reg.schema = .ok text ∧
    a.audited.proxy.db.lookup registryKey = some text

theorem durable_start (lib : External) : Durable lib Persisted.start where
  owned := owned_start
  settled := ⟨[], rfl, nofun⟩
  unsaved _ := rfl
  readable := nofun

theorem lookup_registryKey_step {lib : External} {s : Proxy} {e : Event}
    (hk : ¬ e.Names lib registryKey)
    (hnot : ∀ text, .put .checkpoint registryKey text ∉ e.writes lib s) :
    (s.step lib e).db.lookup registryKey = s.db.lookup registryKey := by
  rw [Proxy.step_db]
  apply lookup_replay_of_forall_ne
  intro wr hwr hkey
  cases (cause_of_mem_writes e hwr).clean hk with
  | checkpoint byteData => exact hnot byteData hwr
  | put virtual physNs hw => exact hw hkey.symm
  | delete hw => exact hw hkey.symm

theorem Durable.next {lib : External} {a : Persisted} {e : Event} (h : Durable lib a)
    (hen : e.Enabled lib a.audited.proxy) (he : e.InProcess) (hk : ¬ e.Names lib registryKey) :
    Durable lib (a.next lib e) := by
  obtain ⟨text, rfl, hm, hnext⟩ | ⟨hnot, hnext⟩ := a.next_cases lib e
  · rw [hnext]
    have hwrites : Event.checkpoint.writes lib a.audited.proxy =
        [.put .checkpoint registryKey text] := by
      rw [Event.writes, hm]
    refine ⟨h.owned.next he hen, ⟨_, (List.append_nil _).symm, ?_⟩, ?_, ?_⟩
    · intro w virtual slot hl hne
      refine ⟨_, rfl, ?_⟩
      rw [Audited.next, hwrites, latest_snoc] at hl
      split at hl
      · cases hl
      · exact h.owned.listed w virtual slot hl hne
    · intro hnone
      cases hnone
    · rintro _ ⟨⟩
      refine ⟨text, hm, ?_⟩
      rw [Audited.next, Proxy.step_db, hwrites]
      exact AList.lookup_insert _
  · rw [hnext]
    have hkey := lookup_registryKey_step hk hnot
    obtain ⟨old, hlog, hold⟩ := h.settled
    refine ⟨h.owned.next he hen, ⟨old, ?_, hold⟩, ?_, ?_⟩
    · rw [Audited.next, hlog, List.append_assoc]
    · intro hnone
      exact hkey.trans (h.unsaved hnone)
    · intro reg hreg
      obtain ⟨text, hm, hl⟩ := h.readable reg hreg
      exact ⟨text, hm, hkey.trans hl⟩

theorem durable_run {lib : External} {a : Persisted}
    (hrun : Run (Persisted.Step lib) Persisted.start es a)
    (hes : ∀ e ∈ es, e.InProcess ∧ ¬ e.Names lib registryKey) : Durable lib a := by
  apply hrun.invariant (durable_start lib) hes
  intro a e a' ha he hs
  obtain ⟨hen, rfl⟩ := hs
  exact ha.next hen he.1 he.2

/-- A restart finds the slots that were written out, and no others. -/
theorem Durable.restart_lists_iff {lib : External} {a : Persisted} (h : Durable lib a)
    (hjson : ∀ reg text, a.saved = some reg → lib.json.marshal reg.schema = .ok text →
      lib.json.ReadsBack reg.schema text)
    (hvisit : (Event.restart visit).Enabled lib a.audited.proxy) :
    (a.audited.proxy.step lib (.restart visit)).registry.Lists virtual slot ↔
      ∃ reg, a.saved = some reg ∧ reg.Lists virtual slot := by
  have hvisit' : VisitsReply lib.json (a.audited.proxy.db.lookup registryKey) visit := hvisit
  rw [Proxy.step]
  cases hs : a.saved with
  | none =>
    rw [h.unsaved hs]
    refine iff_of_false ?_ ?_
    · rintro ⟨v, hv, _⟩
      cases hv
    · rintro ⟨reg, hreg, _⟩
      cases hreg
  | some reg =>
    obtain ⟨text, hm, hl⟩ := h.readable reg hs
    rw [hl] at hvisit'
    obtain ⟨hload, hvisits⟩ := (hjson reg text hs hm).load lib.hash32 hvisit'
    rw [hl, hload]
    simp only [Option.some.injEq, exists_eq_left']
    exact loadSchema_lists_iff lib.hash32 hvisits

/-- After a crash every slot in the store is listed again exactly when the mappings made since the
last checkpoint are to slots listed there. -/
theorem mappings_survive_crash_iff (lib : External) (es : List Event) (a : Persisted)
    (visit : SchemaVisit) (hrun : Run (Persisted.Step lib) Persisted.start es a)
    (hes : ∀ e ∈ es, e.InProcess ∧ ¬ e.Names lib registryKey)
    (hjson : ∀ reg text, a.saved = some reg → lib.json.marshal reg.schema = .ok text →
      lib.json.ReadsBack reg.schema text)
    (hvisit : (Event.restart visit).Enabled lib a.audited.proxy) :
    (∀ w virtual slot, a.Maps w virtual slot → slot ≠ [] →
      (a.audited.proxy.step lib (.restart visit)).registry.Lists virtual slot) ↔
    (∀ w virtual slot, latest w a.since = some (.tenant virtual, slot) → slot ≠ [] →
      ∃ reg, a.saved = some reg ∧ reg.Lists virtual slot) := by
  have hd := durable_run hrun hes
  obtain ⟨old, hlog, hold⟩ := hd.settled
  constructor
  · intro hall w virtual slot hl hne
    rw [← hd.restart_lists_iff hjson hvisit]
    apply hall w virtual slot _ hne
    rw [Persisted.maps_iff hrun, hlog]
    exact latest_append_of_latest hl old
  · intro hsince w virtual slot hl hne
    rw [hd.restart_lists_iff hjson hvisit]
    rw [Persisted.maps_iff hrun, hlog] at hl
    cases latest_append_cases hl with
    | inl hbefore => exact hold w virtual slot hbefore hne
    | inr hafter => exact hsince w virtual slot hafter hne

def startThenSave : List Event := ordersEvents ++ [startW1, .checkpoint]

theorem startThenSave_permitted (lib : External) :
    ∀ e ∈ startThenSave, (∀ s, e.Enabled lib s) ∧ e.InProcess ∧ ¬ e.Names lib registryKey := by
  intro e he
  simp only [startThenSave, ordersEvents, List.cons_append, List.nil_append, List.mem_cons,
    List.not_mem_nil, or_false] at he
  rcases he with rfl | rfl | rfl | rfl | rfl | rfl | rfl
  · exact ⟨fun _ => trivial, trivial, id⟩
  · exact ⟨fun _ => trivial, trivial, id⟩
  · exact ⟨fun _ => trivial, trivial, id⟩
  · exact ⟨fun _ => trivial, trivial, id⟩
  · exact ⟨fun _ => trivial, trivial, id⟩
  · refine ⟨fun _ => trivial, trivial, fun hname => ?_⟩
    exact absurd (Outcome.ok.inj hname) (by decide)
  · exact ⟨fun _ => trivial, trivial, id⟩

theorem mappings_survive_crash_iff_orders :
    let a := startThenSave.foldl (Persisted.next sampleExternal) Persisted.start
    a.Maps (lit "w1") (lit "orders") orders2 ∧
      (a.audited.proxy.step sampleExternal (.restart ordersSchema.rows)).registry.Lists
        (lit "orders") orders2 := by
  intro a
  have hrun : Run (Persisted.Step sampleExternal) Persisted.start startThenSave a :=
    run_foldl _ _ (fun e he a => ⟨(startThenSave_permitted sampleExternal e he).1 _, rfl⟩)
  -- one evaluation of the run for both facts
  have hstate : latest (lit "w1") a.audited.log = some (.tenant (lit "orders"), orders2) ∧
      a.since.length = 0 := by
    decide +kernel
  have hmaps : a.Maps (lit "w1") (lit "orders") orders2 := (Persisted.maps_iff hrun).mpr hstate.1
  have hsince : a.since = [] := List.eq_nil_of_length_eq_zero hstate.2
  refine ⟨hmaps, (mappings_survive_crash_iff sampleExternal startThenSave a ordersSchema.rows hrun
    (fun e he => (startThenSave_permitted sampleExternal e he).2)
    (fun reg text _ hm => ordersCodec_readsBack hm) (visitsReply_orders _)).mpr ?_ (lit "w1") _ _
    hmaps (by decide)⟩
  rw [hsince]
  nofun

theorem startedW1_subset : startedW1 ⊆ startThenSave := by
  intro e he
  simp only [startedW1, List.mem_cons, List.not_mem_nil, or_false] at he
  simp only [startThenSave, ordersEvents, List.cons_append, List.nil_append, List.mem_cons]
  rcases he with rfl | rfl | rfl
  · exact .inl rfl
  · exact .inr (.inl rfl)
  · exact .inr (.inr (.inr (.inr (.inr (.inl rfl)))))

/-- A crash before the first checkpoint: the mapping stays, but the virtual namespace is gone. -/
theorem crash_forgets_slot :
    ¬ ∀ (lib : External) (es : List Event) (a : Persisted) (visit : SchemaVisit),
      Run (Persisted.Step lib) Persisted.start es a →
      (∀ e ∈ es, e.InProcess ∧ ¬ e.Names lib registryKey) →
      (∀ schema text, lib.json.marshal schema = .ok text →
        lib.json.unmarshal text = .ok schema) →
      (Event.restart visit).Enabled lib a.audited.proxy →
      ∀ w virtual slot, a.Maps w virtual slot → slot ≠ [] →
        (a.audited.proxy.step lib (.restart visit)).registry.Lists virtual slot := by
  intro hall
  have hpermitted := fun e he => startThenSave_permitted sampleExternal e (startedW1_subset he)
  have hrun : Run (Persisted.Step sampleExternal) Persisted.start startedW1
      (startedW1.foldl (Persisted.next sampleExternal) Persisted.start) :=
    run_foldl _ _ (fun e he a => ⟨(hpermitted e he).1 _, rfl⟩)
  have hmaps : (startedW1.foldl (Persisted.next sampleExternal) Persisted.start).Maps
      (lit "w1") (lit "orders") orders1 :=
    (Persisted.maps_iff hrun).mpr (by decide +kernel)
  obtain ⟨v, hv, _⟩ := hall sampleExternal startedW1 _ ordersSchema.rows hrun
    (fun e he => (hpermitted e he).2) (fun _ _ hm => ordersCodec_roundTrips hm)
    (visitsReply_orders _) (lit "w1") (lit "orders") orders1 hmaps (by decide)
  have hgone : (((startedW1.foldl (Persisted.next sampleExternal)
      Persisted.start).audited.proxy.step sampleExternal
        (.restart ordersSchema.rows)).registry.resolve (lit "orders")).isNone := by
    decide +kernel
  rw [hv] at hgone
  cases hgone

end Tempura
