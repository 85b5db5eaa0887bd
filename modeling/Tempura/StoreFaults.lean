import Tempura.Completion

namespace Tempura
open Base
set_option autoImplicit true

/-- A call of `Resolve`, whose read may fail, or a call on a virtual namespace. -/
inductive FaultyEvent where
  | resolve (payload : Payload) (failure : Option GoString)
  | change (virtual : GoString) (c : NamespaceCall)

def Mappings.faultyReply (db : Redis) (key : GoString) : Option GoString → Reply
  | none => Mappings.reply db key
  | some text => .failed text

section Steps
variable (hash32 : GoString → UInt32)

def Proxy.resolveFaulty (s : Proxy) (payload : Payload) (failure : Option GoString) :
    (GoString × Bool) × Proxy :=
  s.resolveWith hash32 payload (Mappings.faultyReply s.db payload.workflowID failure)

def Proxy.faultyStep (s : Proxy) : FaultyEvent → Proxy
  | .resolve payload failure => (s.resolveFaulty hash32 payload failure).2
  | .change virtual c => { s with registry := s.registry.step hash32 (.call virtual c) }

/-- The store maps `w` to `physNs` after the step, and an answer for `w` is `physNs` or empty. -/
structure FaultyEvent.Keeps (w physNs : GoString) (s : Proxy) (e : FaultyEvent) : Prop where
  mapped : (s.faultyStep hash32 e).db.lookup w = some physNs
  answer : ∀ payload failure, e = .resolve payload failure → payload.workflowID = w →
    (s.resolveFaulty hash32 payload failure).1.1 ≠ [] →
    (s.resolveFaulty hash32 payload failure).1.1 = physNs

/-- If the read of `w` fails, the ring has `physNs` for it, or there is no ring. -/
def FaultyEvent.Harmless (w physNs : GoString) (s : Proxy) (e : FaultyEvent) : Prop :=
  ∀ payload text v, e = .resolve payload (some text) → payload.workflowID = w →
    s.registry.resolve payload.virtualNamespace = some v → v.ring.getSlot hash32 w = physNs

end Steps

variable {hash32 : GoString → UInt32}

theorem Proxy.lookup_resolveWith_of_ne {payload : Payload} (s : Proxy) (reply : Reply)
    (hw : w ≠ payload.workflowID) :
    (s.resolveWith hash32 payload reply).2.db.lookup w = s.db.lookup w := by
  rw [resolveWith]
  by_cases h : Mappings.get reply ≠ []
  · simp only [if_pos h]
  · simp only [if_neg h]
    cases s.registry.resolve payload.virtualNamespace with
    | none => rfl
    | some v => exact AList.lookup_insert_ne hw

/-- A failed read looks like a missing entry: the ring decides, and its answer is stored. -/
theorem Proxy.resolveFaulty_failed (s : Proxy) (payload : Payload) (text : GoString) :
    (s.resolveFaulty hash32 payload (some text)).1.1 = slotOf hash32 payload s.registry ∧
      (s.resolveFaulty hash32 payload (some text)).2.db =
        match s.registry.resolve payload.virtualNamespace with
        | none => s.db
        | some v => s.db.insert payload.workflowID (v.ring.getSlot hash32 payload.workflowID) := by
  simp only [resolveFaulty, resolveWith, Mappings.faultyReply, Mappings.get, slotOf, ne_eq,
    not_true_eq_false, if_false]
  cases s.registry.resolve payload.virtualNamespace with
  | none => exact ⟨rfl, rfl⟩
  | some v => exact ⟨rfl, rfl⟩

theorem FaultyEvent.keeps_failed_iff {s : Proxy} {payload : Payload} (text : GoString)
    (hmap : s.db.lookup payload.workflowID = some physNs) :
    (FaultyEvent.resolve payload (some text)).Keeps hash32 payload.workflowID physNs s ↔
      ∀ v, s.registry.resolve payload.virtualNamespace = some v →
        v.ring.getSlot hash32 payload.workflowID = physNs := by
  obtain ⟨hanswer, hdb⟩ := @Proxy.resolveFaulty_failed hash32 s payload text
  rw [slotOf] at hanswer
  cases hv : s.registry.resolve payload.virtualNamespace with
  | none =>
    rw [hv] at hanswer hdb
    refine iff_of_true ⟨?_, ?_⟩ (fun v h => absurd h (Option.some_ne_none v).symm)
    · rw [Proxy.faultyStep, hdb, hmap]
    · rintro _ _ ⟨⟩ _ hne
      exact absurd hanswer hne
  | some v =>
    simp only [hv] at hanswer hdb
    have hstored : (s.resolveFaulty hash32 payload (some text)).2.db.lookup payload.workflowID =
        some (v.ring.getSlot hash32 payload.workflowID) := by
      rw [hdb]
      exact AList.lookup_insert _
    constructor
    · rintro hkeeps _ ⟨⟩
      exact Option.some.inj (hstored.symm.trans hkeeps.mapped)
    · intro hslot
      rw [hslot v rfl] at hanswer hstored
      refine ⟨hstored, ?_⟩
      rintro _ _ ⟨⟩ _ _
      exact hanswer

theorem FaultyEvent.keeps_iff {s : Proxy} (e : FaultyEvent) (hne : physNs ≠ [])
    (hmap : s.db.lookup w = some physNs) :
    e.Keeps hash32 w physNs s ↔ e.Harmless hash32 w physNs s := by
  cases e with
  | change virtual c => exact iff_of_true ⟨hmap, nofun⟩ nofun
  | resolve payload failure =>
    by_cases hw : payload.workflowID = w
    · subst w
      cases failure with
      | none =>
        have hs : Mappings.stored s.db payload.workflowID = physNs := Mappings.stored_of_lookup hmap
        have hhit : s.resolveFaulty hash32 payload none = ((physNs, true), s) := by
          have hit := @Proxy.resolve_hit hash32 s payload (hs.trans_ne hne)
          rw [hs] at hit
          exact hit
        refine iff_of_true ⟨?_, ?_⟩ nofun
        · rw [Proxy.faultyStep, hhit]
          exact hmap
        · rintro _ _ ⟨⟩ _ _
          rw [hhit]
      | some text =>
        rw [keeps_failed_iff text hmap]
        constructor
        · rintro hslot _ _ v ⟨⟩ _ hv
          exact hslot v hv
        · intro hharmless v hv
          exact hharmless payload text v rfl rfl hv
    · refine iff_of_true ⟨?_, ?_⟩ ?_
      · rw [← hmap]
        exact s.lookup_resolveWith_of_ne _ (Ne.symm hw)
      · rintro _ _ ⟨⟩ hw'
        exact absurd hw' hw
      · rintro _ _ _ ⟨⟩ hw'
        exact absurd hw' hw

/-- A mapping outlives failed reads, and decides every answer, exactly in the runs in which the ring
agrees with it whenever a read of the workflow id fails. -/
theorem failed_reads_keep_mapping_iff (hash32 : GoString → UInt32) (s : Proxy)
    (w physNs : GoString) (es : List FaultyEvent) (hmap : s.db.lookup w = some physNs)
    (hne : physNs ≠ []) :
    Along (Proxy.faultyStep hash32) (FaultyEvent.Keeps hash32 w physNs) s es ↔
      Along (Proxy.faultyStep hash32) (FaultyEvent.Harmless hash32 w physNs) s es := by
  apply along_iff (I := fun s => s.db.lookup w = some physNs) _ _ hmap
  · intro s e h
    exact e.keeps_iff hne h
  · intro s e _ hkeeps
    exact hkeeps.mapped

theorem failed_reads_keep_mapping_iff_orders :
    Along (Proxy.faultyStep murmur3Sum32) (FaultyEvent.Keeps murmur3Sum32 (lit "w1") orders1)
      placedW1 [.resolve ⟨lit "w1", lit "orders"⟩ (some (lit "i/o timeout"))] := by
  refine (failed_reads_keep_mapping_iff murmur3Sum32 placedW1 (lit "w1") orders1 _ placedW1_lookup
    (by decide)).mpr ⟨?_, trivial⟩
  rintro _ _ v ⟨⟩ _ hv
  rw [← placedW1_slot, slotOf_of_resolve hv]

/-- A read that fails after the slot was replaced moves the workflow. -/
theorem failed_read_moves_workflow :
    ¬ ∀ (hash32 : GoString → UInt32) (s : Proxy) (w physNs : GoString) (es : List FaultyEvent),
      s.db.lookup w = some physNs → physNs ≠ [] →
      Along (Proxy.faultyStep hash32) (FaultyEvent.Keeps hash32 w physNs) s es := by
  intro hall
  have h := hall murmur3Sum32 placedW1 (lit "w1") orders1
    [.change (lit "orders") (.add orders2), .change (lit "orders") (.remove orders1),
      .resolve ⟨lit "w1", lit "orders"⟩ (some (lit "i/o timeout"))] placedW1_lookup (by decide)
  have hslot := replacedOrders1_slot
  have hkeeps := (@FaultyEvent.keeps_failed_iff murmur3Sum32 orders1
    { placedW1 with
      registry :=
        replaceOrders1.foldl (VirtualNamespaceRegistry.step murmur3Sum32) placedW1.registry }
    ⟨lit "w1", lit "orders"⟩ (lit "i/o timeout") placedW1_lookup).mp h.2.2.1
  rw [slotOf] at hslot
  split at hslot
  · cases hslot
  · next v hv =>
    rw [hkeeps v hv] at hslot
    exact absurd hslot (by decide)

end Tempura
