import Mathlib.Logic.Function.Basic
import Tempura.Isolation

namespace Tempura
open Base
set_option autoImplicit true

/-- Where a call of `Resolve` stands between its atomic steps. -/
inductive CallState where
  | ready
  | missed
  | chosen (physNs : GoString)
  | returning (physNs : GoString)
  | returned (physNs : GoString)
  deriving DecidableEq

def CallState.slot? : CallState → Option GoString
  | .ready => none
  | .missed => none
  | .chosen physNs => some physNs
  | .returning physNs => some physNs
  | .returned physNs => some physNs

def CallState.Past : CallState → Prop
  | .ready => False
  | .missed => False
  | .chosen _ => False
  | .returning _ => True
  | .returned _ => True

structure Concurrent (ι : Type) where
  proxy : Proxy
  pc : ι → CallState

inductive Move (ι : Type) where
  | get (i : ι)
  | lookup (i : ι)
  | put (i : ι)
  | ret (i : ι)
  | change (call : NamespaceCall)
  deriving DecidableEq

section Steps
variable {ι : Type} [DecidableEq ι] (hash32 : GoString → UInt32) (payload : Payload)

/-- The steps of the calls, all with one payload, and changes of its virtual namespace. -/
inductive Concurrent.Step : Concurrent ι → Move ι → Concurrent ι → Prop
  | hit {c : Concurrent ι} {i : ι} (hpc : c.pc i = .ready)
      (hs : Mappings.stored c.proxy.db payload.workflowID ≠ []) :
      Step c (.get i)
        { c with
          pc := Function.update c.pc i
            (.returning (Mappings.stored c.proxy.db payload.workflowID)) }
  | miss {c : Concurrent ι} {i : ι} (hpc : c.pc i = .ready)
      (hs : Mappings.stored c.proxy.db payload.workflowID = []) :
      Step c (.get i) { c with pc := Function.update c.pc i .missed }
  | lookup {c : Concurrent ι} {i : ι} {v : VirtualNamespace} (hpc : c.pc i = .missed)
      (hv : c.proxy.registry.resolve payload.virtualNamespace = some v) :
      Step c (.lookup i)
        { proxy :=
            { c.proxy with
              totalWorkflowAllocated := fun label =>
                c.proxy.totalWorkflowAllocated label +
                  if label = v.ring.getSlot hash32 payload.workflowID then 1 else 0 }
          pc := Function.update c.pc i (.chosen (v.ring.getSlot hash32 payload.workflowID)) }
  | put {c : Concurrent ι} {i : ι} {physNs : GoString} (hpc : c.pc i = .chosen physNs) :
      Step c (.put i)
        { c with
          proxy := { c.proxy with db := Mappings.put c.proxy.db payload.workflowID physNs }
          pc := Function.update c.pc i (.returning physNs) }
  | ret {c : Concurrent ι} {i : ι} {physNs : GoString} (hpc : c.pc i = .returning physNs) :
      Step c (.ret i) { c with pc := Function.update c.pc i (.returned physNs) }
  | change {c : Concurrent ι} {v : VirtualNamespace} {call : NamespaceCall}
      (hv : c.proxy.registry.resolve payload.virtualNamespace = some v)
      (hactive : (v.call hash32 call).activeNames.Nonempty) :
      Step c (.change call)
        { c with
          proxy :=
            { c.proxy with
              registry := c.proxy.registry.step hash32 (.call payload.virtualNamespace call) } }

/-- The registry after some moves, and the slots its ring had at the lookups among them. -/
structure RingView where
  registry : VirtualNamespaceRegistry
  slots : List GoString

/-- Only the order of the lookups and the changes matters, not what the calls find in the store. -/
def RingView.observe (view : RingView) : Move ι → RingView
  | .get _ => view
  | .lookup _ => { view with slots := view.slots ++ [slotOf hash32 payload view.registry] }
  | .put _ => view
  | .ret _ => view
  | .change call =>
    { view with registry := view.registry.step hash32 (.call payload.virtualNamespace call) }

def ringView (reg : VirtualNamespaceRegistry) (moves : List (Move ι)) : RingView :=
  moves.foldl (RingView.observe hash32 payload) ⟨reg, []⟩

end Steps

/-- The slots that calls hold or have stored are the ones the ring had at the lookups. -/
structure Traced (w : GoString) (view : RingView) (c : Concurrent ι) : Prop where
  registry : c.proxy.registry = view.registry
  held : ∀ i p, (c.pc i).slot? = some p → p ∈ view.slots
  carried : ∀ p ∈ view.slots, ∃ i, (c.pc i).slot? = some p
  stored : ∀ p, c.proxy.db.lookup w = some p → p ∈ view.slots
  written : ∀ i, (c.pc i).Past → ∃ p, c.proxy.db.lookup w = some p

structure Concurrent.Initial (w : GoString) (c : Concurrent ι) : Prop where
  ready : ∀ i, c.pc i = .ready
  absent : c.proxy.db.lookup w = none

theorem Concurrent.Initial.traced {c : Concurrent ι} (h : c.Initial w) :
    Traced w ⟨c.proxy.registry, []⟩ c where
  registry := rfl
  held := by
    intro i p hp
    rw [h.ready i] at hp
    cases hp
  carried := nofun
  stored := by
    intro p hp
    rw [h.absent] at hp
    cases hp
  written := by
    intro i hp
    rw [h.ready i] at hp
    exact hp.elim

variable {ι : Type} [DecidableEq ι] {hash32 : GoString → UInt32} {payload : Payload}

/-- A call that nothing interrupts is `Resolve`. -/
theorem resolve_alone {c : Concurrent ι} {i : ι} {v : VirtualNamespace}
    (hpc : c.pc i = .ready) (hv : c.proxy.registry.resolve payload.virtualNamespace = some v) :
    ∃ moves c', Run (Concurrent.Step hash32 payload) c moves c' ∧
      c'.proxy = (c.proxy.resolve hash32 payload).2 ∧
      c'.pc i = .returned (c.proxy.resolve hash32 payload).1.1 := by
  by_cases hs : Mappings.stored c.proxy.db payload.workflowID ≠ []
  · rw [Proxy.resolve_hit hs]
    exact ⟨_, _, .snoc (.snoc .nil (.hit hpc hs)) (.ret (Function.update_self _ _ _)), rfl,
      Function.update_self _ _ _⟩
  · have hs' := not_not.mp hs
    rw [Proxy.resolve_miss hs' hv]
    exact ⟨_, _, .snoc (.snoc (.snoc (.snoc .nil (.miss hpc hs'))
      (.lookup (Function.update_self _ _ _) hv)) (.put (Function.update_self _ _ _)))
      (.ret (Function.update_self _ _ _)), rfl, Function.update_self _ _ _⟩

theorem Traced.move {c : Concurrent ι} (h : Traced w view c) (i : ι) (st : CallState) (s : Proxy)
    (slots : List GoString) (hreg : s.registry = c.proxy.registry)
    (hkeep : ∀ p, (c.pc i).slot? = some p → st.slot? = some p)
    (hheld : ∀ p, st.slot? = some p → p ∈ slots) (hold : ∀ p ∈ view.slots, p ∈ slots)
    (hnew : ∀ p ∈ slots, p ∈ view.slots ∨ st.slot? = some p)
    (hdb : ∀ p, s.db.lookup w = some p → p ∈ slots)
    (hlive : (∃ p, c.proxy.db.lookup w = some p) ∨ st.Past → ∃ p, s.db.lookup w = some p) :
    Traced w ⟨view.registry, slots⟩ ⟨s, Function.update c.pc i st⟩ where
  registry := hreg.trans h.registry
  held :=
    (Function.forall_update_iff c.pc (fun _ st => ∀ p, st.slot? = some p → p ∈ slots)).mpr
      ⟨hheld, fun j _ p hp => hold p (h.held j p hp)⟩
  carried := by
    intro p hp
    change ∃ j, (Function.update c.pc i st j).slot? = some p
    cases hnew p hp with
    | inl hmem =>
      obtain ⟨j, hj⟩ := h.carried p hmem
      by_cases hji : j = i
      · subst j
        exact ⟨i, by rw [Function.update_self]; exact hkeep p hj⟩
      · exact ⟨j, by rw [Function.update_of_ne hji]; exact hj⟩
    | inr hst => exact ⟨i, by rw [Function.update_self]; exact hst⟩
  stored := hdb
  written :=
    (Function.forall_update_iff c.pc (fun _ st => st.Past → ∃ p, s.db.lookup w = some p)).mpr
      ⟨fun hp => hlive (.inr hp), fun j _ hp => hlive (.inl (h.written j hp))⟩

theorem Concurrent.Step.traced {c c' : Concurrent ι} (h : Concurrent.Step hash32 payload c m c')
    (hc : Traced payload.workflowID view c) :
    Traced payload.workflowID (view.observe hash32 payload m) c' := by
  cases h with
  | @hit i hpc hs =>
    have hl := Mappings.lookup_of_stored rfl hs
    apply hc.move i _ c.proxy view.slots rfl (by rw [hpc]; nofun) _ (fun p hp => hp)
      (fun p hp => .inl hp) hc.stored (fun _ => ⟨_, hl⟩)
    intro p hp
    cases hp
    exact hc.stored _ hl
  | @miss i hpc hs =>
    exact hc.move i _ c.proxy view.slots rfl (by rw [hpc]; nofun) nofun (fun p hp => hp)
      (fun p hp => .inl hp) hc.stored (fun h => h.elim id False.elim)
  | @lookup i v hpc hv =>
    have hslot : slotOf hash32 payload view.registry =
        v.ring.getSlot hash32 payload.workflowID := by
      rw [slotOf, ← hc.registry, hv]
    rw [RingView.observe, hslot]
    apply hc.move i _ _ _ _ (by rw [hpc]; nofun)
    · intro p hp
      cases hp
      exact List.mem_append_right _ List.mem_cons_self
    · exact fun p hp => List.mem_append_left _ hp
    · intro p hp
      cases List.mem_append.mp hp with
      | inl hold => exact .inl hold
      | inr hnew =>
        rw [List.mem_singleton.mp hnew]
        exact .inr rfl
    · exact fun p hp => List.mem_append_left _ (hc.stored p hp)
    · exact fun h => h.elim id False.elim
    · rfl
  | @put i physNs hpc =>
    have hmem : physNs ∈ view.slots := hc.held i physNs (by rw [hpc]; rfl)
    have hl : (Mappings.put c.proxy.db payload.workflowID physNs).lookup payload.workflowID =
        some physNs := AList.lookup_insert _
    apply hc.move i _ { c.proxy with db := Mappings.put c.proxy.db payload.workflowID physNs }
      view.slots rfl (by rw [hpc]; exact fun p hp => hp) _ (fun p hp => hp)
      (fun p hp => .inl hp) _ (fun _ => ⟨_, hl⟩)
    · intro p hp
      cases hp
      exact hmem
    · intro p hp
      cases hl.symm.trans hp
      exact hmem
  | @ret i physNs hpc =>
    apply hc.move i _ c.proxy view.slots rfl (by rw [hpc]; exact fun p hp => hp) _
      (fun p hp => hp) (fun p hp => .inl hp) hc.stored
      (fun _ => hc.written i (by rw [hpc]; trivial))
    intro p hp
    exact hc.held i p (by rw [hpc]; exact hp)
  | @change v call hv hactive =>
    refine ⟨?_, hc.held, hc.carried, hc.stored, hc.written⟩
    rw [RingView.observe, hc.registry]

theorem traced_of_run {c₀ c : Concurrent ι} (h0 : c₀.Initial payload.workflowID)
    (hrun : Run (Concurrent.Step hash32 payload) c₀ moves c) :
    Traced payload.workflowID (ringView hash32 payload c₀.proxy.registry moves) c := by
  induction hrun with
  | nil => exact h0.traced
  | snoc hr hs ih =>
    rw [ringView, List.foldl_append]
    exact hs.traced ih

/-- All calls agree with each other and with the store exactly if the ring had the same slot for the
workflow id whenever one of them looked. -/
theorem concurrent_resolve_agree_iff {ι : Type} [DecidableEq ι] [Nonempty ι]
    (hash32 : GoString → UInt32) (payload : Payload) (c₀ c : Concurrent ι)
    (moves : List (Move ι)) (h0 : c₀.Initial payload.workflowID)
    (hrun : Run (Concurrent.Step hash32 payload) c₀ moves c)
    (hfin : ∀ i, ∃ p, c.pc i = .returned p) :
    (∃ p, (∀ i, c.pc i = .returned p) ∧ c.proxy.db.lookup payload.workflowID = some p) ↔
      ∀ p ∈ (ringView hash32 payload c₀.proxy.registry moves).slots,
        ∀ q ∈ (ringView hash32 payload c₀.proxy.registry moves).slots, p = q := by
  have htraced := traced_of_run h0 hrun
  constructor
  · intro ⟨r, hall, _⟩
    have hr (p : GoString) (hp : p ∈ (ringView hash32 payload c₀.proxy.registry moves).slots) :
        p = r := by
      obtain ⟨i, hi⟩ := htraced.carried p hp
      rw [hall i] at hi
      exact (Option.some.inj hi).symm
    intro p hp q hq
    rw [hr p hp, hr q hq]
  · intro hsame
    have hseen (i : ι) (p : GoString) (hi : c.pc i = .returned p) :
        p ∈ (ringView hash32 payload c₀.proxy.registry moves).slots :=
      htraced.held i p (by rw [hi]; rfl)
    obtain ⟨i₀⟩ := ‹Nonempty ι›
    obtain ⟨r, hr⟩ := hfin i₀
    obtain ⟨q, hq⟩ := htraced.written i₀ (by rw [hr]; trivial)
    refine ⟨r, ?_, ?_⟩
    · intro i
      obtain ⟨p, hp⟩ := hfin i
      rw [hp, hsame p (hseen i p hp) r (hseen i₀ r hr)]
    · rw [hq, hsame q (htraced.stored q hq) r (hseen i₀ r hr)]

def raceStart : Concurrent Bool :=
  ⟨singleSlot (lit "orders") (lit "c1.local:7233"), fun _ => .ready⟩

def racePayload : Payload := ⟨lit "w1", lit "orders"⟩

theorem raceStart_initial : raceStart.Initial (lit "w1") := ⟨fun _ => rfl, rfl⟩

theorem raceStart_slots : ∃ v, raceStart.proxy.registry.resolve (lit "orders") = some v ∧
    v.ring.getSlot murmur3Sum32 (lit "w1") = orders1 ∧
    ((v.call murmur3Sum32 (.add orders2)).call murmur3Sum32
      (.remove orders1)).ring.getSlot murmur3Sum32 (lit "w1") = orders2 := by
  have hmap : (raceStart.proxy.registry.resolve (lit "orders")).map (fun v =>
      (v.ring.getSlot murmur3Sum32 (lit "w1"),
        ((v.call murmur3Sum32 (.add orders2)).call murmur3Sum32
          (.remove orders1)).ring.getSlot murmur3Sum32 (lit "w1"))) =
      some (orders1, orders2) := by decide +kernel
  obtain ⟨v, hv, hslots⟩ := Option.map_eq_some_iff.mp hmap
  rw [Prod.mk.injEq] at hslots
  exact ⟨v, hv, hslots⟩

theorem concurrent_resolve_agree_iff_orders :
    ∃ moves c, Run (Concurrent.Step murmur3Sum32 racePayload) raceStart moves c ∧
      ∃ p, (∀ i, c.pc i = .returned p) ∧ c.proxy.db.lookup (lit "w1") = some p := by
  obtain ⟨v, hv, h1, _⟩ := raceStart_slots
  have hnil : Run (Concurrent.Step murmur3Sum32 racePayload) raceStart [] raceStart := .nil
  have hmissed := (hnil.snoc (.miss (i := true) rfl rfl)).snoc (.miss (i := false) rfl rfl)
  have hlooked := (hmissed.snoc (.lookup (i := true) rfl hv)).snoc (.lookup (i := false) rfl hv)
  have hput := (hlooked.snoc (.put (i := true) rfl)).snoc (.put (i := false) rfl)
  have hrun := (hput.snoc (.ret (i := true) rfl)).snoc (.ret (i := false) rfl)
  refine ⟨_, _, hrun, (concurrent_resolve_agree_iff murmur3Sum32 racePayload _ _ _
    raceStart_initial hrun ?_).mpr ?_⟩
  · intro i
    cases i <;> exact ⟨_, rfl⟩
  · intro p hp q hq
    simp only [ringView, List.nil_append, List.cons_append, List.foldl_cons, List.foldl_nil,
      RingView.observe, List.mem_cons, List.not_mem_nil, or_false, or_self] at hp hq
    rw [hp, hq]

/-- Two calls miss; the slot of the first is replaced before the second looks it up. -/
theorem concurrent_resolve_disagree :
    ¬ ∀ (hash32 : GoString → UInt32) (payload : Payload) (c₀ c : Concurrent Bool)
      (moves : List (Move Bool)), c₀.Initial payload.workflowID →
      Run (Concurrent.Step hash32 payload) c₀ moves c → (∀ i, ∃ p, c.pc i = .returned p) →
      ∃ p, (∀ i, c.pc i = .returned p) ∧ c.proxy.db.lookup payload.workflowID = some p := by
  intro hall
  obtain ⟨v, hv, h1, h2⟩ := raceStart_slots
  have hv1 := VirtualNamespaceRegistry.resolve_step_call hv murmur3Sum32 (.add orders2)
  have hv2 := VirtualNamespaceRegistry.resolve_step_call hv1 murmur3Sum32 (.remove orders1)
  have ha1 : orders2 ∈ (v.call murmur3Sum32 (.add orders2)).activeNames := by
    rw [VirtualNamespace.call, VirtualNamespace.activeNames_add]
    exact .inl rfl
  have ha2 : orders2 ∈ ((v.call murmur3Sum32 (.add orders2)).call murmur3Sum32
      (.remove orders1)).activeNames := by
    change orders2 ∈
      ((v.call murmur3Sum32 (.add orders2)).remove murmur3Sum32 orders1).2.activeNames
    rw [VirtualNamespace.activeNames_remove]
    exact ⟨ha1, by decide⟩
  have hnil : Run (Concurrent.Step murmur3Sum32 racePayload) raceStart [] raceStart := .nil
  have hmissed := (hnil.snoc (.miss (i := true) rfl rfl)).snoc (.miss (i := false) rfl rfl)
  have hfirst := hmissed.snoc (.lookup (i := true) rfl hv)
  have hchanged := (hfirst.snoc (.change hv ⟨_, ha1⟩)).snoc (.change hv1 ⟨_, ha2⟩)
  have hsecond := hchanged.snoc (.lookup (i := false) rfl hv2)
  have hput := (hsecond.snoc (.put (i := true) rfl)).snoc (.put (i := false) rfl)
  have hrun := (hput.snoc (.ret (i := true) rfl)).snoc (.ret (i := false) rfl)
  obtain ⟨p, hp, _⟩ := hall murmur3Sum32 racePayload _ _ _ raceStart_initial hrun (by
    intro i
    cases i <;> exact ⟨_, rfl⟩)
  have ht : CallState.returned (v.ring.getSlot murmur3Sum32 (lit "w1")) = .returned p := hp true
  have hf : CallState.returned (((v.call murmur3Sum32 (.add orders2)).call murmur3Sum32
    (.remove orders1)).ring.getSlot murmur3Sum32 (lit "w1")) = .returned p := hp false
  rw [h1] at ht
  rw [h2, ← ht] at hf
  exact absurd (CallState.returned.inj hf) (by decide)

end Tempura
