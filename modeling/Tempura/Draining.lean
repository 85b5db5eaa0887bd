import Tempura.Cordon
import Tempura.InFlight
import Tempura.Tenants

namespace Tempura
open Base
set_option autoImplicit true

/-- No virtual namespace has the slot active: it is cordoned wherever it is listed. -/
def RegistryHeap.Inactive (heap : RegistryHeap) (slot : GoString) : Prop :=
  ∀ v ∈ heap.objects, v.namespaces.lookup slot ≠ some .active

def RegistryHeap.RingsActive (hash32 : GoString → UInt32) (heap : RegistryHeap) : Prop :=
  ∀ v ∈ heap.objects, v.RingActive hash32

theorem RegistryHeap.RingsActive.register {heap : RegistryHeap} (h : heap.RingsActive hash32)
    (name : GoString) :
    RegistryHeap.RingsActive hash32 (heap.register name (newVirtualNamespace name)) := by
  exact RegistryHeap.forall_register h name (ringActive_new hash32 name)

theorem RegistryHeap.RingsActive.call {heap : RegistryHeap} (h : heap.RingsActive hash32)
    {ref : Nat} {v : VirtualNamespace} (ho : heap.objects[ref]? = some v) (call : NamespaceCall) :
    RegistryHeap.RingsActive hash32 (heap.set ref (v.call hash32 call)) := by
  exact RegistryHeap.forall_set h ref ((h v (List.mem_of_getElem? ho)).call call)

theorem AdminCall.Move.ringsActive {c : AdminCall} {heap heap' : RegistryHeap}
    (h : c.Move hash32 heap st heap' st') (ha : heap.RingsActive hash32) :
    heap'.RingsActive hash32 :=
  h.objects (ringActive_new hash32) (fun _ call hv _ => hv.call call) ha

/-- Steps of the admin server and checkpoints, none of which makes the slot active again. -/
def Shared.Draining (lib : External) (slot : GoString) (s s' : Shared) : Prop :=
  Shared.Around lib s s' ∧ s'.heap.Inactive slot

/-- Only the workflows in `W` are at the slot. -/
def drained (lib : External) {slot : GoString} (hslot : slot ≠ []) (W : Set GoString) :
    Placement lib (fun _ physNs w => physNs = slot → w ∈ W) where
  inv heap := heap.RingsActive lib.hash32 ∧ heap.Inactive slot
  later _ _ := True
  names _ _ := True
  found _ _ _ := True
  fits _ w physNs := physNs = slot → w ∈ W
  lists _ := True
  pinned _ _ := False
  refl _ := trivial
  trans _ _ := trivial
  found_of_find _ _ := trivial
  found_later _ h := h
  fits_later _ h := h
  fits_nil h := absurd h.symm hslot
  fits_getSlot := by
    rintro heap name ref v w ⟨hrings, hinactive⟩ - hv - hw
    have hmem := List.mem_of_getElem? hv
    have hne : v.ring.getSlot lib.hash32 w ≠ [] := by
      rw [hw]
      exact hslot
    have hactive := (hrings v hmem).getSlot hne
    rw [hw] at hactive
    exact absurd hactive (hinactive v hmem)
  fits_task _ _ _ _ h := h
  lists_names _ _ _ := trivial
  pinned_ne := @Placement.none_pinned
  pinned_task _ := False.elim

theorem drained_around (lib : External) {slot : GoString} (hslot : slot ≠ []) (W : Set GoString) :
    (drained lib hslot W).Around (Shared.Draining lib slot) where
  kept := by
    rintro s s' hkept ⟨hstep, hinactive⟩
    refine hkept.frame ⟨?_, hinactive⟩ trivial (hstep.stored lib)
    cases hstep with
    | admin hst => exact (AdminCall.next_move hst).ringsActive hkept.heap.1
    | checkpoint text => exact hkept.heap.1
  later _ _ := trivial

/-- A step while the slot drains. Its cluster hands out tasks of the workflows in `W`. -/
abbrev DrainStep {ι : Type} [DecidableEq ι] (lib : External) (faults : StoreFaults)
    (slot : GoString) (W : Set GoString) :
    Threads ι Shared Access Access.Answer TrafficAnswer → Option ι →
      Threads ι Shared Access Access.Answer TrafficAnswer → Prop :=
  Threads.Step (Access.Does lib faults (fun _ physNs w => physNs = slot → w ∈ W))
    (Shared.Draining lib slot)

theorem drained_fits (lib : External) {slot : GoString} (hslot : slot ≠ []) {W : Set GoString}
    {heap : RegistryHeap} (h : physNs = slot → w ∈ W) :
    (drained lib hslot W).Fits heap w physNs :=
  ⟨h, fun _ => False.elim⟩

/-- Only workflows that were at the cordoned slot, that somebody was about to map to it, or that its
own cluster has tasks of are mapped or sent to it. -/
theorem cordoned_slot_drains {ι : Type} [DecidableEq ι] (lib : External) (faults : StoreFaults)
    (slot : GoString) (hslot : slot ≠ []) (W : Set GoString) (calls : ι → TrafficCall)
    (s₀ s : Threads ι Shared Access Access.Answer TrafficAnswer) (turns : List (Option ι))
    (hstart : ∀ i, ((calls i).routine lib).Leads (s₀.thread i))
    (hrings : s₀.shared.heap.RingsActive lib.hash32) (hcordoned : s₀.shared.heap.Inactive slot)
    (hthere : ∀ w, w ≠ registryKey → s₀.shared.db.lookup w = some slot → w ∈ W)
    (hflight : ∀ i w, w ≠ registryKey → (calls i).MayPut lib (s₀.thread i) w slot → w ∈ W)
    (hrun : Run (DrainStep lib faults slot W) s₀ turns s) :
    (∀ w, w ≠ registryKey → s.shared.db.lookup w = some slot → w ∈ W) ∧
      ∀ i m req w, calls i = .request m req → m.kind.workflowID req = .ok w → w ≠ registryKey →
        (∀ answer, s₀.thread i ≠ .ret answer) → s.thread i = .ret (.routed (.ok slot)) →
        w ∈ W := by
  have hkept : (drained lib hslot W).Kept s₀.shared := by
    refine ⟨⟨hrings, hcordoned⟩, ?_, fun _ _ => False.elim⟩
    rintro w physNs hw hl rfl
    exact hthere w hw hl
  have hpending : ∀ i w physNs, (calls i).MayPut lib (s₀.thread i) w physNs → w ≠ registryKey →
      (drained lib hslot W).Fits s₀.shared.heap w physNs := by
    intro i w physNs hput hne
    apply drained_fits lib hslot
    rintro rfl
    exact hflight i w hne hput
  obtain ⟨hend, hanswers⟩ := Placement.run_inFlight (drained_around lib hslot W)
    (fun _ _ _ _ _ _ => ⟨trivial, fun _ _ _ _ => id, fun _ => False.elim⟩)
    (drained_fits lib hslot) hstart hpending hkept hrun
  refine ⟨fun w hw hl => hend.stored w slot hw hl rfl, ?_⟩
  intro i m req w hc hw hne hopen hret
  exact (hanswers i m req w slot hc hw hne hopen hret).fits rfl

def cordonedHeap : RegistryHeap :=
  let v := ((newVirtualNamespace (lit "orders")).add murmur3Sum32 orders1).call murmur3Sum32
    (.add orders2)
  ordersHeap.set 0 (v.call murmur3Sum32 (.remove orders1))

theorem cordonedHeap_rings : cordonedHeap.RingsActive murmur3Sum32 := by
  have hempty : RegistryHeap.RingsActive murmur3Sum32 ⟨∅, []⟩ := fun v hv => by cases hv
  have hring := (ringActive_new murmur3Sum32 (lit "orders")).call (.add orders1)
  have horders : ordersHeap.RingsActive murmur3Sum32 :=
    RegistryHeap.forall_set (hempty.register (lit "orders")) 0 hring
  exact RegistryHeap.forall_set horders 0 ((hring.call (.add orders2)).call (.remove orders1))

theorem cordonedHeap_inactive : cordonedHeap.Inactive orders1 := by
  intro v hv
  rw [List.mem_singleton.mp hv]
  simp only [VirtualNamespace.call, VirtualNamespace.remove_lookup, if_pos]
  decide

def drainCalls : Bool → TrafficCall
  | false => .request .startWorkflowExecution ⟨lit "orders", lit "w2", []⟩
  | true => startW1Call

/-- The start of `w1` has got its slot from the ring before the slot was cordoned. -/
def drainBegin : Threads Bool Shared Access Access.Answer TrafficAnswer where
  shared := ⟨cordonedHeap, ∅, fun _ => 0⟩
  thread
    | false => (drainCalls false).routine sampleExternal
    | true => do
      (Access.count orders1).call
      (Access.put (lit "w1") orders1).call
      return .routed (.ok orders1)

theorem drainBegin_leads (i : Bool) :
    ((drainCalls i).routine sampleExternal).Leads (drainBegin.thread i) := by
  cases i with
  | false => exact .refl
  | true =>
    have hget := Program.Leads.op (o := Access.get (lit "w1"))
      (.refl (p := startW1Call.routine sampleExternal)) ([] : GoString)
    have hfind := hget.op (o := Access.find (lit "orders")) (some 0)
    exact hfind.op (o := Access.getSlot 0 (lit "w1")) orders1

theorem drain_run : ∃ turns s physNs,
    Run (DrainStep sampleExternal .never orders1 {lit "w1"}) drainBegin turns s ∧
      s.thread true = .ret (.routed (.ok orders1)) ∧
      s.thread false = .ret (.routed (.ok physNs)) := by
  have hstart : Run (DrainStep sampleExternal .never orders1 {lit "w1"}) drainBegin [] _ := .nil
  have hget := hstart.snoc (.op (i := false) rfl ⟨rfl, .inl rfl⟩)
  have hcount := hget.snoc (.op (i := true) (x := ()) rfl rfl)
  have hfind := hcount.snoc (.op (i := false) rfl ⟨rfl, rfl⟩)
  have hput := hfind.snoc (.op (i := true) (x := ()) rfl (.inl rfl))
  have hslot := hput.snoc (.op (i := false) rfl ⟨rfl, _, rfl, rfl⟩)
  have hcount' := hslot.snoc (.op (i := false) (x := ()) rfl rfl)
  have hput' := hcount'.snoc (.op (i := false) (x := ()) rfl (.inl rfl))
  exact ⟨_, _, _, hput', rfl, rfl⟩

theorem cordoned_slot_drains_orders : ∃ turns s physNs,
    Run (DrainStep sampleExternal .never orders1 {lit "w1"}) drainBegin turns s ∧
      s.thread true = .ret (.routed (.ok orders1)) ∧
      s.thread false = .ret (.routed (.ok physNs)) ∧ physNs ≠ orders1 := by
  obtain ⟨turns, s, physNs, hrun, htrue, hfalse⟩ := drain_run
  refine ⟨turns, s, physNs, hrun, htrue, hfalse, ?_⟩
  rintro rfl
  have hflight : ∀ i w, w ≠ registryKey →
      (drainCalls i).MayPut sampleExternal (drainBegin.thread i) w orders1 →
      w ∈ ({lit "w1"} : Set GoString) := by
    rintro (_ | _) w - ⟨hw, hfresh, -⟩
    · exact absurd rfl hfresh
    · cases hw
      exact Set.mem_singleton _
  have hdrains := cordoned_slot_drains sampleExternal .never orders1 (by decide) {lit "w1"}
    drainCalls drainBegin s turns drainBegin_leads cordonedHeap_rings cordonedHeap_inactive
    (fun w _ h => by cases h) hflight hrun
  have hw2 := hdrains.2 false _ _ (lit "w2") rfl rfl (by decide) (fun _ h => by cases h) hfalse
  exact absurd hw2 (by decide)

end Tempura
