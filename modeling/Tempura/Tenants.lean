import Tempura.Isolation
import Tempura.Traffic

namespace Tempura
open Base
set_option autoImplicit true

/-- What no step undoes: an object keeps its name and the slots it lists. -/
def RegistryHeap.Keeps (heap heap' : RegistryHeap) : Prop :=
  ∀ (ref : Nat) (v : VirtualNamespace), heap.objects[ref]? = some v →
    ∃ v' : VirtualNamespace, heap'.objects[ref]? = some v' ∧ v'.name = v.name ∧
      v.getAllNamespaces ⊆ v'.getAllNamespaces

/-- Rings hold only listed slots, and a name leads to an object of that name. -/
structure RegistryHeap.Named (heap : RegistryHeap) : Prop where
  ring : ∀ v ∈ heap.objects, v.RingNamed
  find : ∀ name ref, heap.find name = some ref →
    ∃ v : VirtualNamespace, heap.objects[ref]? = some v ∧ v.name = name

theorem VirtualNamespace.call_lists (v : VirtualNamespace) (hash32 : GoString → UInt32)
    (c : NamespaceCall) : v.getAllNamespaces ⊆ (v.call hash32 c).getAllNamespaces := by
  intro slot hs
  cases c with
  | add name => exact v.getAllNamespaces_add_subset name hs
  | remove name => exact mem_getAllNamespaces_remove.mpr hs

section Heap
variable {hash32 : GoString → UInt32} {heap heap' : RegistryHeap}

theorem RegistryHeap.Keeps.refl (heap : RegistryHeap) : heap.Keeps heap :=
  fun _ v hv => ⟨v, hv, rfl, List.Subset.refl _⟩

theorem RegistryHeap.Keeps.trans {heap'' : RegistryHeap} (h : heap.Keeps heap')
    (h' : heap'.Keeps heap'') : heap.Keeps heap'' := by
  intro ref v hv
  obtain ⟨v', hv', hname, hsub⟩ := h ref v hv
  obtain ⟨v'', hv'', hname', hsub'⟩ := h' ref v' hv'
  exact ⟨v'', hv'', hname'.trans hname, fun slot hs => hsub' (hsub hs)⟩

theorem AdminCall.Move.heap_calls {c : AdminCall} (h : c.Move hash32 heap st heap' st') :
    heap' = heap ∨ (∃ name, heap' = heap.register name (newVirtualNamespace name)) ∨
      ∃ (ref : Nat) (v : VirtualNamespace) (call : NamespaceCall), heap.objects[ref]? = some v ∧
        delim <:+: call.name ∧ heap' = heap.set ref (v.call hash32 call) := by
  cases h with
  | register hr => exact .inr (.inl ⟨_, rfl⟩)
  | add hr ho => exact .inr (.inr ⟨_, _, .add _, ho, delim_infix_build _ _, rfl⟩)
  | remove hr ho => exact .inr (.inr ⟨_, _, .remove _, ho, delim_infix_build _ _, rfl⟩)
  | refuse hs => exact .inl rfl
  | check hr hf => exact .inl rfl
  | holdAdd hr hf => exact .inl rfl
  | holdRemove hr hf => exact .inl rfl
  | idle hst => exact .inl rfl

theorem RegistryHeap.forall_register {Q : VirtualNamespace → Prop} (h : ∀ v ∈ heap.objects, Q v)
    (name : GoString) {v : VirtualNamespace} (hv : Q v) :
    ∀ u ∈ (heap.register name v).objects, Q u := by
  intro u hu
  rcases List.mem_append.mp hu with hu | hu
  · exact h u hu
  · rw [List.mem_singleton.mp hu]
    exact hv

theorem RegistryHeap.forall_set {Q : VirtualNamespace → Prop} (h : ∀ v ∈ heap.objects, Q v)
    (ref : Nat) {v : VirtualNamespace} (hv : Q v) : ∀ u ∈ (heap.set ref v).objects, Q u := by
  intro u hu
  rcases List.mem_or_eq_of_mem_set hu with hu | rfl
  · exact h u hu
  · exact hv

theorem AdminCall.Move.objects {Q : VirtualNamespace → Prop} {c : AdminCall}
    (h : c.Move hash32 heap st heap' st') (hnew : ∀ name, Q (newVirtualNamespace name))
    (hcall : ∀ v call, Q v → delim <:+: call.name → Q (v.call hash32 call))
    (hall : ∀ v ∈ heap.objects, Q v) : ∀ v ∈ heap'.objects, Q v := by
  obtain rfl | ⟨name, rfl⟩ | ⟨ref, v, call, ho, hdelim, rfl⟩ := h.heap_calls
  · exact hall
  · exact RegistryHeap.forall_register hall name (hnew name)
  · exact RegistryHeap.forall_set hall ref (hcall v call (hall v (List.mem_of_getElem? ho)) hdelim)

theorem RegistryHeap.keeps_register (heap : RegistryHeap) (name : GoString)
    (v : VirtualNamespace) : heap.Keeps (heap.register name v) := by
  intro ref u hu
  obtain ⟨hlt, -⟩ := List.getElem?_eq_some_iff.mp hu
  exact ⟨u, (List.getElem?_append_left hlt).trans hu, rfl, List.Subset.refl _⟩

theorem RegistryHeap.keeps_call {v : VirtualNamespace} (ho : heap.objects[ref]? = some v)
    (call : NamespaceCall) : heap.Keeps (heap.set ref (v.call hash32 call)) := by
  intro ref' u hu
  by_cases he : ref = ref'
  · subst ref'
    cases ho.symm.trans hu
    obtain ⟨hlt, -⟩ := List.getElem?_eq_some_iff.mp ho
    exact ⟨_, List.getElem?_set_self hlt, v.call_name hash32 call, v.call_lists hash32 call⟩
  · exact ⟨u, (List.getElem?_set_ne he).trans hu, rfl, List.Subset.refl _⟩

theorem AdminCall.Move.keeps {c : AdminCall} (h : c.Move hash32 heap st heap' st') :
    heap.Keeps heap' := by
  obtain rfl | ⟨name, rfl⟩ | ⟨ref, v, call, ho, -, rfl⟩ := h.heap_calls
  · exact .refl _
  · exact heap.keeps_register name _
  · exact RegistryHeap.keeps_call ho call

theorem RegistryHeap.Named.register (h : heap.Named) (name : GoString) :
    RegistryHeap.Named (heap.register name (newVirtualNamespace name)) := by
  constructor
  case ring => exact RegistryHeap.forall_register h.ring name (ringNamed_new name)
  case find =>
    intro name' ref hf
    rw [ObjectTable.find_register] at hf
    by_cases hn : name' = name
    · rw [if_pos hn] at hf
      cases hf
      exact ⟨_, List.getElem?_concat_length, hn.symm⟩
    · rw [if_neg hn] at hf
      obtain ⟨v, hv, hname⟩ := h.find name' ref hf
      obtain ⟨v', hv', hname', -⟩ := heap.keeps_register name (newVirtualNamespace name) ref v hv
      exact ⟨v', hv', hname'.trans hname⟩

theorem RegistryHeap.Named.call (h : heap.Named) {v : VirtualNamespace}
    (ho : heap.objects[ref]? = some v) (call : NamespaceCall) :
    RegistryHeap.Named (heap.set ref (v.call hash32 call)) := by
  constructor
  case ring =>
    exact RegistryHeap.forall_set h.ring ref
      ((h.ring v (List.mem_of_getElem? ho)).call hash32 call)
  case find =>
    intro name ref' hf
    obtain ⟨u, hu, hname⟩ := h.find name ref' hf
    obtain ⟨u', hu', hname', -⟩ := RegistryHeap.keeps_call ho call ref' u hu
    exact ⟨u', hu', hname'.trans hname⟩

theorem AdminCall.Move.named {c : AdminCall} (h : c.Move hash32 heap st heap' st')
    (hn : heap.Named) : heap'.Named := by
  obtain rfl | ⟨name, rfl⟩ | ⟨ref, v, call, ho, -, rfl⟩ := h.heap_calls
  · exact hn
  · exact hn.register name
  · exact hn.call ho call

end Heap

section Tenants
variable (lib : External) (belongs : GoString → GoString → Prop)

/-- The slot is empty, or a virtual namespace that the workflow belongs to lists it. -/
def RegistryHeap.Owned (heap : RegistryHeap) (workflowID slot : GoString) : Prop :=
  slot = [] ∨ ∃ v ∈ heap.objects, belongs workflowID v.name ∧ slot ∈ v.getAllNamespaces

structure Shared.Separate (s : Shared) : Prop where
  named : s.heap.Named
  stored : ∀ workflowID slot, workflowID ≠ registryKey →
    s.db.lookup workflowID = some slot → s.heap.Owned belongs workflowID slot

variable {belongs}

theorem RegistryHeap.owned_of_mem {heap : RegistryHeap} {ref : Nat} {v : VirtualNamespace}
    (hv : heap.objects[ref]? = some v) (hname : v.name = name) (hb : belongs w name)
    (hs : slot ∈ v.getAllNamespaces) : heap.Owned belongs w slot := by
  refine .inr ⟨v, List.mem_of_getElem? hv, ?_, hs⟩
  rw [hname]
  exact hb

theorem RegistryHeap.Owned.later {heap heap' : RegistryHeap} (h : heap.Owned belongs w slot)
    (hk : heap.Keeps heap') : heap'.Owned belongs w slot := by
  rcases h with h | ⟨v, hv, hb, hs⟩
  · exact .inl h
  · obtain ⟨ref, hr⟩ := List.mem_iff_getElem?.mp hv
    obtain ⟨v', hr', hname, hsub⟩ := hk ref v hr
    exact owned_of_mem hr' hname hb (hsub hs)

variable (belongs)

/-- Workflows stay with the slots of the virtual namespaces they belong to. -/
def tenancy : Placement lib (fun virtual _ w => belongs w virtual) where
  inv := RegistryHeap.Named
  later := RegistryHeap.Keeps
  names := belongs
  found heap name ref :=
    ∃ v : VirtualNamespace, heap.objects[ref]? = some v ∧ v.name = name
  fits heap := heap.Owned belongs
  lists _ := True
  pinned _ _ := False
  refl := .refl
  trans := .trans
  found_of_find hinv hf := hinv.find _ _ hf
  found_later := by
    rintro heap heap' name ref hk ⟨v, hv, hname⟩
    obtain ⟨v', hv', hname', -⟩ := hk ref v hv
    exact ⟨v', hv', hname'.trans hname⟩
  fits_later hk howned := howned.later hk
  fits_nil := .inl rfl
  fits_getSlot := by
    rintro heap name ref v w hinv ⟨v', hv', hname⟩ hv hb
    cases hv.symm.trans hv'
    by_cases hne : v.ring.getSlot lib.hash32 w = []
    · exact .inl hne
    · have hring := hinv.ring v (List.mem_of_getElem? hv)
      exact RegistryHeap.owned_of_mem hv hname hb (hring.getSlot_mem hne)
  fits_task := by
    rintro heap name ref v w slot - ⟨v', hv', hname⟩ hv hs hb
    cases hv.symm.trans hv'
    exact RegistryHeap.owned_of_mem hv hname hb hs
  lists_names _ _ _ := trivial
  pinned_ne := @Placement.none_pinned
  pinned_task _ := False.elim

theorem Shared.Around.stored {s s' : Shared} (h : Shared.Around lib s s') (w : GoString)
    (hw : w ≠ registryKey) : s'.db.lookup w = s.db.lookup w := by
  cases h with
  | admin hst => rfl
  | checkpoint text => exact (FiniteMap.lookup_insert_ite _ _ _ _).trans (if_neg hw)

theorem tenancy_around : (tenancy lib belongs).Around (Shared.Around lib) where
  kept := by
    intro s s' hkept hstep
    have hstored := hstep.stored lib
    cases hstep with
    | admin hst =>
      exact hkept.frame ((AdminCall.next_move hst).named hkept.heap)
        (AdminCall.next_move hst).keeps hstored
    | checkpoint text => exact hkept.frame hkept.heap (.refl _) hstored
  later := by
    intro s s' _ hstep
    cases hstep with
    | admin hst => exact (AdminCall.next_move hst).keeps
    | checkpoint text => exact .refl _

end Tenants

/-- Where requests and tasks keep to the virtual namespaces of their workflows, so do all mappings
and all slots that requests are sent to, but for the key of the registry. -/
theorem interleaved_tenants {ι : Type} [DecidableEq ι] (lib : External) (faults : StoreFaults)
    (belongs : GoString → GoString → Prop) (calls : ι → TrafficCall)
    (hcalls : ∀ i m req w, calls i = .request m req → m.kind.workflowID req = .ok w →
      belongs w (m.kind.ns req))
    (s₀ s : Threads ι Shared Access Access.Answer TrafficAnswer) (turns : List (Option ι))
    (hstart : ∀ i, s₀.thread i = (calls i).routine lib) (hsep : s₀.shared.Separate belongs)
    (hrun : Run (Threads.Step (Access.Does lib faults (fun virtual _ w => belongs w virtual))
      (Shared.Around lib)) s₀ turns s) :
    s.shared.Separate belongs ∧
      ∀ i m req w slot, calls i = .request m req → m.kind.workflowID req = .ok w →
        w ≠ registryKey → s.thread i = .ret (.routed (.ok slot)) →
        s.shared.heap.Owned belongs w slot := by
  have hkept : (tenancy lib belongs).Kept s₀.shared :=
    ⟨hsep.named, hsep.stored, fun _ _ => False.elim⟩
  have hadmits : ∀ i m req w, calls i = .request m req → m.kind.workflowID req = .ok w →
      (tenancy lib belongs).Admits faults m req w :=
    fun i m req w hc hw =>
      ⟨hcalls i m req w hc hw, fun _ _ _ _ => id, fun _ => False.elim⟩
  obtain ⟨hend, hanswers, -⟩ :=
    Placement.run (tenancy_around lib belongs) hadmits hstart hkept hrun
  refine ⟨⟨hend.heap, hend.stored⟩, fun i m req w slot hc hw hne hret => ?_⟩
  exact (hanswers i m req w slot hc hw hne hret).fits

def ordersHeap : RegistryHeap :=
  let heap : RegistryHeap :=
    ObjectTable.register ⟨∅, []⟩ (lit "orders") (newVirtualNamespace (lit "orders"))
  heap.set 0 ((newVirtualNamespace (lit "orders")).add murmur3Sum32 orders1)

theorem ordersHeap_named : ordersHeap.Named := by
  have hempty : RegistryHeap.Named ⟨∅, []⟩ := ⟨by simp, fun name ref h => by cases h⟩
  exact (hempty.register (lit "orders")).call rfl (.add orders1)

def ordersShared : Shared := ⟨ordersHeap, ∅, fun _ => 0⟩

def startW1Call : TrafficCall := .request .startWorkflowExecution ⟨lit "orders", lit "w1", []⟩

theorem recreated_run : ∃ turns s slot,
    Run (Threads.Step
      (Access.Does sampleExternal .never (fun virtual _ _ => virtual = lit "orders"))
      (Shared.Around sampleExternal))
      ⟨ordersShared, fun _ : Unit => startW1Call.routine sampleExternal⟩ turns s ∧
      s.shared.heap.find (lit "orders") = some 1 ∧ s.thread () = .ret (.routed (.ok slot)) := by
  have hcreate : AdminCall.Stage (.create ⟨lit "POST", .ok ⟨lit "orders"⟩⟩)
      (.absent (lit "orders")) := .absent rfl
  have hstart : Run (Threads.Step
      (Access.Does sampleExternal .never (fun virtual _ _ => virtual = lit "orders"))
      (Shared.Around sampleExternal))
      ⟨ordersShared, fun _ : Unit => startW1Call.routine sampleExternal⟩ [] _ := .nil
  have hget := hstart.snoc (.op (i := ()) rfl ⟨rfl, .inl rfl⟩)
  have hfind := hget.snoc (.op (i := ()) rfl ⟨rfl, rfl⟩)
  have hagain := hfind.snoc (.around (.admin hcreate))
  have hslot := hagain.snoc (.op (i := ()) rfl ⟨rfl, _, rfl, rfl⟩)
  have hcount := hslot.snoc (.op (i := ()) (x := ()) rfl rfl)
  have hput := hcount.snoc (.op (i := ()) (x := ()) rfl (.inl rfl))
  exact ⟨_, _, _, hput, rfl, rfl⟩

theorem interleaved_tenants_recreated : ∃ turns s slot,
    Run (Threads.Step
      (Access.Does sampleExternal .never (fun virtual _ _ => virtual = lit "orders"))
      (Shared.Around sampleExternal))
      ⟨ordersShared, fun _ : Unit => startW1Call.routine sampleExternal⟩ turns s ∧
      s.shared.heap.find (lit "orders") = some 1 ∧ s.thread () = .ret (.routed (.ok slot)) ∧
      s.shared.heap.Owned (fun _ name => name = lit "orders") (lit "w1") slot := by
  obtain ⟨turns, s, slot, hrun, hfind, hret⟩ := recreated_run
  refine ⟨turns, s, slot, hrun, hfind, hret, ?_⟩
  have hcalls : ∀ (i : Unit) (m : Method) (req : m.Message) (w : GoString),
      startW1Call = .request m req → m.kind.workflowID req = .ok w →
        m.kind.ns req = lit "orders" := by
    intro _ m req w hc _
    cases hc
    rfl
  have hsep : ordersShared.Separate (fun _ name => name = lit "orders") :=
    ⟨ordersHeap_named, fun w slot _ h => by cases h⟩
  obtain ⟨-, hanswers⟩ := interleaved_tenants sampleExternal .never _ _ hcalls _ s turns
    (fun _ => rfl) hsep hrun
  exact hanswers () _ _ (lit "w1") slot rfl rfl (by decide) hret

end Tempura
