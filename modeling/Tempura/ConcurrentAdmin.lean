import Mathlib.Logic.Function.Basic
import Tempura.AdminApi
import Tempura.Base.ObjectTable
import Tempura.Base.Run

namespace Tempura
open Base
set_option autoImplicit true

/-- The content of the request, or the answer that refuses it. -/
def AdminRequest.checked (r : AdminRequest β) (required : GoString) (missing : β → Prop)
    [DecidablePred missing] : Except HttpResponse β :=
  if r.method ≠ lit "POST" then .error (httpError (lit "Method not allowed") 405)
  else
    match r.body with
    | .error e => .error (httpError e 400)
    | .ok req => if missing req then .error (httpError required 400) else .ok req

def AdminRequest.wantedName (r : AdminRequest CreateVirtualNamespaceRequest) :
    Except HttpResponse CreateVirtualNamespaceRequest :=
  r.checked (lit "name is required") (fun req => req.name = [])

def AdminRequest.wantedSlot (r : AdminRequest ManagePhysicalNamespaceRequest) :
    Except HttpResponse ManagePhysicalNamespaceRequest :=
  r.checked (lit "virtual_namespace, physical_namespace, and cluster_address are required")
    (fun req => req.virtualNamespace = [] ∨ req.physicalNamespace = [] ∨ req.clusterAddress = [])

def ManagePhysicalNamespaceRequest.slot (req : ManagePhysicalNamespaceRequest) : GoString :=
  buildPhysicalNamespace req.physicalNamespace req.clusterAddress

def createdAnswer (name : GoString) : HttpResponse :=
  ⟨201, lit "Virtual namespace '" ++ name ++ lit "' created successfully\n"⟩

def managedAnswer (req : ManagePhysicalNamespaceRequest) (done : GoString) : HttpResponse :=
  ⟨200, lit "Physical namespace '" ++ req.physicalNamespace ++ lit "' " ++ done ++
    lit " virtual namespace '" ++ req.virtualNamespace ++ lit "'\n"⟩

def answerAfter (resp : HttpResponse) : Outcome Unit → Outcome HttpResponse
  | .ok () => .ok resp
  | .err e => .err e
  | .panic => .panic
  | .hang => .hang

theorem createVirtual_eq (reg : VirtualNamespaceRegistry)
    (r : AdminRequest CreateVirtualNamespaceRequest) :
    createVirtual reg r =
      match r.wantedName with
      | .error resp => (resp, reg)
      | .ok req =>
        match reg.resolve req.name with
        | some _ => (httpError (lit "virtual namespace already exists") 409, reg)
        | none => (createdAnswer req.name, reg.register (newVirtualNamespace req.name)) := by
  rw [createVirtual, AdminRequest.wantedName, AdminRequest.checked]
  by_cases hm : r.method ≠ lit "POST"
  · rw [if_pos hm, if_pos hm]
  · rw [if_neg hm, if_neg hm]
    cases r.body with
    | error e => rfl
    | ok req =>
      by_cases he : req.name = []
      · simp only [if_pos he]
      · simp only [if_neg he]
        cases reg.resolve req.name <;> rfl

theorem managePhysical_eq (act : VirtualNamespace → GoString → Outcome Unit × VirtualNamespace)
    (done : GoString) (reg : VirtualNamespaceRegistry)
    (r : AdminRequest ManagePhysicalNamespaceRequest) :
    managePhysical act done reg r =
      match r.wantedSlot with
      | .error resp => (.ok resp, reg)
      | .ok req =>
        match reg.resolve req.virtualNamespace with
        | none => (.ok (httpError (lit "virtual namespace not found") 404), reg)
        | some v =>
          (answerAfter (managedAnswer req done) (act v req.slot).1,
            reg.update req.virtualNamespace (act v req.slot).2) := by
  rw [managePhysical, AdminRequest.wantedSlot, AdminRequest.checked]
  by_cases hm : r.method ≠ lit "POST"
  · rw [if_pos hm, if_pos hm]
  · rw [if_neg hm, if_neg hm]
    cases r.body with
    | error e => rfl
    | ok req =>
      by_cases he : req.virtualNamespace = [] ∨ req.physicalNamespace = [] ∨
          req.clusterAddress = []
      · simp only [if_pos he]
      · simp only [if_neg he, ManagePhysicalNamespaceRequest.slot]
        cases reg.resolve req.virtualNamespace with
        | none => rfl
        | some v =>
          simp only
          cases (act v (buildPhysicalNamespace req.physicalNamespace req.clusterAddress)).1 <;> rfl

/-- The registry as the code holds it, a map from names to pointers. -/
abbrev RegistryHeap := ObjectTable GoString VirtualNamespace

def RegistryHeap.Lists (heap : RegistryHeap) (virtual slot : GoString) : Prop :=
  ∃ v, heap.view virtual = some v ∧ slot ∈ v.getAllNamespaces

/-- Where a request stands between its atomic steps. -/
inductive AdminState where
  | arrived
  | absent (name : GoString)
  | adding (req : ManagePhysicalNamespaceRequest) (ref : Nat)
  | removing (req : ManagePhysicalNamespaceRequest) (ref : Nat)
  | finished (out : Outcome HttpResponse)

def RegistryHeap.hold (heap : RegistryHeap) (r : AdminRequest ManagePhysicalNamespaceRequest)
    (held : ManagePhysicalNamespaceRequest → Nat → AdminState) : AdminState :=
  match r.wantedSlot with
  | .error resp => .finished (.ok resp)
  | .ok req =>
    match heap.find req.virtualNamespace with
    | none => .finished (.ok (httpError (lit "virtual namespace not found") 404))
    | some ref => held req ref

namespace AdminCall

def look (heap : RegistryHeap) : AdminCall → AdminState
  | .create r =>
    match r.wantedName with
    | .error resp => .finished (.ok resp)
    | .ok req =>
      match heap.find req.name with
      | some _ => .finished (.ok (httpError (lit "virtual namespace already exists") 409))
      | none => .absent req.name
  | .add r => heap.hold r .adding
  | .remove r => heap.hold r .removing

def next (hash32 : GoString → UInt32) (c : AdminCall) (heap : RegistryHeap) :
    AdminState → RegistryHeap × AdminState
  | .arrived => (heap, c.look heap)
  | .absent name =>
    (heap.register name (newVirtualNamespace name), .finished (.ok (createdAnswer name)))
  | .adding req ref =>
    match heap.objects[ref]? with
    | none => (heap, .adding req ref)
    | some v =>
      (heap.set ref (v.add hash32 req.slot), .finished (.ok (managedAnswer req (lit "added to"))))
  | .removing req ref =>
    match heap.objects[ref]? with
    | none => (heap, .removing req ref)
    | some v =>
      let (outcome, v) := v.remove hash32 req.slot
      (heap.set ref v, .finished (answerAfter (managedAnswer req (lit "removed from")) outcome))
  | .finished out => (heap, .finished out)

def respond (hash32 : GoString → UInt32) (reg : VirtualNamespaceRegistry) :
    AdminCall → Outcome HttpResponse
  | .create r => .ok (createVirtual reg r).1
  | .add r => (addPhysical hash32 reg r).1
  | .remove r => (removePhysical hash32 reg r).1

inductive Stage : AdminCall → AdminState → Prop
  | arrived : Stage c .arrived
  | absent : r.wantedName = .ok req → Stage (.create r) (.absent req.name)
  | adding : r.wantedSlot = .ok req → Stage (.add r) (.adding req ref)
  | removing : r.wantedSlot = .ok req → Stage (.remove r) (.removing req ref)
  | finished : Stage c (.finished out)

/-- All that one step of a request can do to the registry and to its own state. -/
inductive Move (hash32 : GoString → UInt32) :
    AdminCall → RegistryHeap → AdminState → RegistryHeap → AdminState → Prop
  | refuse : 400 ≤ resp.status → Move hash32 c heap .arrived heap (.finished (.ok resp))
  | check : r.wantedName = .ok req → heap.find req.name = none →
    Move hash32 (.create r) heap .arrived heap (.absent req.name)
  | holdAdd : r.wantedSlot = .ok req → heap.find req.virtualNamespace = some ref →
    Move hash32 (.add r) heap .arrived heap (.adding req ref)
  | holdRemove : r.wantedSlot = .ok req → heap.find req.virtualNamespace = some ref →
    Move hash32 (.remove r) heap .arrived heap (.removing req ref)
  | register : r.wantedName = .ok req →
    Move hash32 (.create r) heap (.absent req.name)
      (heap.register req.name (newVirtualNamespace req.name))
      (.finished (.ok (createdAnswer req.name)))
  | add : r.wantedSlot = .ok req → heap.objects[ref]? = some v →
    Move hash32 (.add r) heap (.adding req ref) (heap.set ref (v.add hash32 req.slot))
      (.finished (.ok (managedAnswer req (lit "added to"))))
  | remove : r.wantedSlot = .ok req → heap.objects[ref]? = some v →
    Move hash32 (.remove r) heap (.removing req ref) (heap.set ref (v.remove hash32 req.slot).2)
      (.finished (answerAfter (managedAnswer req (lit "removed from"))
        (v.remove hash32 req.slot).1))
  | idle : c.Stage st → Move hash32 c heap st heap st

end AdminCall

theorem AdminRequest.checked_error {missing : β → Prop} [DecidablePred missing]
    {r : AdminRequest β} (h : r.checked required missing = .error resp) : 400 ≤ resp.status := by
  rw [checked] at h
  split at h
  · cases h
    exact Nat.le_add_right 400 5
  · split at h
    · cases h
      exact Nat.le_refl 400
    · split at h
      · cases h
        exact Nat.le_refl 400
      · cases h

theorem RegistryHeap.hold_cases (heap : RegistryHeap)
    (r : AdminRequest ManagePhysicalNamespaceRequest)
    (held : ManagePhysicalNamespaceRequest → Nat → AdminState) :
    (∃ req ref, r.wantedSlot = .ok req ∧ heap.find req.virtualNamespace = some ref ∧
        heap.hold r held = held req ref) ∨
      ∃ resp, 400 ≤ resp.status ∧ heap.hold r held = .finished (.ok resp) := by
  rw [hold]
  cases hr : r.wantedSlot with
  | error resp => exact .inr ⟨resp, AdminRequest.checked_error hr, rfl⟩
  | ok req =>
    cases hf : heap.find req.virtualNamespace with
    | none =>
      refine .inr ⟨httpError (lit "virtual namespace not found") 404, by decide, ?_⟩
      simp only [hf]
    | some ref =>
      refine .inl ⟨req, ref, rfl, hf, ?_⟩
      simp only [hf]

namespace AdminCall
variable {hash32 : GoString → UInt32} {c : AdminCall} {heap : RegistryHeap} {st : AdminState}

theorem look_move (heap : RegistryHeap) (c : AdminCall) :
    c.Move hash32 heap .arrived heap (c.look heap) := by
  cases c with
  | create r =>
    rw [look]
    cases hr : r.wantedName with
    | error resp => exact .refuse (AdminRequest.checked_error hr)
    | ok req =>
      cases hf : heap.find req.name with
      | some ref =>
        simp only [hf]
        exact .refuse (by decide)
      | none =>
        simp only [hf]
        exact .check hr hf
  | add r =>
    rw [look]
    obtain ⟨req, ref, hr, hf, he⟩ | ⟨resp, hs, he⟩ := heap.hold_cases r .adding
    · rw [he]
      exact .holdAdd hr hf
    · rw [he]
      exact .refuse hs
  | remove r =>
    rw [look]
    obtain ⟨req, ref, hr, hf, he⟩ | ⟨resp, hs, he⟩ := heap.hold_cases r .removing
    · rw [he]
      exact .holdRemove hr hf
    · rw [he]
      exact .refuse hs

theorem next_move (h : c.Stage st) :
    c.Move hash32 heap st (c.next hash32 heap st).1 (c.next hash32 heap st).2 := by
  cases h with
  | arrived => exact look_move heap c
  | absent hr => exact .register hr
  | @adding r req ref hr =>
    rw [next]
    cases hv : heap.objects[ref]? with
    | none => exact .idle (.adding hr)
    | some v => exact .add hr hv
  | @removing r req ref hr =>
    rw [next]
    cases hv : heap.objects[ref]? with
    | none => exact .idle (.removing hr)
    | some v => exact .remove hr hv
  | finished => exact .idle .finished

theorem Move.stage (h : c.Move hash32 heap st heap' st') : c.Stage st' := by
  cases h with
  | refuse hs => exact .finished
  | check hr hf => exact .absent hr
  | holdAdd hr hf => exact .adding hr
  | holdRemove hr hf => exact .removing hr
  | register hr => exact .finished
  | add hr hv => exact .finished
  | remove hr hv => exact .finished
  | idle hst => exact hst

theorem Move.heap_cases (h : c.Move hash32 heap st heap' st') :
    heap' = heap ∨
      (∃ name, st = .absent name ∧ heap' = heap.register name (newVirtualNamespace name)) ∨
      ∃ (ref : Nat) (v v' : VirtualNamespace), heap.objects[ref]? = some v ∧
        v.getAllNamespaces ⊆ v'.getAllNamespaces ∧ heap' = heap.set ref v' := by
  cases h with
  | register hr => exact .inr (.inl ⟨_, rfl, rfl⟩)
  | add hr ho =>
    refine .inr (.inr ⟨_, _, _, ho, ?_, rfl⟩)
    intro slot hs
    exact VirtualNamespace.getAllNamespaces_add_subset _ _ hs
  | remove hr ho =>
    refine .inr (.inr ⟨_, _, _, ho, ?_, rfl⟩)
    intro slot hs
    exact VirtualNamespace.mem_getAllNamespaces_remove.mpr hs
  | refuse hs => exact .inl rfl
  | check hr hf => exact .inl rfl
  | holdAdd hr hf => exact .inl rfl
  | holdRemove hr hf => exact .inl rfl
  | idle hst => exact .inl rfl

theorem Move.valid (h : c.Move hash32 heap st heap' st') (hv : heap.Valid) : heap'.Valid := by
  obtain he | ⟨name, -, he⟩ | ⟨ref, v, v', -, -, he⟩ := h.heap_cases
  · rw [he]
    exact hv
  · rw [he]
    exact hv.register _ _
  · rw [he]
    exact hv.set _ _

/-- A step that registers no name again leaves every name where it led and every slot listed. -/
theorem Move.extends (h : c.Move hash32 heap st heap' st')
    (hfresh : ∀ name, st = .absent name → heap.find name = none) :
    ObjectTable.Extends (fun v v' : VirtualNamespace => v.getAllNamespaces ⊆ v'.getAllNamespaces)
      heap heap' := by
  have hrefl (v : VirtualNamespace) := List.Subset.refl v.getAllNamespaces
  obtain he | ⟨name, hst, he⟩ | ⟨ref, v, v', ho, hsub, he⟩ := h.heap_cases
  · rw [he]
    exact .refl hrefl heap
  · rw [he]
    exact .register hrefl (hfresh name hst) _
  · rw [he]
    exact .set hrefl ho hsub

theorem Move.find_cases (h : c.Move hash32 heap st heap' st')
    (hf : heap'.find name = some ref) : heap.find name = some ref ∨ st = .absent name := by
  obtain he | ⟨name', hst, he⟩ | ⟨ref', v, v', -, -, he⟩ := h.heap_cases
  · rw [he] at hf
    exact .inl hf
  · rw [he, ObjectTable.find_register] at hf
    by_cases hn : name = name'
    · rw [hn]
      exact .inr hst
    · rw [if_neg hn] at hf
      exact .inl hf
  · rw [he] at hf
    exact .inl hf

theorem Move.created (h : Move hash32 (.create r) heap st heap' (.finished (.ok resp)))
    (hr : r.wantedName = .ok req) (hs : resp.status = 201) :
    st = .finished (.ok resp) ∨ st = .absent req.name := by
  cases h with
  | refuse hle =>
    rw [hs] at hle
    exact absurd hle (by decide)
  | register hr' =>
    cases hr.symm.trans hr'
    exact .inr rfl
  | idle hst => exact .inl rfl

theorem Move.added (h : Move hash32 (.add r) heap st heap' (.finished (.ok resp)))
    (hr : r.wantedSlot = .ok req) (hs : resp.status = 200) :
    st = .finished (.ok resp) ∨ ∃ (ref : Nat) (v : VirtualNamespace), st = .adding req ref ∧
      heap.objects[ref]? = some v ∧ heap' = heap.set ref (v.add hash32 req.slot) := by
  cases h with
  | refuse hle =>
    rw [hs] at hle
    exact absurd hle (by decide)
  | add hr' ho =>
    cases hr.symm.trans hr'
    exact .inr ⟨_, _, rfl, ho, rfl⟩
  | idle hst => exact .inl rfl

theorem Move.absent (h : c.Move hash32 heap st heap' (.absent name)) :
    heap' = heap ∧ (heap.find name = none ∨ st = .absent name) := by
  cases h with
  | check hr hf => exact ⟨rfl, .inl hf⟩
  | idle hst => exact ⟨rfl, .inr rfl⟩

theorem Move.adding (h : c.Move hash32 heap st heap' (.adding req ref)) :
    heap' = heap ∧ (heap.find req.virtualNamespace = some ref ∨ st = .adding req ref) := by
  cases h with
  | holdAdd hr hf => exact ⟨rfl, .inl hf⟩
  | idle hst => exact ⟨rfl, .inr rfl⟩

end AdminCall

/-- The registry with requests in progress. -/
structure AdminSystem (ι : Type) where
  heap : RegistryHeap
  pc : ι → AdminState

namespace AdminSystem
section
variable {ι : Type} (hash32 : GoString → UInt32) (calls : ι → AdminCall)

def next [DecidableEq ι] (s : AdminSystem ι) (i : ι) : AdminSystem ι :=
  let (heap, state) := (calls i).next hash32 s.heap (s.pc i)
  ⟨heap, Function.update s.pc i state⟩

structure Initial (s : AdminSystem ι) : Prop where
  valid : s.heap.Valid
  arrived : ∀ i, s.pc i = .arrived

def Created (s : AdminSystem ι) (i : ι) (name : GoString) : Prop :=
  ∃ r req resp, calls i = .create r ∧ r.wantedName = .ok req ∧ s.pc i = .finished (.ok resp) ∧
    resp.status = 201 ∧ req.name = name

def Added (s : AdminSystem ι) (i : ι) (virtual slot : GoString) : Prop :=
  ∃ r req resp, calls i = .add r ∧ r.wantedSlot = .ok req ∧ s.pc i = .finished (.ok resp) ∧
    resp.status = 200 ∧ req.virtualNamespace = virtual ∧ req.slot = slot

/-- No name is created twice, and in the end every slot whose addition was acknowledged is listed.
-/
structure Lossless (s : AdminSystem ι) : Prop where
  once : ∀ i j name, s.Created calls i name → s.Created calls j name → i = j
  listed : (∀ i, ∃ out, s.pc i = .finished out) →
    ∀ i virtual slot, s.Added calls i virtual slot → s.heap.Lists virtual slot

/-- A request that is about to register a name does not find it registered meanwhile. -/
def Fresh (s : AdminSystem ι) (i : ι) : Prop :=
  ∀ name, s.pc i = .absent name → s.heap.find name = none

def Doubled (s : AdminSystem ι) : Prop :=
  ∃ i j name, i ≠ j ∧ s.Created calls i name ∧ s.Created calls j name

structure Tracked (s : AdminSystem ι) : Prop where
  stage : ∀ i, (calls i).Stage (s.pc i)
  created : ∀ i name ref, s.pc i = .absent name → s.heap.find name = some ref →
    ∃ j, s.Created calls j name

structure Sound (s : AdminSystem ι) : Prop where
  stage : ∀ i, (calls i).Stage (s.pc i)
  valid : s.heap.Valid
  created : ∀ i name, s.Created calls i name → ∃ ref, s.heap.find name = some ref
  once : ∀ i j name, s.Created calls i name → s.Created calls j name → i = j
  held : ∀ i req ref, s.pc i = .adding req ref → s.heap.find req.virtualNamespace = some ref
  listed : ∀ i virtual slot, s.Added calls i virtual slot → s.heap.Lists virtual slot

end

variable {ι : Type} {hash32 : GoString → UInt32} {calls : ι → AdminCall} {s : AdminSystem ι}

theorem Initial.not_finished (h : s.Initial) (i : ι) : s.pc i ≠ .finished out := by
  rw [h.arrived i]
  intro he
  cases he

theorem Initial.tracked (h : s.Initial) : s.Tracked calls := by
  constructor
  · intro i
    rw [h.arrived i]
    exact .arrived
  · intro i name ref hpc
    rw [h.arrived i] at hpc
    cases hpc

theorem Initial.sound (h : s.Initial) : s.Sound calls := by
  have hnew : ∀ i name, ¬ s.Created calls i name := by
    rintro i name ⟨r, req, resp, -, -, hpc, -⟩
    exact h.not_finished i hpc
  constructor
  case stage => exact h.tracked.stage
  case valid => exact h.valid
  case created => exact fun i name hcr => absurd hcr (hnew i name)
  case once => exact fun i j name hcr => absurd hcr (hnew i name)
  case held =>
    intro i req ref hpc
    rw [h.arrived i] at hpc
    cases hpc
  case listed =>
    rintro i virtual slot ⟨r, req, resp, -, -, hpc, -⟩
    exact absurd hpc (h.not_finished i)

theorem Sound.lossless (h : s.Sound calls) : s.Lossless calls :=
  ⟨h.once, fun _ => h.listed⟩

variable [DecidableEq ι]

theorem next_pc_self (i : ι) :
    (s.next hash32 calls i).pc i = ((calls i).next hash32 s.heap (s.pc i)).2 :=
  Function.update_self _ _ _

theorem next_pc_of_ne {j i : ι} (h : j ≠ i) : (s.next hash32 calls i).pc j = s.pc j :=
  Function.update_of_ne h _ _

theorem move (hash32 : GoString → UInt32) (h : (calls i).Stage (s.pc i)) :
    (calls i).Move hash32 s.heap (s.pc i) (s.next hash32 calls i).heap
      ((s.next hash32 calls i).pc i) := by
  rw [next_pc_self]
  exact AdminCall.next_move h

theorem stage_next (h : ∀ i, (calls i).Stage (s.pc i)) (i j : ι) :
    (calls j).Stage ((s.next hash32 calls i).pc j) := by
  by_cases hj : j = i
  · subst j
    exact (move hash32 (h i)).stage
  · rw [next_pc_of_ne hj]
    exact h j

theorem next_finished {j : ι} (h : s.pc j = .finished out) (i : ι) :
    (s.next hash32 calls i).pc j = .finished out := by
  by_cases hj : j = i
  · subst j
    rw [next_pc_self, h, AdminCall.next]
  · rw [next_pc_of_ne hj, h]

theorem Created.next {j : ι} (h : s.Created calls j name) (i : ι) :
    (s.next hash32 calls i).Created calls j name := by
  obtain ⟨r, req, resp, hc, hr, hpc, hs⟩ := h
  exact ⟨r, req, resp, hc, hr, next_finished hpc i, hs⟩

theorem created_of_absent (h : (calls i).Stage (s.pc i)) (hpc : s.pc i = .absent name) :
    (s.next hash32 calls i).Created calls i name := by
  have hnext : (s.next hash32 calls i).pc i = _ := next_pc_self i
  rw [hpc] at h hnext
  generalize hc : calls i = c at h
  cases h with
  | @absent r req hr => exact ⟨r, req, _, hc, hr, hnext, rfl, rfl⟩

theorem find_of_absent (hpc : s.pc i = .absent name) :
    (s.next hash32 calls i).heap.find name = some s.heap.objects.length := by
  have hheap : (s.next hash32 calls i).heap = ((calls i).next hash32 s.heap (s.pc i)).1 := rfl
  rw [hheap, hpc, AdminCall.next, ObjectTable.find_register, if_pos rfl]

theorem created_cases (h : (calls i).Stage (s.pc i))
    (hn : (s.next hash32 calls i).Created calls j name) :
    s.Created calls j name ∨ j = i ∧ s.pc i = .absent name := by
  obtain ⟨r, req, resp, hc, hr, hpc, hs, rfl⟩ := hn
  by_cases hj : j = i
  · subst j
    have hm := move hash32 h
    rw [hpc, hc] at hm
    rcases hm.created hr hs with hst | hst
    · exact .inl ⟨r, req, resp, hc, hr, hst, hs, rfl⟩
    · exact .inr ⟨rfl, hst⟩
  · rw [next_pc_of_ne hj] at hpc
    exact .inl ⟨r, req, resp, hc, hr, hpc, hs, rfl⟩

theorem added_cases (h : (calls i).Stage (s.pc i))
    (hn : (s.next hash32 calls i).Added calls j virtual slot) :
    s.Added calls j virtual slot ∨
      ∃ (req : ManagePhysicalNamespaceRequest) (ref : Nat) (v : VirtualNamespace),
        s.pc i = .adding req ref ∧ s.heap.objects[ref]? = some v ∧
        (s.next hash32 calls i).heap = s.heap.set ref (v.add hash32 slot) ∧
        req.virtualNamespace = virtual := by
  obtain ⟨r, req, resp, hc, hr, hpc, hs, hv, hslot⟩ := hn
  by_cases hj : j = i
  · subst j
    have hm := move hash32 h
    rw [hpc, hc] at hm
    rcases hm.added hr hs with hst | ⟨ref, v, hst, ho, he⟩
    · exact .inl ⟨r, req, resp, hc, hr, hst, hs, hv, hslot⟩
    · rw [hslot] at he
      exact .inr ⟨req, ref, v, hst, ho, he, hv⟩
  · rw [next_pc_of_ne hj] at hpc
    exact .inl ⟨r, req, resp, hc, hr, hpc, hs, hv, hslot⟩

theorem Tracked.next (h : s.Tracked calls) (i : ι) : (s.next hash32 calls i).Tracked calls := by
  refine ⟨stage_next h.stage i, ?_⟩
  intro j name ref hpc hf
  have hm := move hash32 (h.stage i)
  rcases hm.find_cases hf with hold | hst
  · suffices hj : s.pc j = .absent name by
      obtain ⟨k, hk⟩ := h.created j name ref hj hold
      exact ⟨k, hk.next i⟩
    by_cases hj : j = i
    · subst j
      rw [hpc] at hm
      rcases hm.absent.2 with hnone | hst
      · rw [hnone] at hold
        cases hold
      · exact hst
    · rw [next_pc_of_ne hj] at hpc
      exact hpc
  · exact ⟨i, created_of_absent (h.stage i) hst⟩

theorem Doubled.next (h : s.Doubled calls) (i : ι) : (s.next hash32 calls i).Doubled calls := by
  obtain ⟨j, k, name, hne, hj, hk⟩ := h
  exact ⟨j, k, name, hne, hj.next i, hk.next i⟩

theorem Tracked.doubled (h : s.Tracked calls) (hf : ¬ s.Fresh i) :
    (s.next hash32 calls i).Doubled calls := by
  rw [Fresh] at hf
  push Not at hf
  obtain ⟨name, hpc, hsome⟩ := hf
  obtain ⟨ref, href⟩ := Option.ne_none_iff_exists'.mp hsome
  obtain ⟨j, hj⟩ := h.created i name ref hpc href
  refine ⟨i, j, name, ?_, created_of_absent (h.stage i) hpc, hj.next i⟩
  rintro rfl
  obtain ⟨r, req, resp, -, -, hfin, -⟩ := hj
  rw [hpc] at hfin
  cases hfin

theorem Tracked.fresh_or_doubled (h : s.Tracked calls) (schedule : List ι) :
    Along (AdminSystem.next hash32 calls) Fresh s schedule ∨
      (schedule.foldl (AdminSystem.next hash32 calls) s).Doubled calls := by
  induction schedule generalizing s with
  | nil => exact .inl trivial
  | cons i schedule ih =>
    by_cases hf : s.Fresh i
    · rcases ih (h.next i) with hall | hd
      · exact .inl ⟨hf, hall⟩
      · exact .inr hd
    · refine .inr ?_
      rw [List.foldl_cons]
      exact List.foldlRecOn schedule _ (h.doubled hf) (fun s hs j _ => hs.next j)

theorem Sound.next (h : s.Sound calls) (hf : s.Fresh i) : (s.next hash32 calls i).Sound calls := by
  have hm := move hash32 (h.stage i)
  have hext := hm.extends hf
  -- a name is new to the registry when it is registered, so nobody has created it before
  have hnew : ∀ j name, s.pc i = .absent name → ¬ s.Created calls j name := by
    intro j name hpc hcr
    obtain ⟨ref, href⟩ := h.created j name hcr
    rw [hf name hpc] at href
    cases href
  constructor
  case stage => exact stage_next h.stage i
  case valid => exact hm.valid h.valid
  case created =>
    intro j name hcr
    rcases created_cases (h.stage i) hcr with hcr | ⟨-, hpc⟩
    · obtain ⟨ref, href⟩ := h.created j name hcr
      exact ⟨ref, hext.find href⟩
    · exact ⟨_, find_of_absent hpc⟩
  case once =>
    intro j k name hj hk
    rcases created_cases (h.stage i) hj with hj | ⟨hji, hpc⟩
    · rcases created_cases (h.stage i) hk with hk | ⟨-, hpc⟩
      · exact h.once j k name hj hk
      · exact absurd hj (hnew j name hpc)
    · rcases created_cases (h.stage i) hk with hk | ⟨hki, -⟩
      · exact absurd hk (hnew k name hpc)
      · rw [hji, hki]
  case held =>
    intro j req ref hpc
    by_cases hj : j = i
    · subst j
      rw [hpc] at hm
      rcases hm.adding.2 with hfind | hst
      · exact hext.find hfind
      · exact hext.find (h.held i req ref hst)
    · rw [next_pc_of_ne hj] at hpc
      exact hext.find (h.held j req ref hpc)
  case listed =>
    intro j virtual slot ha
    rcases added_cases (h.stage i) ha with ha | ⟨req, ref, v, hpc, ho, he, rfl⟩
    · obtain ⟨v, hv, hs⟩ := h.listed j virtual slot ha
      obtain ⟨v', hv', hsub⟩ := hext.view hv
      exact ⟨v', hv', hsub hs⟩
    · have hfind := hext.find (h.held i req ref hpc)
      refine ⟨v.add hash32 slot, ?_, v.mem_getAllNamespaces_add slot⟩
      obtain ⟨hlt, -⟩ := List.getElem?_eq_some_iff.mp ho
      rw [ObjectTable.view_of_find hfind, he]
      exact List.getElem?_set_self hlt

theorem fresh_of_once (h : s.Initial) {schedule : List ι}
    (honce : ∀ i j name, (schedule.foldl (next hash32 calls) s).Created calls i name →
      (schedule.foldl (next hash32 calls) s).Created calls j name → i = j) :
    Along (next hash32 calls) Fresh s schedule := by
  refine h.tracked.fresh_or_doubled schedule |>.resolve_right ?_
  rintro ⟨i, j, name, hne, hi, hj⟩
  exact hne (honce i j name hi hj)

/-- Concurrent requests of which no two ask for the creation of one name lose nothing. -/
theorem lossless_of_distinct_names (h : s.Initial) (schedule : List ι)
    (hd : ∀ i j r r' req req', calls i = .create r → calls j = .create r' →
      r.wantedName = .ok req → r'.wantedName = .ok req' → req.name = req'.name → i = j) :
    (schedule.foldl (next hash32 calls) s).Lossless calls := by
  have hfresh : Along (next hash32 calls) Fresh s schedule := by
    apply fresh_of_once h
    rintro i j name ⟨r, req, -, hi, hr, -, -, hn⟩ ⟨r', req', -, hj, hr', -, -, hn'⟩
    exact hd i j r r' req req' hi hj hr hr' (hn.trans hn'.symm)
  exact (hfresh.invariant h.sound Sound.next).lossless

end AdminSystem

/-- A table of objects stands for a registry of values. -/
structure RegistryHeap.Represents (heap : RegistryHeap) (reg : VirtualNamespaceRegistry) :
    Prop where
  valid : heap.Valid
  apart : heap.Apart
  view : ∀ name, heap.view name = reg.resolve name

section Alone
variable {hash32 : GoString → UInt32} {heap : RegistryHeap} {reg : VirtualNamespaceRegistry}

theorem RegistryHeap.Represents.find_none (h : heap.Represents reg) (hf : heap.find name = none) :
    reg.resolve name = none := by
  rw [← h.view, ObjectTable.view_of_none hf]

theorem RegistryHeap.Represents.find_some (h : heap.Represents reg)
    (hf : heap.find name = some ref) :
    ∃ v : VirtualNamespace, heap.objects[ref]? = some v ∧ reg.resolve name = some v := by
  have hlt := h.valid name ref hf
  refine ⟨_, List.getElem?_eq_getElem hlt, ?_⟩
  rw [← h.view, ObjectTable.view_of_find hf, List.getElem?_eq_getElem hlt]

theorem RegistryHeap.Represents.register (h : heap.Represents reg) (name : GoString) :
    RegistryHeap.Represents (heap.register name (newVirtualNamespace name))
      (reg.register (newVirtualNamespace name)) := by
  refine ⟨h.valid.register _ _, h.apart.register h.valid _ _, ?_⟩
  intro name'
  rw [ObjectTable.view_register h.valid, VirtualNamespaceRegistry.resolve_register_new, h.view]

theorem RegistryHeap.Represents.set (h : heap.Represents reg) (hf : heap.find name = some ref)
    (v : VirtualNamespace) : RegistryHeap.Represents (heap.set ref v) (reg.update name v) := by
  refine ⟨h.valid.set _ _, h.apart, ?_⟩
  intro name'
  rw [ObjectTable.view_set h.valid h.apart hf, VirtualNamespaceRegistry.resolve_update, h.view]

theorem RegistryHeap.Represents.manage (h : heap.Represents reg) (c : AdminCall)
    (r : AdminRequest ManagePhysicalNamespaceRequest)
    (held : ManagePhysicalNamespaceRequest → Nat → AdminState)
    (act : VirtualNamespace → GoString → Outcome Unit × VirtualNamespace) (done : GoString)
    (hheld : ∀ req (ref : Nat) v, heap.objects[ref]? = some v →
      c.next hash32 heap (held req ref) =
        (heap.set ref (act v req.slot).2,
          .finished (answerAfter (managedAnswer req done) (act v req.slot).1))) :
    (c.next hash32 heap (heap.hold r held)).1.Represents (managePhysical act done reg r).2 ∧
      (c.next hash32 heap (heap.hold r held)).2 =
        .finished (managePhysical act done reg r).1 := by
  rw [managePhysical_eq, hold]
  cases r.wantedSlot with
  | error resp => exact ⟨h, rfl⟩
  | ok req =>
    cases hf : heap.find req.virtualNamespace with
    | none =>
      simp only [hf, h.find_none hf]
      exact ⟨h, rfl⟩
    | some ref =>
      obtain ⟨v, ho, hv⟩ := h.find_some hf
      simp only [hf, hv, hheld req ref v ho]
      exact ⟨h.set hf _, trivial⟩

theorem AdminCall.next_next (h : heap.Represents reg) (c : AdminCall) :
    (c.next hash32 heap (c.look heap)).1.Represents (reg.admin hash32 c) ∧
      (c.next hash32 heap (c.look heap)).2 = .finished (c.respond hash32 reg) := by
  cases c with
  | create r =>
    rw [VirtualNamespaceRegistry.admin, respond, createVirtual_eq, look]
    cases r.wantedName with
    | error resp => exact ⟨h, rfl⟩
    | ok req =>
      cases hf : heap.find req.name with
      | none =>
        simp only [hf, h.find_none hf]
        exact ⟨h.register req.name, rfl⟩
      | some ref =>
        obtain ⟨v, -, hv⟩ := h.find_some hf
        simp only [hf, hv]
        exact ⟨h, rfl⟩
  | add r =>
    apply h.manage
    intro req ref v ho
    rw [next, ho]
    rfl
  | remove r =>
    apply h.manage
    intro req ref v ho
    rw [next, ho]

end Alone

/-- Requests that run one after another leave the registry of the sequential model. -/
theorem AdminSystem.serial {ι : Type} [DecidableEq ι] {hash32 : GoString → UInt32}
    {calls : ι → AdminCall} {s : AdminSystem ι} (h : s.heap.Represents reg) (order : List ι)
    (hnd : order.Nodup) (harr : ∀ i ∈ order, s.pc i = .arrived) :
    ((order.flatMap (fun i => [i, i])).foldl (next hash32 calls) s).heap.Represents
      (order.foldl (fun reg i => reg.admin hash32 (calls i)) reg) := by
  induction order generalizing s reg with
  | nil => exact h
  | cons i order ih =>
    obtain ⟨hi, hnd⟩ := List.nodup_cons.mp hnd
    rw [List.flatMap_cons, List.foldl_append, List.foldl_cons]
    refine ih ?_ hnd ?_
    · have hpc := harr i List.mem_cons_self
      have hfirst : s.next hash32 calls i =
          ⟨s.heap, Function.update s.pc i ((calls i).look s.heap)⟩ := by
        rw [next, hpc, AdminCall.next]
      rw [List.foldl_cons, List.foldl_nil, hfirst, next]
      simp only [Function.update_self]
      exact (AdminCall.next_next h (calls i)).1
    · intro j hj
      have hne : j ≠ i := by
        rintro rfl
        exact hi hj
      rw [List.foldl_cons, List.foldl_nil, next_pc_of_ne hne, next_pc_of_ne hne]
      exact harr j (List.mem_cons_of_mem _ hj)

/-- Nothing is lost exactly when every request that registers a name finds it unregistered. -/
theorem concurrent_admin_lossless_iff {ι : Type} [DecidableEq ι] (hash32 : GoString → UInt32)
    (calls : ι → AdminCall) (s : AdminSystem ι) (h : s.Initial) (schedule : List ι) :
    (schedule.foldl (AdminSystem.next hash32 calls) s).Lossless calls ↔
      Along (AdminSystem.next hash32 calls) AdminSystem.Fresh s schedule := by
  constructor
  · intro hl
    exact AdminSystem.fresh_of_once h hl.once
  · intro hfresh
    exact (hfresh.invariant h.sound AdminSystem.Sound.next).lossless

def raceCalls : Fin 3 → AdminCall
  | 0 => .create ⟨lit "POST", .ok ⟨lit "orders"⟩⟩
  | 1 => .create ⟨lit "POST", .ok ⟨lit "orders"⟩⟩
  | 2 => .add ⟨lit "POST", .ok ⟨lit "orders", lit "orders", lit "c1.local:7233"⟩⟩

def raceBegin : AdminSystem (Fin 3) := ⟨⟨∅, []⟩, fun _ => .arrived⟩

theorem raceBegin_initial : raceBegin.Initial := by
  constructor
  · intro name ref h
    cases h
  · intro i
    rfl

theorem concurrent_admin_lossless_iff_orders :
    ([0, 0, 1, 2, 2].foldl (AdminSystem.next murmur3Sum32 raceCalls) raceBegin).Lossless
      raceCalls := by
  refine (concurrent_admin_lossless_iff murmur3Sum32 raceCalls raceBegin raceBegin_initial
    [0, 0, 1, 2, 2]).mpr ⟨?_, ?_, ?_, ?_, ?_, trivial⟩
  · intro name h
    cases h
  · intro name h
    cases h
    rfl
  · intro name h
    cases h
  · intro name h
    cases h
  · intro name h
    cases h

/-- The second of two creations replaces the object that the slot was added to. -/
theorem concurrent_creates_lose_slot :
    let s := [0, 1, 0, 2, 2, 1].foldl (AdminSystem.next murmur3Sum32 raceCalls) raceBegin
    raceBegin.Initial ∧ (∀ i, ∃ out, s.pc i = .finished out) ∧
      s.Created raceCalls 0 (lit "orders") ∧ s.Created raceCalls 1 (lit "orders") ∧
      s.Added raceCalls 2 (lit "orders") orders1 ∧ ¬ s.heap.Lists (lit "orders") orders1 := by
  refine ⟨raceBegin_initial, ?_, ?_, ?_, ?_, ?_⟩
  · intro i
    match i with
    | 0 => exact ⟨_, rfl⟩
    | 1 => exact ⟨_, rfl⟩
    | 2 => exact ⟨_, rfl⟩
  · exact ⟨_, _, _, rfl, rfl, rfl, rfl, rfl⟩
  · exact ⟨_, _, _, rfl, rfl, rfl, rfl, rfl⟩
  · exact ⟨_, _, _, rfl, rfl, rfl, rfl, rfl, by decide⟩
  · rintro ⟨v, hv, hs⟩
    cases hv
    cases hs

end Tempura
