import Tempura.Capacity
import Tempura.ConcurrentAdmin

namespace Tempura
open Base
set_option autoImplicit true

/-- A request for `/namespace/virtual/get`: its method and the `name` of its query. -/
structure GetRequest where
  method : GoString
  name : GoString

def GetRequest.wanted (r : GetRequest) : Except HttpResponse GoString :=
  if r.method ≠ lit "GET" then .error (httpError (lit "Method not allowed") 405)
  else if r.name = [] then .error (httpError (lit "name query parameter is required") 400)
  else .ok r.name

abbrev StatusEncoder := GoString → FiniteMap GoString NamespaceStatus → GoString

def getVirtual (encode : StatusEncoder) (reg : VirtualNamespaceRegistry) (r : GetRequest) :
    HttpResponse :=
  match r.wanted with
  | .error resp => resp
  | .ok name =>
    match reg.resolve name with
    | none => httpError (lit "virtual namespace not found") 404
    | some vNs => ⟨200, encode name vNs.getAllNamespacesWithStatus⟩

inductive ApiCall where
  | change (c : AdminCall)
  | get (r : GetRequest)

/-- Where a request to the admin server stands between its atomic steps. -/
inductive ApiState where
  | changing (st : AdminState)
  | unread
  | reading (name : GoString) (ref : Nat)
  | read (resp : HttpResponse)

def ApiState.answer? : ApiState → Option (Outcome HttpResponse)
  | .changing (.finished out) => some out
  | .changing _ => none
  | .unread => none
  | .reading _ _ => none
  | .read resp => some (.ok resp)

def GetRequest.look (heap : RegistryHeap) (r : GetRequest) : ApiState :=
  match r.wanted with
  | .error resp => .read resp
  | .ok name =>
    match heap.find name with
    | none => .read (httpError (lit "virtual namespace not found") 404)
    | some ref => .reading name ref

namespace ApiCall

def start : ApiCall → ApiState
  | .change _ => .changing .arrived
  | .get _ => .unread

def next (hash32 : GoString → UInt32) (encode : StatusEncoder) (heap : RegistryHeap) :
    ApiCall → ApiState → RegistryHeap × ApiState
  | .change c, .changing st => ((c.next hash32 heap st).1, .changing (c.next hash32 heap st).2)
  | .change _, st => (heap, st)
  | .get r, .unread => (heap, r.look heap)
  | .get _, .reading name ref =>
    match heap.objects[ref]? with
    | none => (heap, .reading name ref)
    | some v => (heap, .read ⟨200, encode name v.getAllNamespacesWithStatus⟩)
  | .get _, st => (heap, st)

def slot? : ApiCall → Option GoString
  | .change (.add r) => r.wantedSlot.toOption.map (·.slot)
  | .change (.remove r) => r.wantedSlot.toOption.map (·.slot)
  | _ => none

inductive Stage : ApiCall → ApiState → Prop
  | changing : c.Stage st → Stage (.change c) (.changing st)
  | unread : Stage (.get r) .unread
  | reading : r.wanted = .ok name → Stage (.get r) (.reading name ref)
  | read : Stage (.get r) (.read resp)

end ApiCall

abbrev Statuses := FiniteMap GoString NamespaceStatus

/-- What the admin server is for: the statuses of the slots of each virtual namespace. -/
abbrev StatusTable := FiniteMap GoString Statuses

namespace StatusTable

def manage (t : StatusTable) (r : AdminRequest ManagePhysicalNamespaceRequest)
    (act : Statuses → GoString → Outcome Unit × Statuses) (done : GoString) :
    Outcome HttpResponse × StatusTable :=
  match r.wantedSlot with
  | .error resp => (.ok resp, t)
  | .ok req =>
    match t.lookup req.virtualNamespace with
    | none => (.ok (httpError (lit "virtual namespace not found") 404), t)
    | some slots =>
      (answerAfter (managedAnswer req done) (act slots req.slot).1,
        t.insert req.virtualNamespace (act slots req.slot).2)

def activate (slots : Statuses) (slot : GoString) : Outcome Unit × Statuses :=
  (.ok (), slots.insert slot .active)

def cordon (panics : Statuses → Bool) (slots : Statuses) (slot : GoString) :
    Outcome Unit × Statuses :=
  (if panics slots then .panic else .ok (),
    if (slots.lookup slot).isSome then slots.insert slot .cordoned else slots)

def respond (encode : StatusEncoder) (panics : Statuses → Bool) (t : StatusTable) :
    ApiCall → Outcome HttpResponse × StatusTable
  | .change (.create r) =>
    match r.wantedName with
    | .error resp => (.ok resp, t)
    | .ok req =>
      match t.lookup req.name with
      | some _ => (.ok (httpError (lit "virtual namespace already exists") 409), t)
      | none => (.ok (createdAnswer req.name), t.insert req.name ∅)
  | .change (.add r) => t.manage r activate (lit "added to")
  | .change (.remove r) => t.manage r (cordon panics) (lit "removed from")
  | .get r =>
    match r.wanted with
    | .error resp => (.ok resp, t)
    | .ok name =>
      match t.lookup name with
      | none => (.ok (httpError (lit "virtual namespace not found") 404), t)
      | some slots => (.ok ⟨200, encode name slots⟩, t)

def noneActive (slots : Statuses) : Bool := decide (.active ∉ slots.values)

/-- A removal panics after it has changed the status, between apart slots where none is active. -/
def Answers (hash32 : GoString → UInt32) (U : Set GoString) (encode : StatusEncoder)
    (t : StatusTable) (c : ApiCall) (out : Outcome HttpResponse) : Prop :=
  ∃ panics, (Separate (vnodePoints hash32 defaultVirtualNodes) U → panics = noneActive) ∧
    out = (t.respond encode panics c).1

theorem manage_snd (t : StatusTable) (r : AdminRequest ManagePhysicalNamespaceRequest)
    (done : GoString) {act act' : Statuses → GoString → Outcome Unit × Statuses}
    (h : ∀ slots slot, (act slots slot).2 = (act' slots slot).2) :
    (t.manage r act done).2 = (t.manage r act' done).2 := by
  rw [manage, manage]
  cases r.wantedSlot with
  | error resp => rfl
  | ok req =>
    cases hslots : t.lookup req.virtualNamespace with
    | none => simp only [hslots]
    | some slots => simp only [hslots, h]

theorem respond_snd (encode : StatusEncoder) (panics : Statuses → Bool) (t : StatusTable)
    (c : ApiCall) : (t.respond encode panics c).2 = (t.respond encode noneActive c).2 := by
  rcases c with (r | r | r) | r
  · rfl
  · rfl
  · exact t.manage_snd r (lit "removed from") fun _ _ => rfl
  · rfl

end StatusTable

/-- The registry has the statuses of the table, and rings that agree unless slots share a hash. -/
structure RegistryHeap.Tabulated (hash32 : GoString → UInt32) (U : Set GoString)
    (heap : RegistryHeap) (t : StatusTable) : Prop where
  valid : heap.Valid
  apart : heap.Apart
  view : ∀ name, (heap.view name).map VirtualNamespace.namespaces = t.lookup name
  lockstep : Separate (vnodePoints hash32 defaultVirtualNodes) U →
    ∀ name v, heap.view name = some v → Lockstep hash32 v ∧ v.activeNames ⊆ U

/-- The object that a request has found is still the one of that name. -/
def RegistryHeap.Holds (heap : RegistryHeap) : ApiState → Prop
  | .changing (.adding req ref) => heap.find req.virtualNamespace = some ref
  | .changing (.removing req ref) => heap.find req.virtualNamespace = some ref
  | .changing _ => True
  | .unread => True
  | .reading name ref => heap.find name = some ref
  | .read _ => True

section Steps
variable {hash32 : GoString → UInt32} {U : Set GoString} {encode : StatusEncoder}
  {heap : RegistryHeap} {t : StatusTable}

namespace RegistryHeap.Tabulated

theorem find_none (h : heap.Tabulated hash32 U t) (hf : heap.find name = none) :
    t.lookup name = none := by
  rw [← h.view, ObjectTable.view_of_none hf]
  rfl

theorem find_some (h : heap.Tabulated hash32 U t) (hf : heap.find name = some ref) :
    ∃ v : VirtualNamespace, heap.objects[ref]? = some v ∧ heap.view name = some v ∧
      t.lookup name = some v.namespaces := by
  have hlt := h.valid name ref hf
  have hv := List.getElem?_eq_getElem hlt
  have hview := (ObjectTable.view_of_find hf).trans hv
  refine ⟨_, hv, hview, ?_⟩
  rw [← h.view, hview]
  rfl

theorem entry {heap' : RegistryHeap} (h : heap.Tabulated hash32 U t) (hvalid : heap'.Valid)
    (hapart : heap'.Apart) (v : VirtualNamespace)
    (hview : ∀ name', heap'.view name' = if name' = name then some v else heap.view name')
    (hlock : Separate (vnodePoints hash32 defaultVirtualNodes) U →
      Lockstep hash32 v ∧ v.activeNames ⊆ U) :
    heap'.Tabulated hash32 U (t.insert name v.namespaces) := by
  refine ⟨hvalid, hapart, fun name' => ?_, fun hsep name' v' hv' => ?_⟩
  · rw [hview, FiniteMap.lookup_insert_ite]
    by_cases hn : name' = name
    · rw [if_pos hn, if_pos hn]
      rfl
    · rw [if_neg hn, if_neg hn, h.view]
  · rw [hview] at hv'
    by_cases hn : name' = name
    · rw [if_pos hn] at hv'
      cases hv'
      exact hlock hsep
    · rw [if_neg hn] at hv'
      exact h.lockstep hsep name' v' hv'

theorem register (h : heap.Tabulated hash32 U t) (name : GoString) :
    RegistryHeap.Tabulated hash32 U (heap.register name (newVirtualNamespace name))
      (t.insert name ∅) := by
  refine h.entry (h.valid.register _ _) (h.apart.register h.valid _ _) (newVirtualNamespace name)
    (ObjectTable.view_register h.valid _ _) fun _ => ⟨lockstep_new hash32 name, ?_⟩
  rw [activeNames_new]
  exact Set.empty_subset U

theorem call (h : heap.Tabulated hash32 U t) (hf : heap.find name = some ref)
    (hv : heap.view name = some v) (c : NamespaceCall) (hc : c.name ∈ U) :
    RegistryHeap.Tabulated hash32 U (heap.set ref (v.call hash32 c))
      (t.insert name (v.call hash32 c).namespaces) := by
  refine h.entry (h.valid.set _ _) h.apart _ (ObjectTable.view_set h.valid h.apart hf _) ?_
  intro hsep
  obtain ⟨hlock, hsub⟩ := h.lockstep hsep name v hv
  exact ⟨hlock.call c (hsep.mono (Set.insert_subset hc hsub)), activeNames_call_subset c hc hsub⟩

theorem hold_cases (h : heap.Tabulated hash32 U t)
    (r : AdminRequest ManagePhysicalNamespaceRequest)
    (held : ManagePhysicalNamespaceRequest → Nat → AdminState)
    (act : Statuses → GoString → Outcome Unit × Statuses) (done : GoString) :
    (∃ resp, heap.hold r held = .finished (.ok resp) ∧ t.manage r act done = (.ok resp, t)) ∨
      ∃ req ref, heap.find req.virtualNamespace = some ref ∧ heap.hold r held = held req ref := by
  rw [hold, StatusTable.manage]
  cases hr : r.wantedSlot with
  | error resp => exact .inl ⟨resp, rfl, rfl⟩
  | ok req =>
    cases hf : heap.find req.virtualNamespace with
    | none =>
      refine .inl ⟨httpError (lit "virtual namespace not found") 404, ?_, ?_⟩
      · simp only [hf]
      · simp only [h.find_none hf]
    | some ref =>
      refine .inr ⟨req, ref, hf, ?_⟩
      simp only [hf]

theorem remove_outcome (h : heap.Tabulated hash32 U t) (hv : heap.view name = some v)
    (slot : GoString) :
    ∃ panics, (Separate (vnodePoints hash32 defaultVirtualNodes) U →
        panics = StatusTable.noneActive) ∧
      (v.remove hash32 slot).1 = (StatusTable.cordon panics v.namespaces slot).1 := by
  have hends : (v.remove hash32 slot).1 = .ok () ∨ (v.remove hash32 slot).1 = .panic := by
    rw [VirtualNamespace.remove_outcome, ConsistentHash.removeSlot]
    split
    · exact .inr rfl
    · exact .inl rfl
  by_cases hsep : Separate (vnodePoints hash32 defaultVirtualNodes) U
  · refine ⟨StatusTable.noneActive, fun _ => rfl, ?_⟩
    have hok := (h.lockstep hsep name v hv).1.remove_ok_iff slot
    have hactive : v.activeNames.Nonempty ↔ .active ∈ v.namespaces.values :=
      FiniteMap.mem_values_iff.symm
    rw [hactive, VirtualNamespace.outcome] at hok
    simp only [StatusTable.cordon, StatusTable.noneActive, decide_eq_true_eq]
    by_cases hnone : .active ∈ v.namespaces.values
    · rw [if_neg (not_not.mpr hnone), hok.mpr hnone]
    · rw [if_pos hnone]
      exact hends.resolve_left fun hret => hnone (hok.mp hret)
  · rcases hends with hret | hpanic
    · exact ⟨fun _ => false, fun h => absurd h hsep, hret⟩
    · exact ⟨fun _ => true, fun h => absurd h hsep, hpanic⟩

end RegistryHeap.Tabulated

/-- All that one step of a request can do: take note, answer as the table does, or nothing. -/
inductive ApiStep (hash32 : GoString → UInt32) (U : Set GoString) (encode : StatusEncoder)
    (c : ApiCall) (heap : RegistryHeap) (t : StatusTable) (st : ApiState) :
    RegistryHeap → ApiState → Prop
  | note {st' : ApiState} (hst : st.answer? = none) (hst' : st'.answer? = none)
      (hholds : heap.Holds st') : ApiStep hash32 U encode c heap t st heap st'
  | answer {heap' : RegistryHeap} {st' : ApiState} {out : Outcome HttpResponse}
      (hst : st.answer? = none) (hst' : st'.answer? = some out)
      (hout : t.Answers hash32 U encode c out)
      (htab : heap'.Tabulated hash32 U (t.respond encode StatusTable.noneActive c).2)
      (hfind : ∀ name ref, heap.find name = some ref → heap'.find name = some ref) :
      ApiStep hash32 U encode c heap t st heap' st'
  | rest {out : Outcome HttpResponse} (hst : st.answer? = some out) :
      ApiStep hash32 U encode c heap t st heap st

theorem ApiStep.of_respond {c : ApiCall} {heap' : RegistryHeap} {st st' : ApiState}
    {t' : StatusTable} (htab : heap'.Tabulated hash32 U t') (hst : st.answer? = none)
    (hst' : st'.answer? = some out)
    (hrespond : ∃ panics, (Separate (vnodePoints hash32 defaultVirtualNodes) U →
      panics = StatusTable.noneActive) ∧ t.respond encode panics c = (out, t'))
    (hfind : ∀ name ref, heap.find name = some ref → heap'.find name = some ref) :
    ApiStep hash32 U encode c heap t st heap' st' := by
  obtain ⟨panics, hpanics, heq⟩ := hrespond
  refine .answer hst hst' ⟨panics, hpanics, ?_⟩ ?_ hfind
  · rw [heq]
  · rw [← StatusTable.respond_snd encode panics, heq]
    exact htab

theorem ApiStep.refuse {c : ApiCall} {st st' : ApiState} (htab : heap.Tabulated hash32 U t)
    (hst : st.answer? = none) (hst' : st'.answer? = some out)
    (hrespond : t.respond encode StatusTable.noneActive c = (out, t)) :
    ApiStep hash32 U encode c heap t st heap st' :=
  .of_respond htab hst hst' ⟨_, fun _ => rfl, hrespond⟩ (fun _ _ hf => hf)

theorem RegistryHeap.Holds.mono {heap' : RegistryHeap} {st : ApiState} (h : heap.Holds st)
    (hfind : ∀ name ref, heap.find name = some ref → heap'.find name = some ref) :
    heap'.Holds st := by
  cases st with
  | changing st =>
    cases st with
    | adding req ref => exact hfind _ _ h
    | removing req ref => exact hfind _ _ h
    | arrived => trivial
    | absent name => trivial
    | finished out => trivial
  | unread => trivial
  | reading name ref => exact hfind _ _ h
  | read resp => trivial

theorem AdminCall.look_step (htab : heap.Tabulated hash32 U t) (c : AdminCall) :
    ApiStep hash32 U encode (.change c) heap t (.changing .arrived) heap
      (.changing (c.look heap)) := by
  cases c with
  | create r =>
    rw [look]
    cases hr : r.wantedName with
    | error resp =>
      refine .refuse htab rfl rfl ?_
      rw [StatusTable.respond, hr]
    | ok req =>
      cases hf : heap.find req.name with
      | none =>
        simp only [hf]
        exact .note rfl rfl trivial
      | some ref =>
        obtain ⟨v, -, -, hlookup⟩ := htab.find_some hf
        simp only [hf]
        refine .refuse htab rfl rfl ?_
        rw [StatusTable.respond, hr]
        simp only [hlookup]
  | add r =>
    rw [look]
    obtain ⟨resp, hhold, hmanage⟩ | ⟨req, ref, hf, hhold⟩ :=
      htab.hold_cases r .adding StatusTable.activate (lit "added to")
    · rw [hhold]
      exact .refuse htab rfl rfl hmanage
    · rw [hhold]
      exact .note rfl rfl hf
  | remove r =>
    rw [look]
    obtain ⟨resp, hhold, hmanage⟩ | ⟨req, ref, hf, hhold⟩ :=
      htab.hold_cases r .removing (StatusTable.cordon StatusTable.noneActive) (lit "removed from")
    · rw [hhold]
      exact .refuse htab rfl rfl hmanage
    · rw [hhold]
      exact .note rfl rfl hf

theorem StatusTable.manage_found {r : AdminRequest ManagePhysicalNamespaceRequest}
    (hr : r.wantedSlot = .ok req) (hslots : t.lookup req.virtualNamespace = some slots)
    (act : Statuses → GoString → Outcome Unit × Statuses) (done : GoString) :
    t.manage r act done = (answerAfter (managedAnswer req done) (act slots req.slot).1,
      t.insert req.virtualNamespace (act slots req.slot).2) := by
  rw [manage, hr]
  simp only [hslots]

theorem AdminCall.next_step (htab : heap.Tabulated hash32 U t) {c : AdminCall}
    (hstage : c.Stage st) (hU : ∀ slot, (ApiCall.change c).slot? = some slot → slot ∈ U)
    (hholds : heap.Holds (.changing st))
    (hfresh : ∀ name, st = .absent name → heap.find name = none) :
    ApiStep hash32 U encode (.change c) heap t (.changing st) (c.next hash32 heap st).1
      (.changing (c.next hash32 heap st).2) := by
  cases hstage with
  | arrived => exact look_step htab c
  | @absent r req hr =>
    have hnone := hfresh req.name rfl
    refine .of_respond (htab.register req.name) rfl rfl ⟨_, fun _ => rfl, ?_⟩ ?_
    · rw [StatusTable.respond, hr]
      simp only [htab.find_none hnone]
    · intro name ref hf
      rw [next, ObjectTable.find_register, if_neg, hf]
      rintro rfl
      rw [hnone] at hf
      cases hf
  | @adding r req ref hr =>
    obtain ⟨v, hv, hview, hlookup⟩ := htab.find_some hholds
    have hslot : req.slot ∈ U := hU req.slot (by rw [ApiCall.slot?, hr]; rfl)
    rw [next, hv]
    refine .of_respond (htab.call hholds hview (.add req.slot) hslot) rfl rfl
      ⟨_, fun _ => rfl, ?_⟩ (fun _ _ hf => hf)
    exact StatusTable.manage_found hr hlookup StatusTable.activate (lit "added to")
  | @removing r req ref hr =>
    obtain ⟨v, hv, hview, hlookup⟩ := htab.find_some hholds
    have hslot : req.slot ∈ U := hU req.slot (by rw [ApiCall.slot?, hr]; rfl)
    obtain ⟨panics, hpanics, hends⟩ := htab.remove_outcome hview req.slot
    rw [next, hv]
    refine .of_respond (htab.call hholds hview (.remove req.slot) hslot) rfl rfl
      ⟨panics, hpanics, ?_⟩ (fun _ _ hf => hf)
    rw [StatusTable.respond, StatusTable.manage_found hr hlookup, ← hends]
    simp only [VirtualNamespace.call, VirtualNamespace.remove_namespaces, StatusTable.cordon]
  | finished => exact .rest rfl

theorem GetRequest.look_step (htab : heap.Tabulated hash32 U t) (r : GetRequest) :
    ApiStep hash32 U encode (.get r) heap t .unread heap (r.look heap) := by
  rw [look]
  cases hr : r.wanted with
  | error resp =>
    refine .refuse htab rfl rfl ?_
    rw [StatusTable.respond, hr]
  | ok name =>
    cases hf : heap.find name with
    | none =>
      simp only [hf]
      refine .refuse htab rfl rfl ?_
      rw [StatusTable.respond, hr]
      simp only [htab.find_none hf]
    | some ref =>
      simp only [hf]
      exact .note rfl rfl hf

theorem ApiCall.next_step (htab : heap.Tabulated hash32 U t) {c : ApiCall} {st : ApiState}
    (hstage : c.Stage st) (hU : ∀ slot, c.slot? = some slot → slot ∈ U) (hholds : heap.Holds st)
    (hfresh : ∀ name, st = .changing (.absent name) → heap.find name = none) :
    ApiStep hash32 U encode c heap t st (c.next hash32 encode heap st).1
      (c.next hash32 encode heap st).2 := by
  cases hstage with
  | changing hst =>
    refine AdminCall.next_step htab hst hU hholds fun name hname => ?_
    exact hfresh name (congrArg ApiState.changing hname)
  | @unread r => exact r.look_step htab
  | @reading r name ref hr =>
    obtain ⟨v, hv, -, hlookup⟩ := htab.find_some hholds
    rw [next, hv]
    refine .refuse htab rfl rfl ?_
    rw [StatusTable.respond, hr]
    simp only [hlookup]
    rfl
  | read => exact .rest rfl

theorem ApiCall.Stage.next {c : ApiCall} {st : ApiState} (h : c.Stage st) :
    c.Stage (c.next hash32 encode heap st).2 := by
  cases h with
  | changing hst => exact .changing (AdminCall.next_move hst).stage
  | @unread r =>
    rw [ApiCall.next, GetRequest.look]
    cases hr : r.wanted with
    | error resp => exact .read
    | ok name =>
      cases hf : heap.find name with
      | none =>
        simp only [hf]
        exact .read
      | some ref =>
        simp only [hf]
        exact .reading hr
  | @reading r name ref hr =>
    rw [ApiCall.next]
    cases hv : heap.objects[ref]? with
    | none => exact .reading hr
    | some v => exact .read
  | read => exact .read

theorem ApiCall.stage_start (c : ApiCall) : c.Stage c.start := by
  cases c with
  | change c => exact .changing .arrived
  | get r => exact .unread

theorem RegistryHeap.holds_start (heap : RegistryHeap) (c : ApiCall) : heap.Holds c.start := by
  cases c <;> trivial

theorem RegistryHeap.holds_answered {st : ApiState} (h : st.answer? = some out) :
    heap.Holds st := by
  cases st with
  | changing st =>
    cases st with
    | finished out => trivial
    | arrived => cases h
    | absent name => cases h
    | adding req ref => cases h
    | removing req ref => cases h
  | unread => cases h
  | reading name ref => cases h
  | read resp => trivial

theorem ApiCall.answer_start (c : ApiCall) : c.start.answer? = none := by
  cases c <;> rfl

/-- A `get` whose steps nothing interrupts answers as its handler does in the sequential model. -/
theorem GetRequest.next_look (h : heap.Represents reg) (r : GetRequest) :
    ((ApiCall.get r).next hash32 encode heap (r.look heap)).2.answer? =
      some (.ok (getVirtual encode reg r)) := by
  rw [look, getVirtual]
  cases r.wanted with
  | error resp => rfl
  | ok name =>
    cases hf : heap.find name with
    | none =>
      simp only [hf, h.find_none hf]
      rfl
    | some ref =>
      obtain ⟨v, ho, hv⟩ := h.find_some hf
      simp only [hf, hv, ApiCall.next, ho]
      rfl

end Steps

structure ApiServer (ι : Type) where
  heap : RegistryHeap
  pc : ι → ApiState

namespace ApiServer
variable {ι : Type} (hash32 : GoString → UInt32) (encode : StatusEncoder) (calls : ι → ApiCall)

section Server
variable [DecidableEq ι]

def next (s : ApiServer ι) (i : ι) : ApiServer ι where
  heap := ((calls i).next hash32 encode s.heap (s.pc i)).1
  pc := Function.update s.pc i ((calls i).next hash32 encode s.heap (s.pc i)).2

/-- A step of a request. One that is about to register a name still finds it absent. -/
structure Step (s : ApiServer ι) (i : ι) (s' : ApiServer ι) : Prop where
  next : s' = s.next hash32 encode calls i
  fresh : ∀ name, s.pc i = .changing (.absent name) → s.heap.find name = none

end Server

def tableAfter (t : StatusTable) (order : List ι) : StatusTable :=
  order.foldl (fun t i => (t.respond encode StatusTable.noneActive (calls i)).2) t

/-- The requests that have their answers, each once and with the answer of the table. -/
structure Linearized (U : Set GoString) (t : StatusTable) (s : ApiServer ι) (order : List ι) :
    Prop where
  once : order.Nodup
  mem : ∀ i, i ∈ order ↔ ∃ out, (s.pc i).answer? = some out
  answers : ∀ i out, (s.pc i).answer? = some out → ∃ before after, order = before ++ i :: after ∧
    (tableAfter encode calls t before).Answers hash32 U encode (calls i) out
  table : s.heap.Tabulated hash32 U (tableAfter encode calls t order)

structure Tracked (U : Set GoString) (t : StatusTable) (s : ApiServer ι) (order : List ι) :
    Prop where
  linearized : Linearized hash32 encode calls U t s order
  stage : ∀ i, (calls i).Stage (s.pc i)
  holds : ∀ i, s.heap.Holds (s.pc i)

variable {hash32 encode calls} {s : ApiServer ι} {U : Set GoString} {t : StatusTable}
  {order : List ι}

theorem tableAfter_concat (order : List ι) (i : ι) :
    tableAfter encode calls t (order ++ [i]) =
      ((tableAfter encode calls t order).respond encode StatusTable.noneActive (calls i)).2 := by
  rw [tableAfter, List.foldl_append]
  rfl

theorem tracked_start {heap : RegistryHeap} (htab : heap.Tabulated hash32 U t) :
    Tracked hash32 encode calls U t ⟨heap, fun i => (calls i).start⟩ [] := by
  refine ⟨⟨List.nodup_nil, fun i => ?_, fun i out hout => ?_, htab⟩, fun i => ?_, fun i => ?_⟩
  · refine iff_of_false List.not_mem_nil ?_
    rintro ⟨out, hout⟩
    rw [(calls i).answer_start] at hout
    cases hout
  · rw [(calls i).answer_start] at hout
    cases hout
  · exact (calls i).stage_start
  · exact heap.holds_start (calls i)

variable [DecidableEq ι]

theorem Linearized.note (h : Linearized hash32 encode calls U t s order) {i : ι} {st : ApiState}
    (hst : (s.pc i).answer? = st.answer?) :
    Linearized hash32 encode calls U t ⟨s.heap, Function.update s.pc i st⟩ order := by
  have hsame (j : ι) : (Function.update s.pc i st j).answer? = (s.pc j).answer? := by
    by_cases hj : j = i
    · subst hj
      rw [Function.update_self, hst]
    · rw [Function.update_of_ne hj]
  refine ⟨h.once, fun j => ?_, fun j out hout => ?_, h.table⟩
  · rw [h.mem j]
    dsimp only
    rw [hsame j]
  · dsimp only at hout
    rw [hsame j] at hout
    exact h.answers j out hout

theorem Linearized.answer (h : Linearized hash32 encode calls U t s order) {i : ι} {st : ApiState}
    {heap : RegistryHeap} (hnone : (s.pc i).answer? = none) (hst : st.answer? = some out)
    (hout : (tableAfter encode calls t order).Answers hash32 U encode (calls i) out)
    (htab : heap.Tabulated hash32 U
      ((tableAfter encode calls t order).respond encode StatusTable.noneActive (calls i)).2) :
    Linearized hash32 encode calls U t ⟨heap, Function.update s.pc i st⟩ (order ++ [i]) := by
  have hnew : i ∉ order := by
    rw [h.mem i, hnone]
    rintro ⟨out, hsome⟩
    cases hsome
  constructor
  case once =>
    refine List.nodup_append.mpr ⟨h.once, List.nodup_singleton i, ?_⟩
    intro j hj k hk
    rw [List.mem_singleton.mp hk]
    rintro rfl
    exact hnew hj
  case mem =>
    intro j
    rw [List.mem_append, List.mem_singleton]
    by_cases hj : j = i
    · subst hj
      dsimp only
      rw [Function.update_self]
      exact iff_of_true (.inr rfl) ⟨out, hst⟩
    · dsimp only
      rw [Function.update_of_ne hj, or_iff_left hj, h.mem j]
  case answers =>
    intro j out' hj'
    dsimp only at hj'
    by_cases hj : j = i
    · subst hj
      rw [Function.update_self, hst] at hj'
      cases hj'
      exact ⟨order, [], rfl, hout⟩
    · rw [Function.update_of_ne hj] at hj'
      obtain ⟨before, after, horder, hbefore⟩ := h.answers j out' hj'
      refine ⟨before, after ++ [i], ?_, hbefore⟩
      rw [horder, List.append_assoc, List.cons_append]
  case table =>
    rw [tableAfter_concat]
    exact htab

theorem Tracked.step {s' : ApiServer ι} (h : Tracked hash32 encode calls U t s order)
    (hU : ∀ i slot, (calls i).slot? = some slot → slot ∈ U)
    (hstep : Step hash32 encode calls s i s') :
    ∃ new, Tracked hash32 encode calls U t s' (order ++ new) := by
  obtain ⟨rfl, hfresh⟩ := hstep
  have hstage : (calls i).Stage ((calls i).next hash32 encode s.heap (s.pc i)).2 :=
    (h.stage i).next
  have hone : ApiStep hash32 U encode (calls i) s.heap (tableAfter encode calls t order) (s.pc i)
      ((calls i).next hash32 encode s.heap (s.pc i)).1
      ((calls i).next hash32 encode s.heap (s.pc i)).2 :=
    ApiCall.next_step h.linearized.table (h.stage i) (hU i) (h.holds i) hfresh
  rw [next]
  generalize (calls i).next hash32 encode s.heap (s.pc i) = result at hone hstage ⊢
  obtain ⟨heap', st'⟩ := result
  have hstages : ∀ j, (calls j).Stage (Function.update s.pc i st' j) :=
    (Function.forall_update_iff s.pc fun j st => (calls j).Stage st).mpr
      ⟨hstage, fun j _ => h.stage j⟩
  have hholding (hst' : heap'.Holds st')
      (hfind : ∀ name ref, s.heap.find name = some ref → heap'.find name = some ref) :
      ∀ j, heap'.Holds (Function.update s.pc i st' j) :=
    (Function.forall_update_iff s.pc fun _ st => heap'.Holds st).mpr
      ⟨hst', fun j _ => (h.holds j).mono hfind⟩
  cases hone with
  | note hst hst' hholds =>
    refine ⟨[], ?_, hstages, hholding hholds fun _ _ hf => hf⟩
    rw [List.append_nil]
    exact h.linearized.note (hst.trans hst'.symm)
  | answer hst hst' hout htab hfind =>
    refine ⟨[i], h.linearized.answer hst hst' hout htab, hstages, hholding ?_ hfind⟩
    exact RegistryHeap.holds_answered hst'
  | rest hst =>
    refine ⟨[], ?_, hstages, hholding (h.holds i) fun _ _ hf => hf⟩
    rw [List.append_nil]
    exact h.linearized.note rfl

theorem Step.unique {s' s'' : ApiServer ι} (h : Step hash32 encode calls s i s')
    (h' : Step hash32 encode calls s i s'') : s' = s'' :=
  h.next.trans h'.next.symm

/-- As long as no request registers a name that another has registered meanwhile, the admin server
answers as one table of statuses, in one order that only grows. -/
theorem admin_server_linearizes (hash32 : GoString → UInt32) (encode : StatusEncoder)
    (calls : ι → ApiCall) (U : Set GoString)
    (hU : ∀ i slot, (calls i).slot? = some slot → slot ∈ U) (heap : RegistryHeap)
    (t : StatusTable) (htab : heap.Tabulated hash32 U t) :
    ∃ order : List ι → List ι, (∀ turns turns', order turns <+: order (turns ++ turns')) ∧
      ∀ turns s, Run (Step hash32 encode calls) ⟨heap, fun i => (calls i).start⟩ turns s →
        Linearized hash32 encode calls U t s (order turns) := by
  obtain ⟨order, hgrows, horder⟩ := exists_log
    (R := fun _ s order => Tracked hash32 encode calls U t s order) (Step hash32 encode calls)
    (tracked_start htab) (fun _ h h' => h.unique h') (fun h hstep => h.step hU hstep)
  exact ⟨order, hgrows, fun turns s hrun => (horder turns s hrun).linearized⟩

def addAndGet : Bool → ApiCall
  | false => .change (.add ⟨lit "POST", .ok ⟨lit "orders", lit "orders", lit "c1.local:7233"⟩⟩)
  | true => .get ⟨lit "GET", lit "orders"⟩

def createdHeap : RegistryHeap :=
  ObjectTable.register ⟨∅, []⟩ (lit "orders") (newVirtualNamespace (lit "orders"))

def createdTable : StatusTable := AList.insert (lit "orders") ∅ ∅

theorem createdHeap_tabulated (hash32 : GoString → UInt32) (U : Set GoString) :
    createdHeap.Tabulated hash32 U createdTable := by
  have hempty : RegistryHeap.Tabulated hash32 U ⟨∅, []⟩ ∅ :=
    ⟨fun name ref h => (by cases h), fun name name' ref h => (by cases h), fun name => rfl,
      fun _ name v h => (by cases h)⟩
  exact hempty.register (lit "orders")

def addAndGetHeld : ApiServer Bool :=
  [true, false].foldl (next murmur3Sum32 (fun name _ => name) addAndGet)
    ⟨createdHeap, fun i => (addAndGet i).start⟩

theorem addAndGet_run : Run (Step murmur3Sum32 (fun name _ => name) addAndGet)
    ⟨createdHeap, fun i => (addAndGet i).start⟩ [true, false] addAndGetHeld := by
  have hstart : Run (Step murmur3Sum32 (fun name _ => name) addAndGet)
      ⟨createdHeap, fun i => (addAndGet i).start⟩ [] _ := .nil
  have hlook := hstart.snoc (e := true) ⟨rfl, fun name h => (by cases h)⟩
  exact hlook.snoc (e := false) ⟨rfl, fun name h => (by cases h)⟩

theorem admin_server_linearizes_added : ∃ turns s order order',
    Run (Step murmur3Sum32 (fun name _ => name) addAndGet) addAndGetHeld turns s ∧
      (addAndGetHeld.pc false).answer? = none ∧
      (s.pc true).answer? = some (.ok ⟨200, lit "orders"⟩) ∧
      Linearized murmur3Sum32 (fun name _ => name) addAndGet {orders1} createdTable addAndGetHeld
        order ∧
      Linearized murmur3Sum32 (fun name _ => name) addAndGet {orders1} createdTable s
        (order ++ order') := by
  have hU : ∀ i slot, (addAndGet i).slot? = some slot → slot ∈ ({orders1} : Set GoString) := by
    rintro (_ | _) slot hslot
    · cases hslot
      exact Set.mem_singleton orders1
    · cases hslot
  have hheld : Run (Step murmur3Sum32 (fun name _ => name) addAndGet) addAndGetHeld [] _ := .nil
  have hadd := hheld.snoc (e := false) ⟨rfl, fun name h => (by cases h)⟩
  have hread := hadd.snoc (e := true) ⟨rfl, fun name h => (by cases h)⟩
  obtain ⟨order, hgrows, horder⟩ := admin_server_linearizes murmur3Sum32 (fun name _ => name)
    addAndGet {orders1} hU createdHeap _ (createdHeap_tabulated _ _)
  obtain ⟨later, hlater⟩ := hgrows [true, false] ([] ++ [false] ++ [true])
  refine ⟨_, _, _, later, hread, rfl, rfl, horder _ _ addAndGet_run, ?_⟩
  rw [hlater]
  exact horder _ _ (addAndGet_run.append hread)

end ApiServer

end Tempura
