import Tempura.Base.Program
import Tempura.ConcurrentAdmin
import Tempura.System

namespace Tempura
open Base
set_option autoImplicit true

/-- What requests and polls do to shared data, each in one step. -/
inductive Access where
  | get (key : GoString)
  | find (name : GoString)
  | getSlot (ref : Nat) (key : GoString)
  | names (ref : Nat)
  | count (slot : GoString)
  | put (key value : GoString)
  | delete (key : GoString)
  | collect (kind : PollKind) (virtual : GoString) (slots : List GoString)

abbrev Access.Answer : Access → Type
  | .get _ => GoString
  | .find _ => Option Nat
  | .getSlot _ _ => GoString
  | .names _ => List GoString
  | .count _ => Unit
  | .put _ _ => Unit
  | .delete _ => Unit
  | .collect _ _ _ => List PollResult

abbrev Routine := Program Access Access.Answer

def Access.call (a : Access) : Routine a.Answer := Program.perform a

/-! The handlers as sequences of such accesses. -/

namespace Traffic

def resolve (payload : Payload) : Routine (GoString × Bool) := do
  let key := payload.workflowID
  let physNs : GoString ← (Access.get key).call
  if physNs ≠ [] then return (physNs, true)
  else
    let virtualNamespace : Option Nat ← (Access.find payload.virtualNamespace).call
    match virtualNamespace with
    | none => return ([], false)
    | some ref =>
      let physNs : GoString ← (Access.getSlot ref key).call
      (Access.count physNs).call
      (Access.put key physNs).call
      return (physNs, false)

def complete (workflowID : GoString) : List Command → Routine Unit
  | [] => return ()
  | command :: commands =>
    if command.commandType = .completeWorkflowExecution then do
      (Access.delete workflowID).call
      complete workflowID commands
    else complete workflowID commands

def commands : (m : Method) → m.Message → List Command
  | .respondWorkflowTaskCompleted, req => req.commands
  | .startWorkflowExecution, _ => []
  | .respondActivityTaskCompleted, _ => []
  | .requestCancelWorkflowExecution, _ => []
  | .signalWorkflowExecution, _ => []
  | .queryWorkflow, _ => []
  | .respondQueryTaskCompleted, _ => []
  | .getWorkflowExecutionHistory, _ => []

def request (m : Method) (req : m.Message) : Routine (Outcome GoString) :=
  match m.kind.workflowID req with
  | .ok workflowID => do
    let (physNs, _) ← resolve ⟨workflowID, m.kind.ns req⟩
    complete workflowID (commands m req)
    return .ok physNs
  | .err e => return .err e
  | .panic => return .panic
  | .hang => return .hang

def cache : Option (GoString × GoString) → Routine Unit
  | none => return ()
  | some (workflowID, physNs) => (Access.put workflowID physNs).call

def poll (lib : External) (kind : PollKind) (virtualNamespaceStr : GoString) :
    Routine (Outcome UpstreamResponse) := do
  let virtualNs : Option Nat ← (Access.find virtualNamespaceStr).call
  match virtualNs with
  | none => return .err (lit "virtual namespace not found: " ++ virtualNamespaceStr)
  | some ref =>
    let slots : List GoString ← (Access.names ref).call
    if slots.length = 0 then
      return .err
        (lit "no physical namespaces found for virtual namespace: " ++ virtualNamespaceStr)
    else
      let arrivals : List PollResult ← (Access.collect kind virtualNamespaceStr slots).call
      let (result, mapping) := pollLoop lib kind {} arrivals
      cache mapping
      if slots.all (fun slot => (parsePhysicalNamespace slot).isSome) then return result
      else return .panic

end Traffic

inductive TrafficCall where
  | request (m : Method) (req : m.Message)
  | poll (kind : PollKind) (virtual : GoString)

inductive TrafficAnswer where
  | routed (slot : Outcome GoString)
  | polled (resp : Outcome UpstreamResponse)

def TrafficCall.routine (lib : External) : TrafficCall → Routine TrafficAnswer
  | .request m req => do return .routed (← Traffic.request m req)
  | .poll kind virtual => do return .polled (← Traffic.poll lib kind virtual)

structure Shared where
  heap : RegistryHeap
  db : Redis
  totalWorkflowAllocated : GoString → Nat

/-- Whether reads and writes of the store may fail, which nobody is told. -/
structure StoreFaults where
  reads : Prop
  writes : Prop

def StoreFaults.never : StoreFaults := ⟨False, False⟩

section Semantics
variable (lib : External) (faults : StoreFaults)
  (handsOut : GoString → GoString → GoString → Prop)

/-- Clusters hand out tasks of the workflows in `handsOut virtual slot`. -/
def Access.Does : (a : Access) → Shared → a.Answer → Shared → Prop
  | .get key, s, val, s' => s' = s ∧ (val = Mappings.stored s.db key ∨ faults.reads ∧ val = [])
  | .find name, s, ref, s' => s' = s ∧ ref = s.heap.find name
  | .getSlot ref key, s, slot, s' => s' = s ∧
      ∃ v : VirtualNamespace, s.heap.objects[ref]? = some v ∧
        slot = v.ring.getSlot lib.hash32 key
  | .names ref, s, found, s' => s' = s ∧
      ∃ v : VirtualNamespace, s.heap.objects[ref]? = some v ∧ found.Perm v.getAllNamespaces
  | .count slot, s, _, s' => s' = { s with
      totalWorkflowAllocated := fun label =>
        s.totalWorkflowAllocated label + if label = slot then 1 else 0 }
  | .put key value, s, _, s' =>
      s' = { s with db := Mappings.put s.db key value } ∨ faults.writes ∧ s' = s
  | .delete key, s, _, s' => s' = { s with db := Mappings.delete s.db key } ∨ faults.writes ∧ s' = s
  | .collect kind virtual slots, s, arrivals, s' => s' = s ∧ Arrivals slots arrivals ∧
      ∀ res ∈ arrivals, ∀ resp task, res.task lib kind = some (resp, task) →
        handsOut virtual res.physNs (getWorkflowId task.workflowExecution)

/-- Admin requests take their steps, and the checkpointing routine writes what it collected. -/
inductive Shared.Around : Shared → Shared → Prop
  | admin {s : Shared} {c : AdminCall} {st : AdminState} (h : c.Stage st) :
      Around s { s with heap := (c.next lib.hash32 s.heap st).1 }
  | checkpoint {s : Shared} (text : GoString) :
      Around s { s with db := s.db.insert registryKey text }

end Semantics

theorem pollLoop_mapping {lib : External} {arrivals : List PollResult}
    (h : (pollLoop lib kind {} arrivals).2 = some (w, slot)) :
    ∃ res ∈ arrivals, ∃ resp task, res.task lib kind = some (resp, task) ∧
      w = getWorkflowId task.workflowExecution ∧ slot = res.physNs := by
  cases ht : firstTask lib kind arrivals with
  | none =>
    obtain ⟨text, hloop⟩ := pollLoop_of_no_task ht {}
    rw [hloop] at h
    cases h
  | some first =>
    obtain ⟨res, resp, task⟩ := first
    rw [pollLoop_of_first ht] at h
    obtain ⟨hw, -, hp⟩ := taskMapping_eq_some h
    obtain ⟨-, -, -, -, htask⟩ := firstTask_eq_some_iff.mp ht
    exact ⟨res, mem_of_firstTask ht, resp, task, htask, hw, hp⟩

theorem pollLoop_ends (lib : External) (kind : PollKind) (arrivals : List PollResult) :
    (∃ resp, (pollLoop lib kind {} arrivals).1 = .ok resp) ∨
      ∃ e, (pollLoop lib kind {} arrivals).1 = .err e := by
  cases ht : firstTask lib kind arrivals with
  | none =>
    obtain ⟨text, hloop⟩ := pollLoop_of_no_task ht {}
    rw [hloop]
    cases (lastRead arrivals).or (PollAcc.lastEmptyResp {}) with
    | none => exact .inr ⟨_, rfl⟩
    | some resp => exact .inl ⟨_, rfl⟩
  | some first =>
    obtain ⟨res, resp, task⟩ := first
    rw [pollLoop_of_first ht]
    exact .inl ⟨_, rfl⟩

theorem pollLoop_ne_panic {lib : External} {arrivals : List PollResult} :
    (pollLoop lib kind {} arrivals).1 ≠ .panic := by
  obtain ⟨resp, h⟩ | ⟨e, h⟩ := pollLoop_ends lib kind arrivals
  · rw [h]
    intro hpanic
    cases hpanic
  · rw [h]
    intro hpanic
    cases hpanic

/-- A rule for the slots that workflows may be at, and for the workflows that may not move. -/
structure Placement (lib : External) (handsOut : GoString → GoString → GoString → Prop) where
  inv : RegistryHeap → Prop
  later : RegistryHeap → RegistryHeap → Prop
  names : GoString → GoString → Prop
  found : RegistryHeap → GoString → Nat → Prop
  fits : RegistryHeap → GoString → GoString → Prop
  lists : GoString → Prop
  pinned : GoString → GoString → Prop
  refl : ∀ heap, later heap heap
  trans : ∀ {heap heap' heap''}, later heap heap' → later heap' heap'' → later heap heap''
  found_of_find : ∀ {heap name ref}, inv heap → heap.find name = some ref → found heap name ref
  found_later : ∀ {heap heap' name ref}, later heap heap' → found heap name ref →
    found heap' name ref
  fits_later : ∀ {heap heap' w slot}, later heap heap' → fits heap w slot → fits heap' w slot
  fits_nil : ∀ {heap w}, fits heap w []
  fits_getSlot : ∀ {heap : RegistryHeap} {name ref v w}, inv heap → found heap name ref →
    heap.objects[ref]? = some v → names w name → fits heap w (v.ring.getSlot lib.hash32 w)
  fits_task : ∀ {heap : RegistryHeap} {name ref v w slot}, inv heap → found heap name ref →
    heap.objects[ref]? = some v → slot ∈ v.getAllNamespaces → handsOut name slot w →
    fits heap w slot
  lists_names : ∀ {heap : RegistryHeap} {ref : Nat} {v : VirtualNamespace} {slot}, inv heap →
    heap.objects[ref]? = some v → slot ∈ v.getAllNamespaces → lists slot
  pinned_ne : ∀ {w slot}, pinned w slot → w ≠ registryKey ∧ slot ≠ []
  pinned_task : ∀ {name w slot slot'}, handsOut name slot w → pinned w slot' → slot = slot'

namespace Placement

theorem none_pinned {w slot : GoString} : False → w ≠ registryKey ∧ slot ≠ [] := False.elim

variable {lib : External} {faults : StoreFaults}
  {handsOut : GoString → GoString → GoString → Prop} (P : Placement lib handsOut)

/-- The store has every workflow at a slot that it may be at. -/
structure Kept (s : Shared) : Prop where
  heap : P.inv s.heap
  stored : ∀ w slot, w ≠ registryKey → s.db.lookup w = some slot → P.fits s.heap w slot
  pinned : ∀ w slot, P.pinned w slot → s.db.lookup w = some slot

structure Fits (heap : RegistryHeap) (w slot : GoString) : Prop where
  fits : P.fits heap w slot
  pinned : ∀ slot', P.pinned w slot' → slot = slot'

/-- A thread puts a mapping only if it knows that it fits, and deletes none that has to stay. -/
def rules : Rules Shared Access Access.Answer where
  inv := P.Kept
  later s s' := P.later s.heap s'.heap
  allowed a s :=
    match a with
    | .put key value => key ≠ registryKey → P.Fits s.heap key value
    | .delete key => ∀ slot, ¬ P.pinned key slot
    | _ => True
  refl s := P.refl s.heap
  trans h h' := P.trans h h'

structure Around (around : Shared → Shared → Prop) : Prop where
  kept : ∀ {s s'}, P.Kept s → around s s' → P.Kept s'
  later : ∀ {s s'}, P.Kept s → around s s' → P.later s.heap s'.heap

variable {P}

theorem Fits.later {heap heap' : RegistryHeap} (h : P.Fits heap w slot)
    (hlater : P.later heap heap') : P.Fits heap' w slot :=
  ⟨P.fits_later hlater h.fits, h.pinned⟩

theorem Kept.stored_pinned {s : Shared} (h : P.Kept s) (hp : P.pinned w slot) :
    Mappings.stored s.db w = slot :=
  Mappings.stored_of_lookup (h.pinned w slot hp)

theorem Kept.fits {s : Shared} (h : P.Kept s) (hw : w ≠ registryKey) :
    P.Fits s.heap w (Mappings.stored s.db w) := by
  refine ⟨?_, fun slot hp => h.stored_pinned hp⟩
  rw [Mappings.stored_eq]
  cases hl : s.db.lookup w with
  | none => exact P.fits_nil
  | some slot => exact h.stored w slot hw hl

theorem Kept.frame {s s' : Shared} (h : P.Kept s) (hinv : P.inv s'.heap)
    (hlater : P.later s.heap s'.heap)
    (hdb : ∀ w, w ≠ registryKey → s'.db.lookup w = s.db.lookup w) : P.Kept s' := by
  refine ⟨hinv, fun w slot hw hl => ?_, fun w slot hp => ?_⟩
  · rw [hdb w hw] at hl
    exact P.fits_later hlater (h.stored w slot hw hl)
  · rw [hdb w (P.pinned_ne hp).1]
    exact h.pinned w slot hp

theorem Kept.put {s : Shared} (h : P.Kept s) (hfits : w ≠ registryKey → P.Fits s.heap w slot) :
    P.Kept { s with db := Mappings.put s.db w slot } := by
  refine ⟨h.heap, fun w' slot' hw' hl => ?_, fun w' slot' hp => ?_⟩
  · rw [Mappings.put_lookup] at hl
    by_cases he : w' = w
    · subst w'
      rw [if_pos rfl] at hl
      cases hl
      exact (hfits hw').fits
    · rw [if_neg he] at hl
      exact h.stored w' slot' hw' hl
  · rw [Mappings.put_lookup]
    by_cases he : w' = w
    · subst w'
      rw [if_pos rfl, (hfits (P.pinned_ne hp).1).pinned slot' hp]
    · rw [if_neg he]
      exact h.pinned w' slot' hp

theorem Kept.delete {s : Shared} (h : P.Kept s) (hfree : ∀ slot, ¬ P.pinned w slot) :
    P.Kept { s with db := Mappings.delete s.db w } := by
  refine ⟨h.heap, fun w' slot' hw' hl => ?_, fun w' slot' hp => ?_⟩
  · rw [Mappings.delete_lookup] at hl
    split at hl
    · cases hl
    · exact h.stored w' slot' hw' hl
  · rw [Mappings.delete_lookup, if_neg]
    · exact h.pinned w' slot' hp
    · rintro rfl
      exact hfree slot' hp

theorem rules_kept {around : Shared → Shared → Prop} (haround : P.Around around) :
    P.rules.KeptBy (Access.Does lib faults handsOut) around := by
  constructor
  case op =>
    intro a s x s' hinv hallowed hdoes
    cases a with
    | get key =>
      obtain ⟨rfl, -⟩ := hdoes
      exact ⟨hinv, P.refl _⟩
    | find name =>
      obtain ⟨rfl, -⟩ := hdoes
      exact ⟨hinv, P.refl _⟩
    | getSlot ref key =>
      obtain ⟨rfl, -⟩ := hdoes
      exact ⟨hinv, P.refl _⟩
    | names ref =>
      obtain ⟨rfl, -⟩ := hdoes
      exact ⟨hinv, P.refl _⟩
    | collect kind virtual slots =>
      obtain ⟨rfl, -⟩ := hdoes
      exact ⟨hinv, P.refl _⟩
    | count slot =>
      subst hdoes
      exact ⟨⟨hinv.heap, hinv.stored, hinv.pinned⟩, P.refl _⟩
    | put key value =>
      obtain rfl | ⟨-, rfl⟩ := hdoes
      · exact ⟨hinv.put hallowed, P.refl _⟩
      · exact ⟨hinv, P.refl _⟩
    | delete key =>
      obtain rfl | ⟨-, rfl⟩ := hdoes
      · exact ⟨hinv.delete hallowed, P.refl _⟩
      · exact ⟨hinv, P.refl _⟩
  case around =>
    intro s s' hinv hstep
    exact ⟨haround.kept hinv hstep, haround.later hinv hstep⟩

theorem Kept.not_pinned_of_miss {s : Shared} (h : P.Kept s)
    (hreliable : ∀ slot, P.pinned w slot → ¬ faults.reads)
    (hval : [] = Mappings.stored s.db w ∨ faults.reads) (slot : GoString) : ¬ P.pinned w slot := by
  intro hp
  rcases hval with hval | hfails
  · exact (P.pinned_ne hp).2 (hval.trans (h.stored_pinned hp)).symm
  · exact hreliable slot hp hfails

theorem resolve_meets {payload : Payload}
    (hn : P.names payload.workflowID payload.virtualNamespace)
    (hreliable : ∀ slot, P.pinned payload.workflowID slot → ¬ faults.reads) (s : Shared) :
    P.rules.Meets (Access.Does lib faults handsOut)
      (fun answer s => payload.workflowID ≠ registryKey →
        P.Fits s.heap payload.workflowID answer.1)
      (Traffic.resolve payload) s := by
  refine .perform fun s₁ _ hinv₁ => ⟨trivial, fun physNs s₂ hget _ _ => ?_⟩
  obtain ⟨rfl, hval⟩ := hget
  split
  next hne =>
    obtain rfl := hval.resolve_right fun hfail => hne hfail.2
    exact .pure fun s' hlater _ hw => (hinv₁.fits hw).later hlater
  next hempty =>
    obtain rfl := not_not.mp hempty
    have hfree := hinv₁.not_pinned_of_miss hreliable (hval.imp_right And.left)
    have hall {heap : RegistryHeap} {slot : GoString}
        (hfits : P.fits heap payload.workflowID slot) : P.Fits heap payload.workflowID slot :=
      ⟨hfits, fun slot' hp => absurd hp (hfree slot')⟩
    refine .perform fun s₃ _ hinv₃ => ⟨trivial, fun ref s₄ hfind _ _ => ?_⟩
    obtain ⟨rfl, rfl⟩ := hfind
    cases hf : s₄.heap.find payload.virtualNamespace with
    | none => exact .pure fun _ _ _ _ => hall P.fits_nil
    | some ref =>
      have hfound := P.found_of_find hinv₃.heap hf
      refine .perform fun s₅ hlater hinv₅ => ⟨trivial, fun slot s₆ hslot _ _ => ?_⟩
      obtain ⟨rfl, v, hv, rfl⟩ := hslot
      -- the object is the one that was found, even if the name leads elsewhere by now
      have hfits := hall (P.fits_getSlot hinv₅.heap (P.found_later hlater hfound) hv hn)
      refine .perform fun s₇ hlater _ => ⟨trivial, fun _ s₈ _ _ hlater' => ?_⟩
      have hfits := (hfits.later hlater).later hlater'
      refine .perform fun s₉ hlater _ => ⟨fun _ => hfits.later hlater, fun _ s' _ _ hlater' => ?_⟩
      have hfits := (hfits.later hlater).later hlater'
      exact .pure fun s' hlater _ _ => hfits.later hlater

theorem complete_meets {commands : List Command}
    (hfree : ∀ command ∈ commands, command.commandType = .completeWorkflowExecution →
      ∀ slot, ¬ P.pinned w slot) (s : Shared) :
    P.rules.Meets (Access.Does lib faults handsOut) (fun _ _ => True)
      (Traffic.complete w commands) s := by
  induction commands generalizing s with
  | nil => exact .pure fun _ _ _ => trivial
  | cons command commands ih =>
    obtain ⟨hcommand, hcommands⟩ := List.forall_mem_cons.mp hfree
    rw [Traffic.complete]
    split
    next hcomplete =>
      exact .perform fun _ _ _ => ⟨hcommand hcomplete, fun _ s' _ _ _ => ih hcommands s'⟩
    next => exact ih hcommands s

variable (P) in
def Settled : TrafficCall → TrafficAnswer → Shared → Prop
  | .request m req, .routed (.ok slot), s => ∀ w, m.kind.workflowID req = .ok w →
      w ≠ registryKey → P.Fits s.heap w slot
  | .poll _ _, .polled .panic, _ => ∃ slot, P.lists slot ∧ parsePhysicalNamespace slot = none
  | _, _, _ => True

variable (P faults) in
/-- The request names a virtual namespace of its workflow, and completes none that has to stay. -/
structure Admits (m : Method) (req : m.Message) (w : GoString) : Prop where
  names : P.names w (m.kind.ns req)
  completes : ∀ command ∈ Traffic.commands m req,
    command.commandType = .completeWorkflowExecution → ∀ slot, ¬ P.pinned w slot
  reliable : ∀ slot, P.pinned w slot → ¬ faults.reads

theorem request_meets {m : Method} {req : m.Message}
    (hn : ∀ w, m.kind.workflowID req = .ok w → P.Admits faults m req w) (s : Shared)
    (hinv : P.Kept s) :
    P.rules.Meets (Access.Does lib faults handsOut) (P.Settled (.request m req))
      ((TrafficCall.request m req).routine lib) s := by
  rw [TrafficCall.routine, Traffic.request]
  cases hw : m.kind.workflowID req with
  | ok w =>
    obtain ⟨hname, hfree, hreliable⟩ := hn w hw
    refine .bind (.bind ((resolve_meets hname hreliable s).mono ?_) hinv) hinv
    rintro ⟨physNs, hit⟩ s₁ - hinv₁ hfits
    refine .bind ((complete_meets hfree s₁).mono ?_) hinv₁
    intro _ s₂ hlater _ _
    refine .pure fun s₃ hlater' _ => .pure fun s₄ hlater'' _ w' hw' hne => ?_
    cases hw.symm.trans hw'
    exact (hfits hne).later (P.trans hlater (P.trans hlater' hlater''))
  | err e => exact .pure fun _ _ _ => trivial
  | panic => exact .pure fun _ _ _ => trivial
  | hang => exact .pure fun _ _ _ => trivial

theorem cache_meets {mapping : Option (GoString × GoString)} {s : Shared}
    (h : ∀ w slot, mapping = some (w, slot) → P.Fits s.heap w slot) :
    P.rules.Meets (Access.Does lib faults handsOut) (fun _ _ => True)
      (Traffic.cache mapping) s := by
  cases mapping with
  | none => exact .pure fun _ _ _ => trivial
  | some pair =>
    refine .perform fun s' hlater _ => ⟨fun _ => ?_, fun _ _ _ _ _ => .pure fun _ _ _ => trivial⟩
    exact (h pair.1 pair.2 rfl).later hlater

theorem poll_meets (kind : PollKind) (virtual : GoString) (s : Shared) (hinv : P.Kept s) :
    P.rules.Meets (Access.Does lib faults handsOut) (P.Settled (.poll kind virtual))
      ((TrafficCall.poll kind virtual).routine lib) s := by
  suffices hpoll : P.rules.Meets (Access.Does lib faults handsOut)
      (fun resp _ => resp = .panic → ∃ slot, P.lists slot ∧ parsePhysicalNamespace slot = none)
      (Traffic.poll lib kind virtual) s by
    refine .bind (hpoll.mono fun resp s' _ _ hresp => ?_) hinv
    refine .pure fun _ _ _ => ?_
    cases resp with
    | panic => exact hresp rfl
    | ok resp => trivial
    | err e => trivial
    | hang => trivial
  refine .perform fun s₁ _ hinv₁ => ⟨trivial, fun ref s₂ hfind _ _ => ?_⟩
  obtain ⟨rfl, rfl⟩ := hfind
  cases hf : s₂.heap.find virtual with
  | none => exact .pure fun _ _ _ h => by cases h
  | some ref =>
    have hfound := P.found_of_find hinv₁.heap hf
    refine .perform fun s₃ hlater hinv₃ => ⟨trivial, fun slots s₄ hnames _ _ => ?_⟩
    obtain ⟨rfl, v, hv, hperm⟩ := hnames
    have hfound := P.found_later hlater hfound
    split
    · exact .pure fun _ _ _ h => by cases h
    · refine .perform fun s₅ hlater hinv₅ => ⟨trivial, fun arrivals s₆ hcollect _ _ => ?_⟩
      obtain ⟨rfl, harr, htasks⟩ := hcollect
      refine .bind (.mono (cache_meets ?_) ?_) hinv₅
      · -- a task comes from a slot that was listed when the poll began
        intro w slot hmapping
        obtain ⟨res, hres, resp, task, htask, rfl, rfl⟩ := pollLoop_mapping hmapping
        have hslot : res.physNs ∈ v.getAllNamespaces :=
          hperm.mem_iff.mp (harr.tags.subset (List.mem_map_of_mem hres))
        have htask := htasks res hres resp task htask
        have hfits : P.Fits s₄.heap (getWorkflowId task.workflowExecution) res.physNs :=
          ⟨P.fits_task hinv₃.heap hfound hv hslot htask, fun _ hp => P.pinned_task htask hp⟩
        exact hfits.later hlater
      · intro _ s₇ _ _ _
        split
        next => exact .pure fun _ _ _ hpanic => absurd hpanic pollLoop_ne_panic
        next hparse =>
          refine .pure fun _ _ _ _ => ?_
          rw [List.all_eq_true] at hparse
          push Not at hparse
          obtain ⟨slot, hslot, hnone⟩ := hparse
          exact ⟨slot, P.lists_names hinv₃.heap hv (hperm.mem_iff.mp hslot),
            Option.not_isSome_iff_eq_none.mp hnone⟩

/-- In every interleaving the mappings fit, and so do the slots that requests are sent to. -/
theorem run {ι : Type} [DecidableEq ι] {around : Shared → Shared → Prop}
    (haround : P.Around around) {calls : ι → TrafficCall}
    (hcalls : ∀ i m req w, calls i = .request m req → m.kind.workflowID req = .ok w →
      P.Admits faults m req w)
    {s₀ s : Threads ι Shared Access Access.Answer TrafficAnswer} {turns : List (Option ι)}
    (hstart : ∀ i, s₀.thread i = (calls i).routine lib) (hkept : P.Kept s₀.shared)
    (hrun : Run (Threads.Step (Access.Does lib faults handsOut) around) s₀ turns s) :
    P.Kept s.shared ∧
      (∀ i m req w slot, calls i = .request m req → m.kind.workflowID req = .ok w →
        w ≠ registryKey → s.thread i = .ret (.routed (.ok slot)) →
        P.Fits s.shared.heap w slot) ∧
      ∀ i kind virtual, calls i = .poll kind virtual → s.thread i = .ret (.polled .panic) →
        ∃ slot, P.lists slot ∧ parsePhysicalNamespace slot = none := by
  have hmeets : ∀ i, P.rules.Meets (Access.Does lib faults handsOut) (P.Settled (calls i))
      (s₀.thread i) s₀.shared := by
    intro i
    rw [hstart i]
    cases hc : calls i with
    | request m req => exact request_meets (fun w => hcalls i m req w hc) _ hkept
    | poll kind virtual => exact poll_meets kind virtual _ hkept
  obtain ⟨hinv, hanswers⟩ := (rules_kept haround).run hrun hkept hmeets
  refine ⟨hinv, fun i m req w slot hc hw hne hret => ?_, fun i kind virtual hc hret => ?_⟩
  · have hsettled := hanswers i _ hret
    rw [hc] at hsettled
    exact hsettled w hw hne
  · have hsettled := hanswers i _ hret
    rw [hc] at hsettled
    exact hsettled

end Placement

end Tempura
