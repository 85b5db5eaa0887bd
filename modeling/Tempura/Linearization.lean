import Tempura.Base.FanOut
import Tempura.RequestPhases
import Tempura.Tenants

namespace Tempura
open Base
set_option autoImplicit true

/-- What a proxy does that does one thing at a time. -/
inductive Happening (ι : Type) where
  | request (i : ι)
  | registry (st : RegistryStep)
  | write (key value : GoString)

def Happening.caller : Happening ι → Option ι
  | .request i => some i
  | .registry _ => none
  | .write _ _ => none

/-- An access of a request, a step of an admin request, or a write by a poll or a checkpoint. -/
inductive Occurrence (ι : Type) where
  | access (i : ι)
  | admin (c : AdminCall) (st : AdminState)
  | write (key value : GoString)

def AdminState.change? : AdminState → Option RegistryStep
  | .arrived => none
  | .absent name => some (.create name)
  | .adding req _ => some (.call req.virtualNamespace (.add req.slot))
  | .removing req _ => some (.call req.virtualNamespace (.remove req.slot))
  | .finished _ => none

/-- What an event is to a proxy that does one thing at a time, requests apart. -/
def Occurrence.happening? : Occurrence ι → Option (Happening ι)
  | .access _ => none
  | .admin _ st => st.change?.map .registry
  | .write key value => some (.write key value)

section Orderly
variable {ι : Type} (lib : External) (calls : ι → Incoming)

def Proxy.happen (p : Proxy) : Happening ι → Proxy
  | .request i => ((calls i).route lib.hash32 p).2
  | .registry st => { p with registry := p.registry.step lib.hash32 st }
  | .write key value => { p with db := Mappings.put p.db key value }

def serial (p : Proxy) (log : List (Happening ι)) : Proxy := log.foldl (Proxy.happen lib calls) p

abbrev Requests (ι : Type) := Threads ι Shared Access Access.Answer (Outcome GoString)

def Requests.InProgress (s : Requests ι) (i : ι) : Prop :=
  s.thread i ≠ (calls i).routine ∧ ∀ out, s.thread i ≠ .ret out

/-- An admin request that acts on what it has found in the registry still finds it so. -/
def RegistryHeap.Timely (heap : RegistryHeap) : AdminState → Prop
  | .arrived => True
  | .absent name => heap.find name = none
  | .adding req ref => heap.find req.virtualNamespace = some ref
  | .removing req ref => heap.find req.virtualNamespace = some ref
  | .finished _ => True

/-- Steps that do not meddle with a request in progress. -/
inductive Orderly [DecidableEq ι] : Requests ι → Occurrence ι → Requests ι → Prop
  /-- A request begins when none for its workflow is in progress. -/
  | access {s s' : Requests ι} {i : ι}
      (hstep : Threads.Step (Access.Does lib .never (fun _ _ _ => True)) (fun _ _ => False) s
        (some i) s')
      (hbegins : s.thread i = (calls i).routine →
        ∀ j, (calls j).workflowID = (calls i).workflowID → ¬ s.InProgress calls j) :
      Orderly s (.access i) s'
  | admin {s : Requests ι} {c : AdminCall} {st : AdminState} (hst : c.Stage st)
      (htimely : s.shared.heap.Timely st) :
      Orderly s (.admin c st)
        { s with shared := { s.shared with heap := (c.next lib.hash32 s.shared.heap st).1 } }
  /-- Nobody else writes to the entry of a workflow that a request is in progress for. -/
  | write {s : Requests ι} {key : GoString} (value : GoString)
      (hfree : ∀ i, (calls i).workflowID = .ok key → ¬ s.InProgress calls i) :
      Orderly s (.write key value)
        { s with shared := { s.shared with db := Mappings.put s.shared.db key value } }

/-- The requests as a proxy handles them that does one thing at a time, in the order of `log`. -/
structure Linearized (p : Proxy) (events : List (Occurrence ι)) (s : Requests ι)
    (log : List (Happening ι)) : Prop where
  once : (log.filterMap Happening.caller).Nodup
  begun : ∀ i, .request i ∈ log → s.thread i ≠ (calls i).routine
  answered : ∀ i out, s.thread i = .ret out → ∃ before after,
    log = before ++ .request i :: after ∧
      ((calls i).route lib.hash32 (serial lib calls p before)).1 = out
  others : log.filter (·.caller.isNone) = events.filterMap Occurrence.happening?
  registry : s.shared.heap.Represents (serial lib calls p log).registry
  store : (∀ i, ¬ s.InProgress calls i) →
    ∀ key, s.shared.db.lookup key = (serial lib calls p log).db.lookup key
  allocated : (∀ i, ¬ s.InProgress calls i) →
    s.shared.totalWorkflowAllocated = (serial lib calls p log).totalWorkflowAllocated

end Orderly

section Simulation
variable {ι : Type} [Fintype ι] (lib : External) (calls : ι → Incoming) (workflow : ι → GoString)

/-- The proxy that does one thing at a time is ahead of requests that have settled on a slot. -/
structure Matches (p : Proxy) (s : Requests ι) (phase : ι → Phase) : Prop where
  program : ∀ i, s.thread i = (phase i).program (workflow i) (calls i).ns (calls i).deletes
  fits : ∀ i, (phase i).Fits (workflow i) (calls i).ns (calls i).deletes p s.shared
  alone : ∀ i j, workflow i = workflow j → (phase i).Busy → (phase j).Busy → i = j
  idle : ∀ key, (∀ i, workflow i = key → ¬ (phase i).Busy) →
    p.db.lookup key = s.shared.db.lookup key
  registry : s.shared.heap.Represents p.registry
  allocated : ∀ label, p.totalWorkflowAllocated label =
    s.shared.totalWorkflowAllocated label + ∑ i, (phase i).pending label

structure Recorded (p : Proxy) (log : List (Happening ι)) (phase : ι → Phase) : Prop where
  once : (log.filterMap Happening.caller).Nodup
  settled : ∀ i, .request i ∈ log → (phase i).slot? ≠ none
  answered : ∀ i slot, (phase i).slot? = some slot → ∃ before after,
    log = before ++ .request i :: after ∧
      ((calls i).route lib.hash32 (serial lib calls p before)).1 = .ok slot

variable {lib calls workflow} {p p' : Proxy} {s : Requests ι} {phase : ι → Phase}

theorem Matches.inProgress_iff (h : Matches calls workflow p s phase)
    (hw : ∀ i, (calls i).workflowID = .ok (workflow i)) (i : ι) :
    s.InProgress calls i ↔ (phase i).Busy := by
  rw [Requests.InProgress, h.program i, Incoming.routine_eq (hw i)]
  constructor
  · rintro ⟨hbegun, hret⟩
    cases hp : phase i with
    | arrived =>
      rw [hp] at hbegun
      exact absurd rfl hbegun
    | finishing slot deletes =>
      rintro rfl
      rw [hp] at hret
      exact hret _ rfl
    | missed => trivial
    | held ref => trivial
    | chosen slot => trivial
    | counted slot => trivial
  · intro hbusy
    constructor
    · intro hp
      rw [Phase.eq_arrived_of_program hp] at hbusy
      exact hbusy
    · intro out hp
      obtain ⟨slot, he, -⟩ := Phase.eq_finishing_of_program hp
      rw [he] at hbusy
      exact hbusy rfl

theorem Matches.admin (h : Matches calls workflow p s phase) {heap : RegistryHeap}
    {reg : VirtualNamespaceRegistry} (hrep : heap.Represents reg)
    (hfind : ∀ name ref, s.shared.heap.find name = some ref → heap.find name = some ref) :
    Matches calls workflow { p with registry := reg }
      ⟨{ s.shared with heap := heap }, s.thread⟩ phase where
  program := h.program
  fits i := (h.fits i).frame rfl rfl (hfind (calls i).ns)
  alone := h.alone
  idle := h.idle
  registry := hrep
  allocated := h.allocated

theorem Matches.write (h : Matches calls workflow p s phase) {key : GoString} (value : GoString)
    (hkey : ∀ i, workflow i = key → ¬ (phase i).Busy) :
    Matches calls workflow { p with db := Mappings.put p.db key value }
      ⟨{ s.shared with db := Mappings.put s.shared.db key value }, s.thread⟩ phase := by
  have hput (db : Redis) (key' : GoString) : (Mappings.put db key value).lookup key' =
      if key' = key then some value else db.lookup key' := FiniteMap.lookup_insert_ite _ _ _ _
  constructor
  case program => exact h.program
  case fits =>
    intro i
    by_cases hi : workflow i = key
    · exact .of_not_busy (hkey i hi) _ _
    · refine (h.fits i).frame ?_ ?_ (fun ref hfind => hfind)
      · exact (hput p.db _).trans (if_neg hi)
      · exact (hput s.shared.db _).trans (if_neg hi)
  case alone => exact h.alone
  case idle =>
    intro key' hkey'
    dsimp only
    rw [hput, hput, h.idle key' hkey']
  case registry => exact h.registry
  case allocated => exact h.allocated

variable [DecidableEq ι]

theorem Matches.move (h : Matches calls workflow p s phase) {i : ι} {shared : Shared}
    {phase' : Phase} {rest : Routine (Outcome GoString)}
    (hfollows : Follows (workflow i) (calls i).ns (calls i).deletes p s.shared (phase i) p'
      shared phase')
    (hrest : rest = phase'.program (workflow i) (calls i).ns (calls i).deletes)
    (hothers : ∀ j, j ≠ i → workflow j = workflow i → ¬ (phase j).Busy) :
    Matches calls workflow p' ⟨shared, Function.update s.thread i rest⟩
      (Function.update phase i phase') := by
  constructor
  case program =>
    intro j
    dsimp only
    by_cases hj : j = i
    · subst hj
      rw [Function.update_self, Function.update_self, hrest]
    · rw [Function.update_of_ne hj, Function.update_of_ne hj, h.program j]
  case fits =>
    intro j
    by_cases hj : j = i
    · subst hj
      rw [Function.update_self]
      exact hfollows.fits
    · rw [Function.update_of_ne hj]
      by_cases hsame : workflow j = workflow i
      · exact .of_not_busy (hothers j hj hsame) _ _
      · obtain ⟨hp, hs⟩ := hfollows.elsewhere _ hsame
        refine (h.fits j).frame hp hs fun ref hfind => ?_
        rw [hfollows.heap]
        exact hfind
  case alone =>
    intro j k hjk hj hk
    by_cases hji : j = i
    · by_cases hki : k = i
      · rw [hji, hki]
      · rw [Function.update_of_ne hki] at hk
        exact absurd hk (hothers k hki (by rw [← hjk, hji]))
    · rw [Function.update_of_ne hji] at hj
      by_cases hki : k = i
      · exact absurd hj (hothers j hji (by rw [hjk, hki]))
      · rw [Function.update_of_ne hki] at hk
        exact h.alone j k hjk hj hk
  case idle =>
    intro key hkey
    by_cases hi : key = workflow i
    · subst hi
      have hidle := hkey i rfl
      rw [Function.update_self] at hidle
      exact hfollows.settled hidle
    · obtain ⟨hp, hs⟩ := hfollows.elsewhere key hi
      refine hp.trans ((h.idle key fun j hj => ?_).trans hs.symm)
      have hji : j ≠ i := by
        rintro rfl
        exact hi hj.symm
      have hidle := hkey j hj
      rwa [Function.update_of_ne hji] at hidle
  case registry =>
    rw [hfollows.registry]
    exact hfollows.heap ▸ h.registry
  case allocated =>
    intro label
    have hsum := sum_update (fun phase => phase.pending label) phase i phase'
    have hcounted := hfollows.counted label
    have hold := h.allocated label
    dsimp only at hsum ⊢
    omega

end Simulation

section Records
variable {ι : Type} {lib : External} {calls : ι → Incoming} {p : Proxy} {log : List (Happening ι)}
  {phase : ι → Phase}

theorem serial_append (log new : List (Happening ι)) :
    serial lib calls p (log ++ new) = serial lib calls (serial lib calls p log) new :=
  List.foldl_append

theorem Happening.mem_callers {i : ι} :
    i ∈ log.filterMap Happening.caller ↔ .request i ∈ log := by
  rw [List.mem_filterMap]
  constructor
  · rintro ⟨e, he, hi⟩
    cases e with
    | request j =>
      cases hi
      exact he
    | registry st => cases hi
    | write key value => cases hi
  · intro h
    exact ⟨_, h, rfl⟩

theorem Recorded.other (h : Recorded lib calls p log phase) {e : Happening ι}
    (he : e.caller = none) : Recorded lib calls p (log ++ [e]) phase := by
  constructor
  case once =>
    rw [List.filterMap_append, List.filterMap_cons_none he, List.filterMap_nil, List.append_nil]
    exact h.once
  case settled =>
    intro i hi
    rcases List.mem_append.mp hi with hi | hi
    · exact h.settled i hi
    · rw [← List.mem_singleton.mp hi] at he
      cases he
  case answered =>
    intro i slot hi
    obtain ⟨before, after, hlog, hroute⟩ := h.answered i slot hi
    refine ⟨before, after ++ [e], ?_, hroute⟩
    rw [hlog, List.append_assoc, List.cons_append]

variable [DecidableEq ι]

theorem Recorded.late (h : Recorded lib calls p log phase) {i : ι} {phase' : Phase}
    (hslot : phase'.slot? = (phase i).slot?) :
    Recorded lib calls p log (Function.update phase i phase') := by
  have hslots (j : ι) : (Function.update phase i phase' j).slot? = (phase j).slot? := by
    by_cases hj : j = i
    · subst hj
      rw [Function.update_self, hslot]
    · rw [Function.update_of_ne hj]
  constructor
  case once => exact h.once
  case settled =>
    intro j hj
    rw [hslots]
    exact h.settled j hj
  case answered =>
    intro j slot hj
    rw [hslots] at hj
    exact h.answered j slot hj

theorem Recorded.settle (h : Recorded lib calls p log phase) {i : ι} {phase' : Phase}
    (hnone : (phase i).slot? = none) (hslot : phase'.slot? = some slot)
    (hroute : ((calls i).route lib.hash32 (serial lib calls p log)).1 = .ok slot) :
    Recorded lib calls p (log ++ [.request i]) (Function.update phase i phase') := by
  constructor
  case once =>
    rw [List.filterMap_append]
    refine List.nodup_append.mpr ⟨h.once, List.nodup_singleton i, ?_⟩
    intro j hj k hk
    rw [List.mem_singleton.mp hk]
    rintro rfl
    exact h.settled j (Happening.mem_callers.mp hj) hnone
  case settled =>
    intro j hj
    by_cases hji : j = i
    · subst hji
      rw [Function.update_self, hslot]
      exact Option.some_ne_none slot
    · rw [Function.update_of_ne hji]
      rcases List.mem_append.mp hj with hj | hj
      · exact h.settled j hj
      · cases List.mem_singleton.mp hj
        exact absurd rfl hji
  case answered =>
    intro j slot' hj
    by_cases hji : j = i
    · subst hji
      rw [Function.update_self, hslot] at hj
      cases hj
      exact ⟨log, [], rfl, hroute⟩
    · rw [Function.update_of_ne hji] at hj
      obtain ⟨before, after, hlog, hbefore⟩ := h.answered j slot' hj
      refine ⟨before, after ++ [.request i], ?_, hbefore⟩
      rw [hlog, List.append_assoc, List.cons_append]

end Records

theorem RegistryHeap.Represents.call {heap : RegistryHeap} (h : heap.Represents reg)
    {hash32 : GoString → UInt32} {v : VirtualNamespace} (hf : heap.find name = some ref)
    (ho : heap.objects[ref]? = some v) (call : NamespaceCall) :
    RegistryHeap.Represents (heap.set ref (v.call hash32 call))
      (reg.step hash32 (.call name call)) := by
  obtain ⟨v', hv', hresolve⟩ := h.find_some hf
  cases ho.symm.trans hv'
  rw [VirtualNamespaceRegistry.step, hresolve]
  exact h.set hf _

theorem AdminCall.next_timely (hash32 : GoString → UInt32) {c : AdminCall} {heap : RegistryHeap}
    (hst : c.Stage st) (ht : heap.Timely st) (hrep : heap.Represents reg) :
    (c.next hash32 heap st).1.Represents (st.change?.elim reg (reg.step hash32)) ∧
      ∀ name ref, heap.find name = some ref → (c.next hash32 heap st).1.find name = some ref := by
  cases hst with
  | arrived => exact ⟨hrep, fun _ _ hf => hf⟩
  | @absent r req hr =>
    have hnone : heap.find req.name = none := ht
    constructor
    · change RegistryHeap.Represents _ (reg.step hash32 (.create req.name))
      rw [VirtualNamespaceRegistry.step, hrep.find_none hnone]
      exact hrep.register req.name
    · intro name ref hf
      rw [next, ObjectTable.find_register, if_neg, hf]
      rintro rfl
      rw [hnone] at hf
      cases hf
  | @adding r req ref hr =>
    obtain ⟨v, hv, -⟩ := hrep.find_some ht
    rw [next, hv]
    exact ⟨hrep.call ht hv (.add req.slot), fun _ _ hf => hf⟩
  | @removing r req ref hr =>
    obtain ⟨v, hv, -⟩ := hrep.find_some ht
    rw [next, hv]
    exact ⟨hrep.call ht hv (.remove req.slot), fun _ _ hf => hf⟩
  | finished => exact ⟨hrep, fun _ _ hf => hf⟩

section Linearize
variable {ι : Type} [Fintype ι] {lib : External} {calls : ι → Incoming}
  {workflow : ι → GoString} {p : Proxy} {s s' : Requests ι} {log : List (Happening ι)}
  {phase : ι → Phase}

variable (lib calls workflow p) in
def Tracks (events : List (Occurrence ι)) (s : Requests ι) (log : List (Happening ι)) : Prop :=
  log.filter (·.caller.isNone) = events.filterMap Occurrence.happening? ∧
    ∃ phase, Matches calls workflow (serial lib calls p log) s phase ∧
      Recorded lib calls p log phase

theorem tracks_start (hw : ∀ i, (calls i).workflowID = .ok (workflow i))
    (hthreads : ∀ i, s.thread i = (calls i).routine)
    (hrep : s.shared.heap.Represents p.registry) (hdb : s.shared.db = p.db)
    (htotal : s.shared.totalWorkflowAllocated = p.totalWorkflowAllocated) :
    Tracks lib calls workflow p [] s [] := by
  refine ⟨rfl, fun _ => .arrived, ?_, ?_⟩
  · constructor
    case program =>
      intro i
      rw [hthreads i, Incoming.routine_eq (hw i)]
      rfl
    case fits => exact fun i => trivial
    case alone => exact fun i j _ hi => hi.elim
    case idle => exact fun key _ => congrArg (AList.lookup key) hdb.symm
    case registry => exact hrep
    case allocated =>
      intro label
      have hsum : ∑ _ : ι, Phase.arrived.pending label = 0 := Finset.sum_eq_zero fun _ _ => rfl
      rw [hsum, htotal]
      rfl
  · exact ⟨List.nodup_nil, fun i hi => absurd hi List.not_mem_nil, fun i slot hi => by cases hi⟩

theorem Tracks.linearized (h : Tracks lib calls workflow p events s log)
    (hw : ∀ i, (calls i).workflowID = .ok (workflow i)) : Linearized lib calls p events s log := by
  obtain ⟨hothers, phase, h, hrec⟩ := h
  have hquiet (hall : ∀ i, ¬ s.InProgress calls i) (i : ι) : ¬ (phase i).Busy := by
    rw [← h.inProgress_iff hw i]
    exact hall i
  constructor
  case once => exact hrec.once
  case begun =>
    intro i hi hthread
    rw [h.program i, Incoming.routine_eq (hw i)] at hthread
    apply hrec.settled i hi
    rw [Phase.eq_arrived_of_program hthread]
    rfl
  case answered =>
    intro i out hout
    rw [h.program i] at hout
    obtain ⟨slot, hphase, rfl⟩ := Phase.eq_finishing_of_program hout
    apply hrec.answered i slot
    rw [hphase]
    rfl
  case others => exact hothers
  case registry => exact h.registry
  case store => exact fun hall key => (h.idle key fun i _ => hquiet hall i).symm
  case allocated =>
    intro hall
    funext label
    have hpending (i : ι) : (phase i).pending label = 0 := by
      have hi := hquiet hall i
      cases hp : phase i with
      | chosen slot =>
        rw [hp] at hi
        exact absurd trivial hi
      | _ => rfl
    rw [h.allocated label, Finset.sum_eq_zero (fun i _ => hpending i), Nat.add_zero]

variable [DecidableEq ι]

/-- The proxy handles a request when it settles on its slot, and not at its other accesses. -/
theorem Matches.access (h : Matches calls workflow (serial lib calls p log) s phase)
    (hrec : Recorded lib calls p log phase)
    (hw : ∀ i, (calls i).workflowID = .ok (workflow i)) {i : ι} {shared : Shared}
    {phase' : Phase} {rest : Routine (Outcome GoString)}
    (hnext : Phase.Next lib.hash32 (workflow i) (calls i).ns (calls i).deletes s.shared (phase i)
      shared phase')
    (hrest : rest = phase'.program (workflow i) (calls i).ns (calls i).deletes)
    (hothers : ∀ j, j ≠ i → workflow j = workflow i → ¬ (phase j).Busy) :
    ∃ new, new.filter (·.caller.isNone) = [] ∧
      Matches calls workflow (serial lib calls p (log ++ new))
        ⟨shared, Function.update s.thread i rest⟩ (Function.update phase i phase') ∧
      Recorded lib calls p (log ++ new) (Function.update phase i phase') := by
  have hidle : ¬ (phase i).Busy →
      (serial lib calls p log).db.lookup (workflow i) = s.shared.db.lookup (workflow i) := by
    intro hi
    refine h.idle _ fun j hj => ?_
    by_cases hji : j = i
    · rw [hji]
      exact hi
    · exact hothers j hji hj
  obtain ⟨hslot, hfollows⟩ | ⟨hnone, slot, hslot, hroute, hfollows⟩ :=
    Incoming.follow (hw i) hnext (h.fits i) h.registry hidle
  · refine ⟨[], rfl, ?_, ?_⟩
    · rw [List.append_nil]
      exact h.move hfollows hrest hothers
    · rw [List.append_nil]
      exact hrec.late hslot
  · refine ⟨[.request i], rfl, ?_, hrec.settle hnone hslot hroute⟩
    rw [serial_append]
    exact h.move hfollows hrest hothers

theorem Tracks.step (h : Tracks lib calls workflow p events s log)
    (hw : ∀ i, (calls i).workflowID = .ok (workflow i)) (hstep : Orderly lib calls s e s') :
    ∃ new, Tracks lib calls workflow p (events ++ [e]) s' (log ++ new) := by
  obtain ⟨hlog, phase, h, hrec⟩ := h
  cases hstep with
  | @access _ i hstep hbegins =>
    cases hstep with
    | @op _ o rest x shared hi hdoes =>
      rw [h.program i] at hi
      obtain ⟨phase', hnext, hrest⟩ := Phase.next_of_does hi hdoes
      have hothers : ∀ j, j ≠ i → workflow j = workflow i → ¬ (phase j).Busy := by
        intro j hj hsame
        rcases hnext.arrived_or_busy with harrived | hbusy
        · rw [← h.inProgress_iff hw j]
          refine hbegins ?_ j (by rw [hw j, hw i, hsame])
          rw [h.program i, harrived, Incoming.routine_eq (hw i)]
          rfl
        · exact fun hb => hj (h.alone j i hsame hb hbusy)
      obtain ⟨new, hnone, hnew⟩ := h.access hrec hw hnext hrest hothers
      refine ⟨new, ?_, _, hnew⟩
      rw [List.filter_append, List.filterMap_append, hnone, hlog]
      rfl
  | @admin c st hst htimely =>
    obtain ⟨hrep, hfind⟩ := AdminCall.next_timely lib.hash32 hst htimely h.registry
    refine ⟨(st.change?.map Happening.registry).toList, ?_, phase, ?_⟩
    · rw [List.filter_append, List.filterMap_append, hlog]
      cases hc : st.change? <;> simp [Occurrence.happening?, Happening.caller, hc]
    · cases hc : st.change? with
      | none =>
        rw [hc] at hrep
        exact ⟨by simpa using h.admin hrep hfind, by simpa using hrec⟩
      | some step =>
        rw [hc] at hrep
        refine ⟨?_, hrec.other rfl⟩
        rw [serial_append]
        exact h.admin hrep hfind
  | @write key value hfree =>
    refine ⟨[.write key value], ?_, phase, ?_, hrec.other rfl⟩
    · rw [List.filter_append, List.filterMap_append, hlog]
      rfl
    · rw [serial_append]
      refine h.write value fun i hi => ?_
      rw [← h.inProgress_iff hw i]
      exact hfree i (by rw [hw i, hi])

theorem Tracks.unique (h : Tracks lib calls workflow p events s log)
    (hstep : Orderly lib calls s e s') (hstep' : Orderly lib calls s e s'') : s' = s'' := by
  obtain ⟨-, phase, h, -⟩ := h
  cases hstep with
  | admin hst htimely =>
    cases hstep'
    rfl
  | write value hfree =>
    cases hstep'
    rfl
  | @access _ i hone =>
    cases hstep' with
    | access htwo =>
      cases hone with
      | op hi hdoes =>
        cases htwo with
        | op hi' hdoes' =>
          obtain ⟨rfl, hrest⟩ := Program.op.inj (hi.symm.trans hi')
          cases hrest
          rw [h.program i] at hi
          obtain ⟨phase₁, hnext, heq⟩ := Phase.next_of_does hi hdoes
          obtain ⟨phase₂, hnext', heq'⟩ := Phase.next_of_does hi hdoes'
          obtain ⟨rfl, rfl⟩ := hnext.unique hnext'
          rw [heq, heq']

end Linearize

/-- If requests for one workflow do not overlap, nobody else writes to its entry meanwhile, and
admin requests act on what is still so, then one order explains all answers at all moments. -/
theorem requests_linearize {ι : Type} [Fintype ι] [DecidableEq ι] (lib : External)
    (calls : ι → Incoming) (workflow : ι → GoString)
    (hw : ∀ i, (calls i).workflowID = .ok (workflow i)) (p : Proxy) (s₀ : Requests ι)
    (hthreads : ∀ i, s₀.thread i = (calls i).routine)
    (hrep : s₀.shared.heap.Represents p.registry) (hdb : s₀.shared.db = p.db)
    (htotal : s₀.shared.totalWorkflowAllocated = p.totalWorkflowAllocated) :
    ∃ log : List (Occurrence ι) → List (Happening ι),
      (∀ events events', log events <+: log (events ++ events')) ∧
      ∀ events s, Run (Orderly lib calls) s₀ events s →
        Linearized lib calls p events s (log events) := by
  obtain ⟨log, hgrows, hlog⟩ := exists_log (R := Tracks lib calls workflow p) (Orderly lib calls)
    (tracks_start hw hthreads hrep hdb htotal) (fun h hone htwo => h.unique hone htwo)
    (fun h hstep => h.step hw hstep)
  exact ⟨log, hgrows, fun events s hrun => (hlog events s hrun).linearized hw⟩

theorem Orderly.of_injective {ι : Type} [DecidableEq ι] {lib : External} {calls : ι → Incoming}
    (hinj : Function.Injective fun i => (calls i).workflowID) {s s' : Requests ι} {i : ι}
    (hstep : Threads.Step (Access.Does lib .never (fun _ _ _ => True)) (fun _ _ => False) s
      (some i) s') : Orderly lib calls s (.access i) s' := by
  refine .access hstep fun hthread j hj => ?_
  rw [hinj hj]
  exact fun hbusy => hbusy.1 hthread

def ordersProxy : Proxy where
  registry := (VirtualNamespaceRegistry.empty.register (newVirtualNamespace (lit "orders"))).step
    murmur3Sum32 (.call (lit "orders") (.add orders1))
  db := ∅
  totalWorkflowAllocated _ := 0

theorem ordersHeap_represents : ordersHeap.Represents ordersProxy.registry := by
  have hempty : RegistryHeap.Represents ⟨∅, []⟩ .empty :=
    ⟨fun name ref h => (by cases h), fun name name' ref h => (by cases h), fun name => rfl⟩
  have hcreated := hempty.register (lit "orders")
  exact hcreated.call (show ObjectTable.find _ (lit "orders") = some 0 from rfl) rfl (.add orders1)

def startTwo : Bool → Incoming
  | false => ⟨.startWorkflowExecution, ⟨lit "orders", lit "w1", []⟩⟩
  | true => ⟨.startWorkflowExecution, ⟨lit "orders", lit "w2", []⟩⟩

def startTwoBegin : Requests Bool := ⟨ordersShared, fun i => (startTwo i).routine⟩

theorem startTwo_injective : Function.Injective fun i => (startTwo i).workflowID := by
  decide

def addC2 : AdminCall := .add ⟨lit "POST", .ok ⟨lit "orders", lit "orders", lit "c2"⟩⟩

theorem startTwo_run : ∃ events s slot slot',
    Run (Orderly sampleExternal startTwo) startTwoBegin events s ∧
      events.filterMap Occurrence.happening? =
        [.registry (.call (lit "orders") (.add (lit "orders::c2")))] ∧
      s.thread false = .ret (.ok slot) ∧ s.thread true = .ret (.ok slot') := by
  have hadd : addC2.Stage (.adding ⟨lit "orders", lit "orders", lit "c2"⟩ 0) := .adding rfl
  have hop {s s' : Requests Bool} {i : Bool} := @Orderly.of_injective Bool _ sampleExternal
    startTwo startTwo_injective s s' i
  have hstart : Run (Orderly sampleExternal startTwo) startTwoBegin [] _ := .nil
  have hget := hstart.snoc (hop (.op (i := false) rfl ⟨rfl, .inl rfl⟩))
  have hget' := hget.snoc (hop (.op (i := true) rfl ⟨rfl, .inl rfl⟩))
  have hadded := hget'.snoc (.admin hadd rfl)
  have hfind := hadded.snoc (hop (.op (i := false) rfl ⟨rfl, rfl⟩))
  have hfind' := hfind.snoc (hop (.op (i := true) rfl ⟨rfl, rfl⟩))
  have hslot' := hfind'.snoc (hop (.op (i := true) rfl ⟨rfl, _, rfl, rfl⟩))
  have hslot := hslot'.snoc (hop (.op (i := false) rfl ⟨rfl, _, rfl, rfl⟩))
  have hcount' := hslot.snoc (hop (.op (i := true) (x := ()) rfl rfl))
  have hcount := hcount'.snoc (hop (.op (i := false) (x := ()) rfl rfl))
  have hput' := hcount.snoc (hop (.op (i := true) (x := ()) rfl (.inl rfl)))
  have hput := hput'.snoc (hop (.op (i := false) (x := ()) rfl (.inl rfl)))
  exact ⟨_, _, _, _, hput, rfl, rfl, rfl⟩

theorem requests_linearize_two : ∃ events s slot slot' log,
    Run (Orderly sampleExternal startTwo) startTwoBegin events s ∧
      s.thread false = .ret (.ok slot) ∧ s.thread true = .ret (.ok slot') ∧
      Linearized sampleExternal startTwo ordersProxy events s log ∧
      log.filter (·.caller.isNone) =
        [.registry (.call (lit "orders") (.add (lit "orders::c2")))] := by
  obtain ⟨events, s, slot, slot', hrun, hevents, hfalse, htrue⟩ := startTwo_run
  have hw : ∀ i, (startTwo i).workflowID = .ok (if i then lit "w2" else lit "w1") := by decide
  obtain ⟨log, -, hlog⟩ := requests_linearize sampleExternal startTwo _ hw ordersProxy
    startTwoBegin (fun _ => rfl) ordersHeap_represents rfl rfl
  have hlin := hlog events s hrun
  exact ⟨events, s, slot, slot', log events, hrun, hfalse, htrue, hlin, hlin.others.trans hevents⟩

end Tempura
