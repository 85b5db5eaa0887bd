import Tempura.HandlerSafety
import Tempura.InFlight
import Tempura.PollGoroutines
import Tempura.Tenants

namespace Tempura
open Base
set_option autoImplicit true

section Sticky
variable (lib : External) {Open : GoString → GoString → Prop}

/-- Clusters have tasks only of open executions; of the registry nothing has to hold. -/
def stuck (hopen : ∀ w p, Open w p → w ≠ registryKey ∧ p ≠ []) :
    Placement lib (fun _ slot w => ∀ p, Open w p → slot = p) where
  inv _ := True
  later _ _ := True
  names _ _ := True
  found _ _ _ := True
  fits _ _ _ := True
  lists _ := True
  pinned := Open
  refl _ := trivial
  trans _ _ := trivial
  found_of_find _ _ := trivial
  found_later _ _ := trivial
  fits_later _ _ := trivial
  fits_nil := trivial
  fits_getSlot _ _ _ _ := trivial
  fits_task _ _ _ _ _ := trivial
  lists_names _ _ _ := trivial
  pinned_ne hp := hopen _ _ hp
  pinned_task htask hp := htask _ hp

/-- The mappings of open executions stay, whatever becomes of the rest. -/
def Shared.Sparing (Open : GoString → GoString → Prop) (s s' : Shared) : Prop :=
  ∀ w p, Open w p → s'.db.lookup w = s.db.lookup w

theorem stuck_around (hopen : ∀ w p, Open w p → w ≠ registryKey ∧ p ≠ []) :
    (stuck lib hopen).Around (Shared.Sparing Open) where
  kept := by
    intro s s' hkept hstep
    refine ⟨trivial, fun _ _ _ _ => trivial, fun w p hp => ?_⟩
    rw [hstep w p hp]
    exact hkept.pinned w p hp
  later _ _ := trivial

theorem stuck_fits (hopen : ∀ w p, Open w p → w ≠ registryKey ∧ p ≠ []) {heap : RegistryHeap}
    (h : ∀ p, Open w p → slot = p) : (stuck lib hopen).Fits heap w slot :=
  ⟨trivial, h⟩

end Sticky

/-- From a moment at which the open executions are mapped and no request for one is in progress, the
mappings stay and requests for open executions are sent where these are. -/
theorem interleaved_sticky {ι : Type} [DecidableEq ι] (lib : External) (lossy : Prop)
    (Open : GoString → GoString → Prop)
    (hopen : ∀ w p, Open w p → w ≠ registryKey ∧ p ≠ []) (calls : ι → TrafficCall)
    (hcalls : ∀ i m req w p, calls i = .request m req → m.kind.workflowID req = .ok w → Open w p →
      ∀ command ∈ Traffic.commands m req, command.commandType ≠ .completeWorkflowExecution)
    (s₀ s : Threads ι Shared Access Access.Answer TrafficAnswer) (turns : List (Option ι))
    (hstart : ∀ i, ((calls i).routine lib).Leads (s₀.thread i))
    (hflight : ∀ i w p slot, Open w p → (calls i).MayPut lib (s₀.thread i) w slot → slot = p)
    (hstored : ∀ w p, Open w p → s₀.shared.db.lookup w = some p)
    (hrun : Run (Threads.Step
      (Access.Does lib ⟨False, lossy⟩ (fun _ slot w => ∀ p, Open w p → slot = p))
      (Shared.Sparing Open)) s₀ turns s) :
    (∀ w p, Open w p → s.shared.db.lookup w = some p) ∧
      ∀ i m req w p slot, calls i = .request m req → m.kind.workflowID req = .ok w → Open w p →
        (∀ answer, s₀.thread i ≠ .ret answer) → s.thread i = .ret (.routed (.ok slot)) →
        slot = p := by
  have hkept : (stuck lib hopen).Kept s₀.shared := ⟨trivial, fun _ _ _ _ => trivial, hstored⟩
  have hadmits : ∀ i m req w, calls i = .request m req → m.kind.workflowID req = .ok w →
      (stuck lib hopen).Admits ⟨False, lossy⟩ m req w :=
    fun i m req w hc hw => ⟨trivial,
      fun command hmem hcomplete p hp => hcalls i m req w p hc hw hp command hmem hcomplete,
      fun _ _ => id⟩
  obtain ⟨hend, hanswers⟩ := Placement.run_inFlight (stuck_around lib hopen) hadmits
    (stuck_fits lib hopen) hstart
    (fun i w slot hput _ => stuck_fits lib hopen fun p hp => hflight i w p slot hp hput) hkept hrun
  refine ⟨hend.pinned, fun i m req w p slot hc hw hp hnew hret => ?_⟩
  exact (hanswers i m req w slot hc hw (hopen w p hp).1 hnew hret).pinned p hp

def W1Open (w p : GoString) : Prop := w = lit "w1" ∧ p = orders2

/-- The workflow `w1` is at a slot that the registry does not have, and two starts of it come in. -/
def ordersMoved : Threads Bool Shared Access Access.Answer TrafficAnswer where
  shared := ⟨ordersHeap, AList.insert (lit "w1") orders2 ∅, fun _ => 0⟩
  thread _ := startW1Call.routine sampleExternal

theorem interleaved_sticky_moved : ∃ turns s slot slot',
    Run (Threads.Step (Access.Does sampleExternal ⟨False, True⟩
      (fun _ slot w => ∀ p, W1Open w p → slot = p)) (Shared.Sparing W1Open)) ordersMoved turns s ∧
      s.thread false = .ret (.routed (.ok slot)) ∧ slot = orders2 ∧
      s.thread true = .ret (.routed (.ok slot')) ∧ slot' = orders2 := by
  have hstart : Run (Threads.Step (Access.Does sampleExternal ⟨False, True⟩
      (fun _ slot w => ∀ p, W1Open w p → slot = p)) (Shared.Sparing W1Open)) ordersMoved [] _ :=
    .nil
  have hget := hstart.snoc (.op (i := false) rfl ⟨rfl, .inl rfl⟩)
  have hget' := hget.snoc (.op (i := true) rfl ⟨rfl, .inl rfl⟩)
  have hopen : ∀ w p, W1Open w p → w ≠ registryKey ∧ p ≠ [] := by
    rintro w p ⟨rfl, rfl⟩
    exact ⟨by decide, by decide⟩
  have hcalls : ∀ (i : Bool) (m : Method) (req : m.Message) (w p : GoString),
      startW1Call = .request m req → m.kind.workflowID req = .ok w → W1Open w p →
        ∀ command ∈ Traffic.commands m req,
          command.commandType ≠ .completeWorkflowExecution := by
    intro _ m req w p hc _ _ command hmem
    cases hc
    cases hmem
  have hflight : ∀ (i : Bool) (w p slot : GoString), W1Open w p →
      startW1Call.MayPut sampleExternal (ordersMoved.thread i) w slot → slot = p := by
    rintro i w p slot - ⟨-, hfresh, -⟩
    exact absurd rfl hfresh
  have hstored : ∀ w p, W1Open w p → ordersMoved.shared.db.lookup w = some p := by
    rintro w p ⟨rfl, rfl⟩
    rfl
  have hsticky := interleaved_sticky sampleExternal True W1Open hopen (fun _ => startW1Call) hcalls
    ordersMoved _ _ (fun _ => .refl) hflight hstored hget'
  refine ⟨_, _, _, _, hget', rfl, ?_, rfl, ?_⟩
  · exact hsticky.2 false _ _ (lit "w1") orders2 _ rfl rfl ⟨rfl, rfl⟩ (fun _ h => by cases h) rfl
  · exact hsticky.2 true _ _ (lit "w1") orders2 _ rfl rfl ⟨rfl, rfl⟩ (fun _ h => by cases h) rfl

def RegistryHeap.Delimited (heap : RegistryHeap) : Prop :=
  ∀ v ∈ heap.objects, v.Delimited

theorem AdminCall.Move.delimited {c : AdminCall} {heap heap' : RegistryHeap}
    (h : c.Move hash32 heap st heap' st') (hd : heap.Delimited) : heap'.Delimited :=
  h.objects VirtualNamespace.delimited_new (fun _ call hv hname => hv.call hash32 call hname) hd

section Crash
variable (lib : External)

/-- Workflows are nowhere or at slots whose name can be parsed. -/
def parseable : Placement lib (fun _ _ _ => True) where
  inv := RegistryHeap.Delimited
  later _ _ := True
  names _ _ := True
  found _ _ _ := True
  fits _ _ slot := slot = [] ∨ delim <:+: slot
  lists slot := delim <:+: slot
  pinned _ _ := False
  refl _ := trivial
  trans _ _ := trivial
  found_of_find _ _ := trivial
  found_later _ _ := trivial
  fits_later _ h := h
  fits_nil := .inl rfl
  fits_getSlot := by
    intro heap name ref v w hinv _ hv _
    by_cases hne : v.ring.getSlot lib.hash32 w = []
    · exact .inl hne
    · exact .inr ((hinv v (List.mem_of_getElem? hv)).getSlot hne)
  fits_task hinv _ hv hs _ := .inr ((hinv _ (List.mem_of_getElem? hv)).names _ hs)
  lists_names hinv hv hs := (hinv _ (List.mem_of_getElem? hv)).names _ hs
  pinned_ne := @Placement.none_pinned
  pinned_task _ := False.elim

theorem parseable_around : (parseable lib).Around (Shared.Around lib) where
  kept := by
    intro s s' hkept hstep
    refine hkept.frame ?_ trivial (hstep.stored lib)
    cases hstep with
    | admin hst => exact (AdminCall.next_move hst).delimited hkept.heap
    | checkpoint text => exact hkept.heap
  later _ _ := trivial

end Crash

theorem pollJob_not_crashed {slots : List GoString} (hslots : ∀ slot ∈ slots, delim <:+: slot)
    {turns : List (FanOut.Turn slots.length (Except GoString UpstreamResponse))}
    {f : Goroutines slots}
    (hrun : Run (FanOut.Step (pollJob lib kind originalReq reqStruct slots)) {} turns f) :
    f.crashed = false := by
  rw [← Bool.not_eq_true]
  intro hcrash
  obtain ⟨i, hi⟩ := (FanOut.sound_of_run hrun).1.crashed hcrash
  have hsome := (parsePhysicalNamespace_isSome_iff _).mpr (hslots _ (List.get_mem slots i))
  rw [pollPrepare_fails_iff.mp hi] at hsome
  cases hsome

/-- If all slots were added by the admin server, no poll and no goroutine of a poll panics, and
every request is sent to a slot whose name can be parsed, or nowhere. -/
theorem traffic_never_crashes {ι : Type} [DecidableEq ι] (lib : External) (faults : StoreFaults)
    (calls : ι → TrafficCall) (s₀ s : Threads ι Shared Access Access.Answer TrafficAnswer)
    (turns : List (Option ι)) (hstart : ∀ i, s₀.thread i = (calls i).routine lib)
    (hheap : s₀.shared.heap.Delimited)
    (hstored : ∀ w slot, w ≠ registryKey → s₀.shared.db.lookup w = some slot →
      slot = [] ∨ delim <:+: slot)
    (hrun : Run (Threads.Step (Access.Does lib faults (fun _ _ _ => True)) (Shared.Around lib))
      s₀ turns s) :
    (∀ i kind virtual, calls i = .poll kind virtual → s.thread i ≠ .ret (.polled .panic)) ∧
    (∀ v ∈ s.shared.heap.objects, ∀ slots, slots.Perm v.getAllNamespaces →
      ∀ kind originalReq reqStruct turns (f : Goroutines slots),
        Run (FanOut.Step (pollJob lib kind originalReq reqStruct slots)) {} turns f →
        f.crashed = false) ∧
    ∀ i m req w slot, calls i = .request m req → m.kind.workflowID req = .ok w →
      w ≠ registryKey → s.thread i = .ret (.routed (.ok slot)) →
      slot = [] ∨ (parsePhysicalNamespace slot).isSome = true := by
  have hkept : (parseable lib).Kept s₀.shared := ⟨hheap, hstored, fun _ _ => False.elim⟩
  obtain ⟨hend, hanswers, hpolls⟩ := Placement.run (parseable_around lib)
    (fun _ _ _ _ _ _ => ⟨trivial, fun _ _ _ _ => id, fun _ => False.elim⟩) hstart hkept hrun
  refine ⟨fun i kind virtual hc hret => ?_, fun v hv slots hperm => ?_, ?_⟩
  · obtain ⟨slot, hslot, hnone⟩ := hpolls i kind virtual hc hret
    have hsome := (parsePhysicalNamespace_isSome_iff slot).mpr hslot
    rw [hnone] at hsome
    cases hsome
  · intro kind originalReq reqStruct turns f hgo
    refine pollJob_not_crashed (fun slot hslot => ?_) hgo
    exact (hend.heap v hv).names slot (hperm.mem_iff.mp hslot)
  · intro i m req w slot hc hw hne hret
    exact (hanswers i m req w slot hc hw hne hret).fits.imp_right
      (parsePhysicalNamespace_isSome_iff slot).mpr

def pollOrders : Threads Unit Shared Access Access.Answer TrafficAnswer where
  shared := ordersShared
  thread _ := (TrafficCall.poll .workflow (lit "orders")).routine sampleExternal

def lateArrivals : List PollResult := [⟨orders1, .error (lit "context deadline exceeded")⟩]

theorem lateArrivals_arrive : Arrivals [orders1] lateArrivals where
  tags := List.Subperm.refl _
  parses := by decide
  complete _ := rfl

theorem ordersHeap_delimited : ordersHeap.Delimited := by
  have hempty : RegistryHeap.Delimited ⟨∅, []⟩ := fun v hv => by cases hv
  have hnew := VirtualNamespace.delimited_new (lit "orders")
  exact RegistryHeap.forall_set (RegistryHeap.forall_register hempty (lit "orders") hnew) 0
    (hnew.add murmur3Sum32 (by decide))

theorem traffic_never_crashes_late : ∃ turns s resp,
    Run (Threads.Step (Access.Does sampleExternal .never (fun _ _ _ => True))
      (Shared.Around sampleExternal)) pollOrders turns s ∧
      s.thread () = .ret (.polled resp) ∧ resp ≠ .panic := by
  have hstart : Run (Threads.Step (Access.Does sampleExternal .never (fun _ _ _ => True))
      (Shared.Around sampleExternal)) pollOrders [] _ := .nil
  have hfind := hstart.snoc (.op (i := ()) rfl ⟨rfl, rfl⟩)
  have hnames := hfind.snoc (.op (i := ()) (x := [orders1]) rfl ⟨rfl, _, rfl, List.Perm.refl _⟩)
  have hcollect := hnames.snoc (.op (i := ()) (x := lateArrivals) rfl
    ⟨rfl, lateArrivals_arrive, fun _ _ _ _ _ => trivial⟩)
  refine ⟨_, _, _, hcollect, rfl, fun hpanic => ?_⟩
  have hsafe := traffic_never_crashes sampleExternal .never
    (fun _ => .poll .workflow (lit "orders")) pollOrders _ _ (fun _ => rfl) ordersHeap_delimited
    (fun w slot _ h => by cases h) hcollect
  exact hsafe.1 () _ _ rfl (congrArg (fun r => Program.ret (TrafficAnswer.polled r)) hpanic)

end Tempura
