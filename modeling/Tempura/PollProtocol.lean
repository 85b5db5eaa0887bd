import Tempura.Base.Run
import Tempura.Routing

namespace Tempura
open Base
set_option autoImplicit true

inductive Reader (ι : Type) where
  | reading (acc : PollAcc)
  | returned (i : ι) (resp : UpstreamResponse)
  | drained (result : Outcome UpstreamResponse)

/-- The results sent so far, the part of them still in the channel, and the reader. -/
structure Polling (ι : Type) where
  sent : List (ι × PollResult) := []
  channel : List (ι × PollResult) := []
  cancelled : Bool := false
  reader : Reader ι := .reading {}

inductive PollLabel (ι : Type) where
  | answer (i : ι) (resp : Except GoString UpstreamResponse)
  | cancel (i : ι) (e : GoString)
  | read
  | close

section Protocol
variable {ι : Type} (lib : External) (kind : PollKind) (slot : ι → GoString)

namespace Polling

def send (c : Polling ι) (i : ι) (resp : Except GoString UpstreamResponse) : Polling ι :=
  { c with
    sent := c.sent ++ [(i, ⟨slot i, resp⟩)]
    channel := c.channel ++ [(i, ⟨slot i, resp⟩)] }

inductive Step : Polling ι → PollLabel ι → Polling ι → Prop
  /-- A cluster may answer at any time, also when the cancellation is on its way. -/
  | answer {c : Polling ι} {i : ι} {resp : Except GoString UpstreamResponse}
      (hi : ∀ res, (i, res) ∉ c.sent) : Step c (.answer i resp) (c.send slot i resp)
  /-- The cancellation reaches a cluster that has not answered. -/
  | cancel {c : Polling ι} {i : ι} {e : GoString} (hc : c.cancelled = true)
      (hi : ∀ res, (i, res) ∉ c.sent) : Step c (.cancel i e) (c.send slot i (.error e))
  | next {c : Polling ι} {acc acc' : PollAcc} {x : ι × PollResult} {rest : List (ι × PollResult)}
      (hr : c.reader = .reading acc) (hch : c.channel = x :: rest)
      (hx : onResult lib kind acc x.2 = .next acc') :
      Step c .read { c with channel := rest, reader := .reading acc' }
  | task {c : Polling ι} {acc : PollAcc} {x : ι × PollResult} {rest : List (ι × PollResult)}
      {resp : UpstreamResponse} {task : PollTaskQueueResponse}
      (hr : c.reader = .reading acc) (hch : c.channel = x :: rest)
      (hx : onResult lib kind acc x.2 = .done resp task) :
      Step c .read { c with channel := rest, cancelled := true, reader := .returned x.1 resp }
  /-- The channel is closed once all clusters have answered. -/
  | close {c : Polling ι} {acc : PollAcc} (hr : c.reader = .reading acc) (hch : c.channel = [])
      (hall : ∀ i, ∃ res, (i, res) ∈ c.sent) :
      Step c .close { c with reader := .drained (pollLoop lib kind acc []).1 }

def Done (c : Polling ι) : Prop := ∀ acc, c.reader ≠ .reading acc

def HandedOut (c : Polling ι) (i : ι) (resp : UpstreamResponse) : Prop :=
  ∃ res task, (i, res) ∈ c.sent ∧ res.task lib kind = some (resp, task)

/-- What the reader has seen so far, and what that says about the loop. -/
def Sound (c : Polling ι) : Prop :=
  match c.reader with
  | .reading acc => ∃ done, c.sent = done ++ c.channel ∧
      (∀ x ∈ done, x.2.task lib kind = none) ∧
      ∀ rest, pollLoop lib kind {} (done.map (·.2) ++ rest) = pollLoop lib kind acc rest
  | .returned i resp => ∃ done res task rest, c.sent = done ++ (i, res) :: rest ∧
      (∀ x ∈ done, x.2.task lib kind = none) ∧ res.task lib kind = some (resp, task)
  | .drained result => (∀ i, ∃ res, (i, res) ∈ c.sent) ∧
      (∀ x ∈ c.sent, x.2.task lib kind = none) ∧
      result = (pollLoop lib kind {} (c.sent.map (·.2))).1

end Polling
end Protocol

namespace Polling
variable {ι : Type} {lib : External} {kind : PollKind} {slot : ι → GoString}

theorem no_task_of_next (h : onResult lib kind acc res = .next acc') :
    res.task lib kind = none := by
  cases ht : res.task lib kind with
  | none => rfl
  | some t =>
    rw [onResult_of_task ht] at h
    cases h

theorem task_of_done (h : onResult lib kind acc res = .done resp task) :
    res.task lib kind = some (resp, task) := by
  cases ht : res.task lib kind with
  | none =>
    obtain ⟨acc', hacc, _⟩ := onResult_of_no_task ht acc
    rw [hacc] at h
    cases h
  | some t =>
    rw [onResult_of_task ht] at h
    cases h
    rfl

theorem Sound.send {c : Polling ι} (h : c.Sound lib kind) (i : ι)
    (resp : Except GoString UpstreamResponse) (hi : ∀ res, (i, res) ∉ c.sent) :
    (c.send slot i resp).Sound lib kind := by
  rw [Sound] at h ⊢
  cases hr : c.reader with
  | reading acc =>
    simp only [hr, Polling.send] at h ⊢
    obtain ⟨done, hsent, hnone, hloop⟩ := h
    exact ⟨done, by rw [hsent, List.append_assoc], hnone, hloop⟩
  | returned j resp' =>
    simp only [hr, Polling.send] at h ⊢
    obtain ⟨done, res, task, rest, hsent, hnone, ht⟩ := h
    exact ⟨done, res, task, rest ++ [(i, ⟨slot i, resp⟩)],
      by rw [hsent, List.append_assoc, List.cons_append], hnone, ht⟩
  | drained result =>
    simp only [hr] at h
    obtain ⟨res, hres⟩ := h.1 i
    exact absurd hres (hi res)

theorem Step.sound {c c' : Polling ι} (h : Step lib kind slot c l c') (hc : c.Sound lib kind) :
    c'.Sound lib kind := by
  cases h with
  | answer hi => exact hc.send _ _ hi
  | cancel hcancel hi => exact hc.send _ _ hi
  | @next acc acc' x rest hr hch hx =>
    simp only [Sound, hr, hch] at hc ⊢
    obtain ⟨done, hsent, hnone, hloop⟩ := hc
    refine ⟨done ++ [x], by rw [hsent, List.append_assoc, List.singleton_append], ?_, ?_⟩
    · intro y hy
      cases List.mem_append.mp hy with
      | inl hold => exact hnone y hold
      | inr hnew =>
        rw [List.mem_singleton.mp hnew]
        exact no_task_of_next hx
    · intro rest'
      rw [List.map_append, List.append_assoc, hloop, List.map_singleton, List.singleton_append,
        pollLoop, hx]
  | @task acc x rest resp task hr hch hx =>
    simp only [Sound, hr, hch] at hc ⊢
    obtain ⟨done, hsent, hnone, _⟩ := hc
    exact ⟨done, x.2, task, rest, hsent, hnone, task_of_done hx⟩
  | @close acc hr hch hall =>
    simp only [Sound, hr, hch, List.append_nil] at hc ⊢
    obtain ⟨done, hsent, hnone, hloop⟩ := hc
    refine ⟨hall, hsent ▸ hnone, ?_⟩
    have hnil := hloop []
    rw [List.append_nil] at hnil
    rw [hsent, hnil]

def Functional (c : Polling ι) : Prop :=
  ∀ i res res', (i, res) ∈ c.sent → (i, res') ∈ c.sent → res = res'

theorem Functional.send {c : Polling ι} (h : c.Functional) {i : ι}
    (resp : Except GoString UpstreamResponse) (hi : ∀ res, (i, res) ∉ c.sent) :
    (c.send slot i resp).Functional := by
  intro j res res' hres hres'
  cases List.mem_append.mp hres with
  | inl hold =>
    cases List.mem_append.mp hres' with
    | inl hold' => exact h j res res' hold hold'
    | inr hnew' =>
      cases List.mem_singleton.mp hnew'
      exact absurd hold (hi res)
  | inr hnew =>
    cases List.mem_singleton.mp hnew
    cases List.mem_append.mp hres' with
    | inl hold' => exact absurd hold' (hi res')
    | inr hnew' =>
      cases List.mem_singleton.mp hnew'
      rfl

theorem Step.functional {c c' : Polling ι} (h : Step lib kind slot c l c') (hc : c.Functional) :
    c'.Functional := by
  cases h with
  | answer hi => exact hc.send _ hi
  | cancel hcancel hi => exact hc.send _ hi
  | next hr hch hx => exact hc
  | task hr hch hx => exact hc
  | close hr hch hall => exact hc

theorem sound_of_run {c : Polling ι} (h : Run (Step lib kind slot) {} ls c) :
    c.Sound lib kind ∧ c.Functional := by
  apply h.invariant (I := fun c => c.Sound lib kind ∧ c.Functional) (P := fun _ => True) _
    (fun _ _ => trivial)
  · intro c l c' hc _ hstep
    exact ⟨hstep.sound hc.1, hstep.functional hc.2⟩
  · exact ⟨⟨[], rfl, nofun, fun rest => rfl⟩, nofun⟩

/-- The reader answers as the loop does with the results in the order sent. -/
theorem loop_of_run {c : Polling ι} (h : Run (Step lib kind slot) {} ls c) :
    (∀ i resp, c.reader = .returned i resp →
      (pollLoop lib kind {} (c.sent.map (·.2))).1 = .ok resp) ∧
    (∀ result, c.reader = .drained result →
      (pollLoop lib kind {} (c.sent.map (·.2))).1 = result) := by
  have hsound := (sound_of_run h).1
  constructor
  · intro i resp hr
    simp only [Sound, hr] at hsound
    obtain ⟨done, res, task, rest, hsent, hnone, ht⟩ := hsound
    have hdone : ∀ r ∈ done.map (·.2), r.task lib kind = none := by
      intro r hmem
      obtain ⟨x, hx, rfl⟩ := List.mem_map.mp hmem
      exact hnone x hx
    have hfirst : firstTask lib kind (c.sent.map (·.2)) = some (res, resp, task) := by
      apply firstTask_eq_some_iff.mpr
      refine ⟨done.map (·.2), rest.map (·.2), ?_, hdone, ht⟩
      rw [hsent, List.map_append, List.map_cons]
    rw [pollLoop_of_first hfirst]
  · intro result hr
    simp only [Sound, hr] at hsound
    exact hsound.2.2.symm

theorem handedOut_send_error {c : Polling ι}
    (h : (c.send slot i (.error e)).HandedOut lib kind j resp) : c.HandedOut lib kind j resp := by
  obtain ⟨res, task, hmem, ht⟩ := h
  cases List.mem_append.mp hmem with
  | inl hold => exact ⟨res, task, hold, ht⟩
  | inr hnew =>
    cases List.mem_singleton.mp hnew
    cases ht

end Polling

/-- Every task that was handed out is in the response to the worker exactly if at most one cluster
has handed one out. -/
theorem no_task_lost_iff {ι : Type} (lib : External) (kind : PollKind) (slot : ι → GoString)
    (labels : List (PollLabel ι)) (c : Polling ι)
    (hrun : Run (Polling.Step lib kind slot) {} labels c) (hdone : c.Done) :
    (∀ i resp, c.HandedOut lib kind i resp → c.reader = .returned i resp) ↔
      ∀ i j resp resp', c.HandedOut lib kind i resp → c.HandedOut lib kind j resp' → i = j := by
  obtain ⟨hsound, hfun⟩ := Polling.sound_of_run hrun
  constructor
  · intro hall i j resp resp' hi hj
    have hr := hall i resp hi
    rw [hall j resp' hj] at hr
    cases hr
    rfl
  · intro hone i resp hi
    obtain ⟨res, task, hmem, ht⟩ := hi
    cases hr : c.reader with
    | reading acc => exact absurd hr (hdone acc)
    | returned j resp' =>
      simp only [Polling.Sound, hr] at hsound
      obtain ⟨done, res', task', rest, hsent, _, ht'⟩ := hsound
      have hmem' : (j, res') ∈ c.sent := by
        rw [hsent]
        exact List.mem_append_right _ List.mem_cons_self
      cases hone i j resp resp' ⟨res, task, hmem, ht⟩ ⟨res', task', hmem', ht'⟩
      cases hfun i res res' hmem hmem'
      rw [ht] at ht'
      cases ht'
      rfl
    | drained result =>
      simp only [Polling.Sound, hr] at hsound
      rw [hsound.2.1 _ hmem] at ht
      cases ht

def pollSlot (i : Bool) : GoString := if i then orders1 else orders2

def firstAnswer : Polling Bool := ({} : Polling Bool).send pollSlot true (.ok sampleResponse)

theorem firstAnswer_step :
    Polling.Step sampleExternal .workflow pollSlot {} (.answer true (.ok sampleResponse))
      firstAnswer :=
  .answer nofun

theorem other_not_sent (res res' : PollResult) : (false, res) ∉ [(true, res')] := by
  intro h
  cases List.mem_singleton.mp h

/-- One cluster hands out a task and the other is cancelled. -/
theorem no_task_lost_iff_orders :
    ∃ labels c, Run (Polling.Step sampleExternal .workflow pollSlot) {} labels c ∧
      ∀ i resp, c.HandedOut sampleExternal .workflow i resp → c.reader = .returned i resp := by
  have hread := (Run.nil.snoc firstAnswer_step).snoc (.task rfl rfl rfl)
  have hrun := hread.snoc (.cancel (i := false) (e := lit "context canceled") rfl
    (fun res => other_not_sent res _))
  refine ⟨_, _, hrun, (no_task_lost_iff sampleExternal .workflow pollSlot _ _ hrun nofun).mpr ?_⟩
  intro i j resp resp' hi hj
  obtain ⟨res, task, hmem, _⟩ := Polling.handedOut_send_error hi
  obtain ⟨res', task', hmem', _⟩ := Polling.handedOut_send_error hj
  cases List.mem_singleton.mp hmem
  cases List.mem_singleton.mp hmem'
  rfl

def otherToken : Bytes := sampleToken ++ [40, 5]

/-- Both clusters hand out a task before the first one is read. -/
theorem second_task_lost :
    ¬ ∀ (ι : Type) (lib : External) (kind : PollKind) (slot : ι → GoString)
      (labels : List (PollLabel ι)) (c : Polling ι),
      Run (Polling.Step lib kind slot) {} labels c → c.Done →
      ∀ i resp, c.HandedOut lib kind i resp → c.reader = .returned i resp := by
  intro hall
  have hsecond : Polling.Step sampleExternal .workflow pollSlot firstAnswer
      (.answer false (.ok (taskResponse otherToken)))
      (firstAnswer.send pollSlot false (.ok (taskResponse otherToken))) :=
    .answer (fun res => other_not_sent res _)
  have hrun := ((Run.nil.snoc firstAnswer_step).snoc hsecond).snoc (.task rfl rfl rfl)
  have hlost := hall Bool sampleExternal .workflow pollSlot _ _ hrun nofun false
    (taskResponse otherToken)
    ⟨⟨orders2, .ok (taskResponse otherToken)⟩, taskOf otherToken,
      List.mem_cons_of_mem _ List.mem_cons_self, rfl⟩
  cases hlost

end Tempura
