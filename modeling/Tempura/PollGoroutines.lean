import Tempura.Base.Gather
import Tempura.PollProtocol

namespace Tempura
open Base
set_option autoImplicit true

/-- How a goroutine of a poll begins. One that has built its request calls its cluster. -/
def pollPrepare (lib : External) (kind : PollKind) (originalReq : Request)
    (reqStruct : PollTaskQueueRequest) (physNs : GoString) :
    Prepared (Except GoString UpstreamResponse) :=
  match pollCluster (lib.pollRequest kind) originalReq reqStruct physNs with
  | .ok _ => .calls
  | .err e => .ready (.error e)
  | _ => .fails

/-- The loop over the channel ends with the answer of the poll and the mapping it caches. -/
def pollNext (lib : External) (kind : PollKind) (acc : PollAcc) (res : PollResult) :
    PollAcc ⊕ Outcome UpstreamResponse × Option (GoString × GoString) :=
  match onResult lib kind acc res with
  | .next acc => .inl acc
  | .done resp task => .inr (.ok resp, taskMapping res.physNs task)

theorem onResult_of_next (h : pollNext lib kind acc res = .inl acc') :
    onResult lib kind acc res = .next acc' := by
  rw [pollNext] at h
  cases hr : onResult lib kind acc res with
  | next acc =>
    rw [hr] at h
    cases h
    rfl
  | done resp task =>
    rw [hr] at h
    cases h

theorem onResult_of_found (h : pollNext lib kind acc res = .inr (result, mapping)) :
    ∃ resp task, onResult lib kind acc res = .done resp task ∧ result = .ok resp := by
  rw [pollNext] at h
  cases hr : onResult lib kind acc res with
  | next acc =>
    rw [hr] at h
    cases h
  | done resp task =>
    rw [hr] at h
    cases h
    exact ⟨resp, task, rfl, rfl⟩

/-- A poll as work for one goroutine per slot. -/
def pollJob (lib : External) (kind : PollKind) (originalReq : Request)
    (reqStruct : PollTaskQueueRequest) (slots : List GoString) :
    Job slots.length (Except GoString UpstreamResponse) PollResult PollAcc
      (Outcome UpstreamResponse × Option (GoString × GoString)) where
  prepare i := pollPrepare lib kind originalReq reqStruct (slots.get i)
  cancelled := .error (lit "context canceled")
  result i resp := ⟨slots.get i, resp⟩
  init := {}
  next := pollNext lib kind
  finish acc := pollLoop lib kind acc []

abbrev Goroutines (slots : List GoString) :=
  FanOut slots.length (Except GoString UpstreamResponse) PollResult PollAcc
    (Outcome UpstreamResponse × Option (GoString × GoString))

section Poll
variable {lib : External} {kind : PollKind} {originalReq : Request}
  {reqStruct : PollTaskQueueRequest} {slots : List GoString}

theorem pollPrepare_fails_iff :
    pollPrepare lib kind originalReq reqStruct physNs = .fails ↔
      parsePhysicalNamespace physNs = none := by
  rw [pollPrepare, pollCluster]
  cases parsePhysicalNamespace physNs with
  | none => exact iff_of_true rfl rfl
  | some ns =>
    dsimp only
    refine iff_of_false ?_ (Option.some_ne_none ns)
    cases (lib.pollRequest kind).marshal { reqStruct with ns := ns.name } with
    | error e => exact fun h => by cases h
    | ok newPbPayload => exact fun h => by cases h

end Poll

/-- How the poll ends: the panic of a goroutine ends the process. -/
def Goroutines.outcome (f : Goroutines slots) : Outcome UpstreamResponse :=
  if f.crashed then .panic
  else
    match f.collector with
    | .returned (result, _) => result
    | _ => .hang

def Goroutines.mapping (f : Goroutines slots) : Option (GoString × GoString) :=
  match f.collector with
  | .returned (_, mapping) => mapping
  | _ => none

def pollTwoJob : Job 2 (Except GoString UpstreamResponse) PollResult PollAcc
    (Outcome UpstreamResponse × Option (GoString × GoString)) :=
  pollJob sampleExternal .workflow sampleHttp ⟨lit "orders", []⟩ [orders2, orders1]

theorem pollTwo_run : ∃ turns, ∃ f : Goroutines [orders2, orders1],
    Run (FanOut.Step pollTwoJob) {} turns f ∧ f.Ended ∧ f.outcome = .ok sampleResponse ∧
      f.sent = [(1, .ok sampleResponse), (0, .error (lit "context canceled"))] := by
  have hadd : Run (FanOut.Step pollTwoJob) {} _ _ :=
    .snoc .nil ⟨rfl, .add (k := 0) rfl (by decide) rfl⟩
  have hstart := hadd.snoc ⟨rfl, .start (k := 0) rfl (by decide)⟩
  have hadd' := hstart.snoc ⟨rfl, .add (k := 1) rfl (by decide) rfl⟩
  have hcall := hadd'.snoc ⟨rfl, .call (i := 0) rfl rfl⟩
  have hstart' := hcall.snoc ⟨rfl, .start (k := 1) rfl (by decide)⟩
  have hwatch := hstart'.snoc ⟨rfl, .watch rfl⟩
  have hcall' := hwatch.snoc ⟨rfl, .call (i := 1) rfl rfl⟩
  have hanswer := hcall'.snoc ⟨rfl, .answer (i := 1) (a := .ok sampleResponse) rfl⟩
  have hsend := hanswer.snoc ⟨rfl, .send (i := 1) rfl rfl⟩
  have hfound := hsend.snoc ⟨rfl, .found rfl rfl rfl⟩
  have hcancel := hfound.snoc ⟨rfl, .cancel (i := 0) rfl rfl⟩
  have hsend' := hcancel.snoc ⟨rfl, .send (i := 0) rfl rfl⟩
  have hdone := (hsend'.snoc ⟨rfl, .done (i := 1) rfl rfl⟩).snoc ⟨rfl, .done (i := 0) rfl rfl⟩
  have hclose := (hdone.snoc ⟨rfl, .waited rfl rfl⟩).snoc ⟨rfl, .close rfl rfl⟩
  refine ⟨_, _, hclose, ⟨⟨_, rfl⟩, ?_, rfl⟩, rfl, rfl⟩
  intro i
  match i with
  | 0 => rfl
  | 1 => rfl

/-- The process crashes only over a slot that does not parse, and no goroutine waits to send. -/
theorem poll_goroutines_safe (lib : External) (kind : PollKind) (originalReq : Request)
    (reqStruct : PollTaskQueueRequest) (slots : List GoString)
    (turns : List (FanOut.Turn slots.length (Except GoString UpstreamResponse)))
    (f : Goroutines slots)
    (hrun : Run (FanOut.Step (pollJob lib kind originalReq reqStruct slots)) {} turns f) :
    (f.crashed = true → ∃ slot ∈ slots, parsePhysicalNamespace slot = none) ∧
    (∀ turn, f.Faults (pollJob lib kind originalReq reqStruct slots) turn → ∃ i,
      turn = .worker i ∧ f.worker i = .started ∧
        parsePhysicalNamespace (slots.get i) = none) ∧
    (∀ i resp, f.worker i = .sending resp →
      ∃ ch, f.channel.send ⟨slots.get i, resp⟩ = .ok ch) ∧
    (f.channel.closed = true → ∀ i, f.worker i = .finished) ∧
    (f.closer = .closing → f.channel.closed = false) ∧ 0 ≤ f.group.counter ∧
    ∀ i, f.worker i = .finishing → 0 < f.group.counter := by
  obtain ⟨hsound, hist⟩ := FanOut.sound_of_run hrun
  refine ⟨?_, ?_, ?_, ?_, ?_, ?_, ?_⟩
  · intro hcrash
    obtain ⟨i, hi⟩ := hsound.crashed hcrash
    exact ⟨slots.get i, List.get_mem slots i, pollPrepare_fails_iff.mp hi⟩
  · intro turn hfaults
    obtain ⟨i, hturn, hw, hi⟩ := hfaults.prepares hsound
    exact ⟨i, hturn, hw, pollPrepare_fails_iff.mp hi⟩
  · intro i resp hw
    have hopen := hsound.not_closed (i := i) (by rw [hw]; rfl)
    have hroom := (hist.room (i := i) (by rw [hw]; exact id)).trans_eq hsound.capacity.symm
    exact ⟨_, Chan.send_eq_ok_iff.mpr ⟨hopen, hroom, rfl⟩⟩
  · intro hclosed
    exact hsound.shut.waited (.inr (hsound.shut.closed.mp hclosed))
  · intro hclosing
    rw [← Bool.not_eq_true, hsound.shut.closed, hclosing]
    nofun
  · have hcounter := hsound.counted.counter
    omega
  · intro i hw
    exact hsound.counted.pos (i := i) (by rw [hw]; rfl)

theorem poll_goroutines_safe_orders : ∃ turns, ∃ f : Goroutines [orders2, orders1],
    Run (FanOut.Step pollTwoJob) {} turns f ∧ f.Ended ∧ f.crashed = false := by
  obtain ⟨turns, f, hrun, hended, -⟩ := pollTwo_run
  refine ⟨turns, f, hrun, hended, ?_⟩
  rw [← Bool.not_eq_true]
  intro hcrash
  obtain ⟨slot, hslot, hnone⟩ :=
    (poll_goroutines_safe _ _ _ _ [orders2, orders1] turns f hrun).1 hcrash
  rcases List.mem_pair.mp hslot with rfl | rfl
  · exact absurd hnone (by decide)
  · exact absurd hnone (by decide)

/-- A poll over `n` slots takes at most `7 * n + 4` steps. Until all goroutines have ended one can
go on, and once the handler has returned no cluster has to answer for that. -/
theorem poll_goroutines_end (lib : External) (kind : PollKind) (originalReq : Request)
    (reqStruct : PollTaskQueueRequest) (slots : List GoString)
    (turns : List (FanOut.Turn slots.length (Except GoString UpstreamResponse)))
    (f : Goroutines slots)
    (hrun : Run (FanOut.Step (pollJob lib kind originalReq reqStruct slots)) {} turns f) :
    turns.length ≤ 7 * slots.length + 4 ∧
    (f.crashed = false → ¬ f.Ended → ∃ turn f',
      FanOut.Step (pollJob lib kind originalReq reqStruct slots) f turn f' ∧
        ((∃ result, f.collector = .returned result) → ∀ i resp, turn ≠ .answer i resp)) := by
  obtain ⟨hsound, hist⟩ := FanOut.sound_of_run hrun
  constructor
  · have hlen := FanOut.length_le_of_run hrun
    omega
  · intro hlive hne
    obtain ⟨turn, f', hact, hquiet⟩ := hsound.progress hist hne
    exact ⟨turn, f', ⟨hlive, hact⟩, fun hr => hquiet (hsound.shut.cancelled.mpr hr)⟩

theorem poll_goroutines_end_orders : ∃ turns, ∃ f : Goroutines [orders2, orders1],
    Run (FanOut.Step pollTwoJob) {} turns f ∧ f.Ended ∧ turns.length ≤ 18 := by
  obtain ⟨turns, f, hrun, hended, -⟩ := pollTwo_run
  exact ⟨turns, f, hrun, hended,
    (poll_goroutines_end _ _ _ _ [orders2, orders1] turns f hrun).1⟩

section Agree
variable {lib : External} {kind : PollKind} {originalReq : Request}
  {reqStruct : PollTaskQueueRequest} {slots : List GoString} {f : Goroutines slots}
  {sent : List (Fin slots.length × Except GoString UpstreamResponse)}

end Agree

/-- What a turn of the goroutines is in the protocol, if anything. -/
def Goroutines.label? (f : Goroutines slots) :
    FanOut.Turn slots.length (Except GoString UpstreamResponse) →
      Option (PollLabel (Fin slots.length))
  | .worker i =>
    match f.worker i with
    | .sending resp => some (.answer i resp)
    | _ => none
  | .collector =>
    match f.collector with
    | .reading _ => if f.channel.buffer = [] then some .close else some .read
    | _ => none
  | .closer => none
  | .answer _ _ => none

/-- The protocol knows of the goroutines what has been sent and what the handler has made of it. -/
structure Goroutines.Abstracts (f : Goroutines slots) (c : Polling (Fin slots.length)) : Prop where
  channel : c.channel.map (·.2) = f.channel.buffer
  sent : c.sent = f.sent.map (fun x => (x.1, ⟨slots.get x.1, x.2⟩))
  reader :
    match f.collector with
    | .reading acc => c.reader = .reading acc
    | .returned (result, _) =>
      c.reader = .drained result ∨ ∃ i resp, result = .ok resp ∧ c.reader = .returned i resp
    | _ => c.reader = .reading {}

section Refine
variable {lib : External} {kind : PollKind} {originalReq : Request}
  {reqStruct : PollTaskQueueRequest} {slots : List GoString} {f f' : Goroutines slots}
  {c : Polling (Fin slots.length)}

theorem Goroutines.label_worker (hw : f.worker i = w) (hne : ∀ resp, w ≠ .sending resp) :
    f.label? (.worker i) = none := by
  subst hw
  rw [label?]
  cases hw : f.worker i with
  | sending resp => exact absurd hw (hne resp)
  | _ => rfl

theorem Goroutines.label_collector (hc : f.collector = w) (hne : ∀ acc, w ≠ .reading acc) :
    f.label? .collector = none := by
  subst hc
  rw [label?]
  cases hc : f.collector with
  | reading acc => exact absurd hc (hne acc)
  | _ => rfl

theorem Goroutines.label_read (hc : f.collector = .reading acc)
    (hbuffer : f.channel.buffer = b :: rest) : f.label? .collector = some .read := by
  rw [label?, hc]
  exact if_neg (by rw [hbuffer]; exact List.cons_ne_nil b rest)

theorem Goroutines.Abstracts.mem_sent (h : f.Abstracts c)
    (hist : FanOut.History (pollJob lib kind originalReq reqStruct slots) f)
    (i : Fin slots.length) : (∃ res, (i, res) ∈ c.sent) ↔ (f.worker i).Sent := by
  rw [← hist.mem i, h.sent]
  constructor
  · rintro ⟨res, hres⟩
    obtain ⟨x, hx, heq⟩ := List.mem_map.mp hres
    cases heq
    exact List.mem_map_of_mem hx
  · intro hmem
    obtain ⟨x, hx, rfl⟩ := List.mem_map.mp hmem
    exact ⟨_, List.mem_map_of_mem hx⟩

theorem Goroutines.Abstracts.send (h : f.Abstracts c) (i : Fin slots.length)
    (resp : Except GoString UpstreamResponse) :
    Goroutines.Abstracts
      { f with
        worker := Function.update f.worker i .finishing
        channel := { f.channel with buffer := f.channel.buffer ++ [⟨slots.get i, resp⟩] }
        sent := f.sent ++ [(i, resp)] } (c.send slots.get i resp) where
  channel := by
    rw [Polling.send, List.map_append, h.channel]
    rfl
  sent := by
    rw [Polling.send, List.map_append, h.sent]
    rfl
  reader := h.reader

/-- A turn that has a label is a step of the protocol with that label, and any other is none. -/
theorem Goroutines.Abstracts.act
    (hsound : f.Sound (pollJob lib kind originalReq reqStruct slots))
    (hist : FanOut.History (pollJob lib kind originalReq reqStruct slots) f) (h : f.Abstracts c)
    (hact : FanOut.Act (pollJob lib kind originalReq reqStruct slots) f turn f') :
    (f.label? turn = none ∧ f'.Abstracts c) ∨ ∃ label c', f.label? turn = some label ∧
      Polling.Step lib kind slots.get c label c' ∧ f'.Abstracts c' := by
  have hreader := h.reader
  cases hact with
  | add hc hk hg =>
    rw [hc] at hreader
    exact .inl ⟨label_collector hc nofun, h.channel, h.sent, hreader⟩
  | start hc hk =>
    rw [hc] at hreader
    exact .inl ⟨label_collector hc nofun, h.channel, h.sent, hreader⟩
  | watch hc =>
    rw [hc] at hreader
    exact .inl ⟨label_collector hc nofun, h.channel, h.sent, hreader⟩
  | next hc hr hb =>
    obtain ⟨rest, hbuffer, rfl⟩ := Chan.receive_eq_item_iff.mp hr
    rw [hc] at hreader
    obtain ⟨x, later, hch, rfl, rfl⟩ := List.map_eq_cons_iff.mp (h.channel.trans hbuffer)
    exact .inr ⟨_, _, label_read hc hbuffer, .next hreader hch (onResult_of_next hb), rfl, h.sent,
      rfl⟩
  | found hc hr hb =>
    obtain ⟨rest, hbuffer, rfl⟩ := Chan.receive_eq_item_iff.mp hr
    rw [hc] at hreader
    obtain ⟨x, later, hch, rfl, rfl⟩ := List.map_eq_cons_iff.mp (h.channel.trans hbuffer)
    obtain ⟨resp, task, hdone, hresult⟩ := onResult_of_found hb
    exact .inr ⟨_, _, label_read hc hbuffer, .task hreader hch hdone, rfl, h.sent,
      .inr ⟨x.1, resp, hresult, rfl⟩⟩
  | drained hc hr =>
    obtain ⟨hbuffer, hclosed⟩ := Chan.receive_eq_ended_iff.mp hr
    rw [hc] at hreader
    have hall : ∀ i, ∃ res, (i, res) ∈ c.sent := by
      intro i
      rw [h.mem_sent hist i, hsound.shut.waited (.inr (hsound.shut.closed.mp hclosed)) i]
      trivial
    have hnil := List.map_eq_nil_iff.mp (h.channel.trans hbuffer)
    refine .inr ⟨_, _, ?_, .close hreader hnil hall, h.channel, h.sent, .inl rfl⟩
    rw [label?, hc]
    exact if_pos hbuffer
  | ready hw hp => exact .inl ⟨label_worker hw nofun, h.channel, h.sent, hreader⟩
  | call hw hp => exact .inl ⟨label_worker hw nofun, h.channel, h.sent, hreader⟩
  | cancel hw hc => exact .inl ⟨label_worker hw nofun, h.channel, h.sent, hreader⟩
  | answer hw => exact .inl ⟨rfl, h.channel, h.sent, hreader⟩
  | @send i resp ch f hw hs =>
    obtain ⟨-, -, rfl⟩ := Chan.send_eq_ok_iff.mp hs
    refine .inr ⟨_, _, by rw [label?, hw], .answer (fun res hres => ?_), h.send i resp⟩
    have hsent := (h.mem_sent hist i).mp ⟨res, hres⟩
    rw [hw] at hsent
    exact hsent
  | done hw hg => exact .inl ⟨label_worker hw nofun, h.channel, h.sent, hreader⟩
  | waited hc hg => exact .inl ⟨rfl, h.channel, h.sent, hreader⟩
  | close hc hs =>
    obtain ⟨-, rfl⟩ := Chan.close_eq_ok_iff.mp hs
    exact .inl ⟨rfl, h.channel, h.sent, hreader⟩
  | crash hf =>
    obtain ⟨i, rfl, hw, -⟩ := hf.prepares hsound
    exact .inl ⟨label_worker hw nofun, h.channel, h.sent, hreader⟩

theorem Goroutines.abstracts_start : Goroutines.Abstracts ({} : Goroutines slots) {} :=
  ⟨rfl, rfl, rfl⟩

theorem Goroutines.abstracts_of_run
    (hrun : Run (FanOut.Step (pollJob lib kind originalReq reqStruct slots)) {} turns f) :
    ∃ labels c, Run (Polling.Step lib kind slots.get) {} labels c ∧ f.Abstracts c := by
  induction hrun with
  | nil => exact ⟨[], {}, .nil, abstracts_start⟩
  | snoc hr hstep ih =>
    obtain ⟨labels, c, hrun, habs⟩ := ih
    obtain ⟨hsound, hist⟩ := FanOut.sound_of_run hr
    obtain ⟨-, hsame⟩ | ⟨label, c', -, hstep', habs'⟩ := habs.act hsound hist hstep.act
    · exact ⟨labels, c, hrun, hsame⟩
    · exact ⟨_, c', hrun.snoc hstep', habs'⟩

end Refine

/-- Every step of the goroutines is the step of the protocol that its label says, or none. -/
theorem poll_goroutines_refine (lib : External) (kind : PollKind) (originalReq : Request)
    (reqStruct : PollTaskQueueRequest) (slots : List GoString) :
    Goroutines.Abstracts ({} : Goroutines slots) {} ∧
    ∀ turns (f : Goroutines slots),
      Run (FanOut.Step (pollJob lib kind originalReq reqStruct slots)) {} turns f →
      (∃ labels c, Run (Polling.Step lib kind slots.get) {} labels c ∧ f.Abstracts c) ∧
      ∀ c turn (f' : Goroutines slots), f.Abstracts c →
        FanOut.Step (pollJob lib kind originalReq reqStruct slots) f turn f' →
        match f.label? turn with
        | none => f'.Abstracts c
        | some label => ∃ c', Polling.Step lib kind slots.get c label c' ∧ f'.Abstracts c' := by
  refine ⟨Goroutines.abstracts_start, fun turns f hrun => ?_⟩
  obtain ⟨hsound, hist⟩ := FanOut.sound_of_run hrun
  refine ⟨Goroutines.abstracts_of_run hrun, fun c turn f' habs hstep => ?_⟩
  obtain ⟨hlabel, hsame⟩ | ⟨label, c', hlabel, hstep', habs'⟩ := habs.act hsound hist hstep.act
  · rw [hlabel]
    exact hsame
  · rw [hlabel]
    exact ⟨c', hstep', habs'⟩

theorem poll_goroutines_refine_orders : ∃ labels c,
    Run (Polling.Step sampleExternal .workflow [orders2, orders1].get) {} labels c ∧
      c.sent = [(1, ⟨orders1, .ok sampleResponse⟩),
        (0, ⟨orders2, .error (lit "context canceled")⟩)] := by
  obtain ⟨turns, f, hrun, -, -, hsent⟩ := pollTwo_run
  obtain ⟨labels, c, hrun', habs⟩ := ((poll_goroutines_refine sampleExternal .workflow sampleHttp
    ⟨lit "orders", []⟩ [orders2, orders1]).2 turns f hrun).1
  refine ⟨labels, c, hrun', ?_⟩
  rw [habs.sent, hsent]
  rfl

end Tempura
