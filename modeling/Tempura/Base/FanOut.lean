import Mathlib.Algebra.BigOperators.Fin
import Mathlib.Algebra.Order.BigOperators.Group.Finset
import Mathlib.Data.Fintype.BigOperators
import Tempura.Base.Channel
import Tempura.Base.Run

namespace Base
set_option autoImplicit true

/-- How a worker begins: it panics, has its answer at once, or calls somebody for it. -/
inductive Prepared (α : Type) where
  | fails
  | ready (a : α)
  | calls

/-- Work for `n` workers, whose results a collector reads in the order in which they come. -/
structure Job (n : Nat) (α β A R : Type) where
  prepare : Fin n → Prepared α
  /-- The answer of a call that is given up. -/
  cancelled : α
  result : Fin n → α → β
  init : A
  next : A → β → A ⊕ R
  finish : A → R

def Job.gather (job : Job n α β A R) (acc : A) : List β → R
  | [] => job.finish acc
  | b :: rest =>
    match job.next acc b with
    | .inl acc => job.gather acc rest
    | .inr r => r

inductive Worker (α : Type) where
  | absent
  | started
  | calling
  | sending (a : α)
  | finishing
  | finished

/-- The collector starts the workers one by one, then the closing goroutine, and reads. -/
inductive Collector (A R : Type) where
  | adding (k : Nat)
  | starting (k : Nat)
  | reading (acc : A)
  | returned (r : R)

inductive Closer where
  | absent
  | waiting
  | closing
  | finished

structure FanOut (n : Nat) (α β A R : Type) where
  collector : Collector A R := .adding 0
  worker : Fin n → Worker α := fun _ => .absent
  closer : Closer := .absent
  channel : Chan β := { capacity := n }
  group : WaitGroup := {}
  cancelled : Bool := false
  crashed : Bool := false
  /-- What the workers have sent so far, in order. Nobody reads it. -/
  sent : List (Fin n × α) := []

namespace FanOut

inductive Turn (n : Nat) (α : Type) where
  | collector
  | worker (i : Fin n)
  | closer
  | answer (i : Fin n) (a : α)

section Steps
variable {n : Nat} {α β A R : Type} (job : Job n α β A R)

/-- The goroutine whose turn it is panics, and with it the process. -/
inductive Faults (f : FanOut n α β A R) : Turn n α → Prop
  | add (hc : f.collector = .adding k) (hk : k < n) (hg : f.group.add 1 = .panics) :
      Faults f .collector
  | prepare (hw : f.worker i = .started) (hp : job.prepare i = .fails) : Faults f (.worker i)
  | send (hw : f.worker i = .sending a) (hs : f.channel.send (job.result i a) = .panics) :
      Faults f (.worker i)
  | done (hw : f.worker i = .finishing) (hg : f.group.add (-1) = .panics) : Faults f (.worker i)
  | close (hc : f.closer = .closing) (hs : f.channel.close = .panics) : Faults f .closer

inductive Act : FanOut n α β A R → Turn n α → FanOut n α β A R → Prop
  | add {f : FanOut n α β A R} (hc : f.collector = .adding k) (hk : k < n)
      (hg : f.group.add 1 = .ok g) :
      Act f .collector { f with group := g, collector := .starting k }
  | start {f : FanOut n α β A R} (hc : f.collector = .starting k) (hk : k < n) :
      Act f .collector { f with
        worker := Function.update f.worker ⟨k, hk⟩ .started, collector := .adding (k + 1) }
  | watch {f : FanOut n α β A R} (hc : f.collector = .adding n) :
      Act f .collector { f with closer := .waiting, collector := .reading job.init }
  | next {f : FanOut n α β A R} (hc : f.collector = .reading acc)
      (hr : f.channel.receive = .item b ch) (hb : job.next acc b = .inl acc') :
      Act f .collector { f with channel := ch, collector := .reading acc' }
  /-- Returning cancels the calls that are still out. -/
  | found {f : FanOut n α β A R} (hc : f.collector = .reading acc)
      (hr : f.channel.receive = .item b ch) (hb : job.next acc b = .inr r) :
      Act f .collector { f with channel := ch, cancelled := true, collector := .returned r }
  | drained {f : FanOut n α β A R} (hc : f.collector = .reading acc)
      (hr : f.channel.receive = .ended) :
      Act f .collector { f with cancelled := true, collector := .returned (job.finish acc) }
  | ready {f : FanOut n α β A R} (hw : f.worker i = .started) (hp : job.prepare i = .ready a) :
      Act f (.worker i) { f with worker := Function.update f.worker i (.sending a) }
  | call {f : FanOut n α β A R} (hw : f.worker i = .started) (hp : job.prepare i = .calls) :
      Act f (.worker i) { f with worker := Function.update f.worker i .calling }
  | cancel {f : FanOut n α β A R} (hw : f.worker i = .calling) (hc : f.cancelled = true) :
      Act f (.worker i) { f with worker := Function.update f.worker i (.sending job.cancelled) }
  | answer {f : FanOut n α β A R} (hw : f.worker i = .calling) :
      Act f (.answer i a) { f with worker := Function.update f.worker i (.sending a) }
  | send {f : FanOut n α β A R} (hw : f.worker i = .sending a)
      (hs : f.channel.send (job.result i a) = .ok ch) :
      Act f (.worker i) { f with
        worker := Function.update f.worker i .finishing, channel := ch
        sent := f.sent ++ [(i, a)] }
  | done {f : FanOut n α β A R} (hw : f.worker i = .finishing)
      (hg : f.group.add (-1) = .ok g) :
      Act f (.worker i) { f with worker := Function.update f.worker i .finished, group := g }
  | waited {f : FanOut n α β A R} (hc : f.closer = .waiting) (hg : f.group.counter = 0) :
      Act f .closer { f with closer := .closing }
  | close {f : FanOut n α β A R} (hc : f.closer = .closing) (hs : f.channel.close = .ok ch) :
      Act f .closer { f with closer := .finished, channel := ch }
  | crash {f : FanOut n α β A R} (hf : f.Faults job t) : Act f t { f with crashed := true }

/-- A process that has crashed does nothing more. -/
structure Step (f : FanOut n α β A R) (t : Turn n α) (f' : FanOut n α β A R) : Prop where
  live : f.crashed = false
  act : Act job f t f'

end Steps
end FanOut

theorem sum_update {ι σ : Type} [Fintype ι] [DecidableEq ι] (g : σ → Nat) (s : ι → σ) (i : ι)
    (t : σ) : ∑ j, g (Function.update s i t j) + g (s i) = ∑ j, g (s j) + g t := by
  rw [← Finset.add_sum_erase _ _ (Finset.mem_univ i), Function.update_self,
    ← Finset.add_sum_erase (f := fun j => g (s j)) _ (Finset.mem_univ i)]
  have h : ∑ j ∈ Finset.univ.erase i, g (Function.update s i t j) =
      ∑ j ∈ Finset.univ.erase i, g (s j) := by
    apply Finset.sum_congr rfl
    intro j hj
    rw [Function.update_of_ne (Finset.ne_of_mem_erase hj)]
  rw [h]
  omega

namespace Worker

def active : Worker α → Nat
  | .absent => 0
  | .finished => 0
  | _ => 1

theorem ne_of_active {w : Worker α} (h : w.active = 1) : w ≠ .absent ∧ w ≠ .finished := by
  constructor <;> rintro rfl <;> cases h

def Sent : Worker α → Prop
  | .finishing => True
  | .finished => True
  | _ => False

theorem sent_update {ι : Type} [DecidableEq ι] {w : ι → Worker α} {x : Worker α} {i : ι}
    (hx : x.Sent ↔ (w i).Sent) (j : ι) : (Function.update w i x j).Sent ↔ (w j).Sent := by
  by_cases hj : j = i
  · subst hj
    rw [Function.update_self, hx]
  · rw [Function.update_of_ne hj]

end Worker

namespace Collector

def started (n : Nat) : Collector A R → Nat
  | .adding k => k
  | .starting k => k
  | _ => n

def pending : Collector A R → Nat
  | .starting _ => 1
  | _ => 0

def Ready : Collector A R → Prop
  | .reading _ => True
  | .returned _ => True
  | _ => False

end Collector

namespace FanOut
variable {n : Nat} {α β A R : Type} {job : Job n α β A R} {c c' : Collector A R}
  {w w' : Fin n → Worker α} {g g' : WaitGroup} {closer : Closer} {closed cancelled : Bool}

/-- The wait group counts the workers that are there, and the one that is about to be started. -/
structure Counted (c : Collector A R) (w : Fin n → Worker α) (g : WaitGroup) : Prop where
  bound : c.started n + c.pending ≤ n
  started : ∀ i, w i = .absent ↔ c.started n ≤ i
  counter : g.counter = ∑ i, (w i).active + c.pending

theorem Counted.advance (h : Counted c w g) (hs : c'.started n = c.started n)
    (hp : c'.pending = c.pending) : Counted c' w g where
  bound := by
    rw [hs, hp]
    exact h.bound
  started := by
    rw [hs]
    exact h.started
  counter := by
    rw [hp]
    exact h.counter

theorem Counted.add (h : Counted (.adding k : Collector A R) w g) (hk : k < n) :
    Counted (.starting k : Collector A R) w ⟨g.counter + 1⟩ where
  bound := hk
  started := h.started
  counter := by
    rw [h.counter]
    rfl

theorem Counted.start (h : Counted (.starting k : Collector A R) w g) (hk : k < n) :
    Counted (.adding (k + 1) : Collector A R) (Function.update w ⟨k, hk⟩ .started) g where
  bound := hk
  started i := by
    by_cases hi : i = ⟨k, hk⟩
    · subst hi
      rw [Function.update_self]
      exact iff_of_false nofun (Nat.not_succ_le_self k)
    · rw [Function.update_of_ne hi, h.started i]
      have hne : (i : Nat) ≠ k := fun heq => hi (Fin.ext heq)
      simp only [Collector.started]
      omega
  counter := by
    have hsum := sum_update Worker.active w ⟨k, hk⟩ .started
    rw [(h.started ⟨k, hk⟩).mpr (Nat.le_refl k)] at hsum
    rw [h.counter]
    simp only [Worker.active, Collector.pending] at hsum ⊢
    omega

theorem Counted.move (h : Counted c w g) {i : Fin n} (hi : (w i).active = 1) (hx : x ≠ .absent)
    (hg : g'.counter + 1 = g.counter + x.active) : Counted c (Function.update w i x) g' where
  bound := h.bound
  started j := by
    by_cases hj : j = i
    · subst hj
      rw [Function.update_self, ← h.started j]
      exact iff_of_false hx (Worker.ne_of_active hi).1
    · rw [Function.update_of_ne hj, h.started j]
  counter := by
    have hsum := sum_update Worker.active w i x
    have hcounter := h.counter
    omega

theorem Counted.pos (h : Counted c w g) {i : Fin n} (hi : (w i).active = 1) : 0 < g.counter := by
  have hle := Finset.single_le_sum (f := fun i => (w i).active)
    (fun j _ => Nat.zero_le _) (Finset.mem_univ i)
  have hcounter := h.counter
  omega

theorem Counted.finished (h : Counted c w g) (hc : c.Ready) (hg : g.counter = 0) (i : Fin n) :
    w i = .finished := by
  have hpresent : w i ≠ .absent := by
    rw [Ne, h.started i, Nat.not_le]
    cases c with
    | adding k => exact hc.elim
    | starting k => exact hc.elim
    | reading acc => exact i.isLt
    | returned r => exact i.isLt
  by_contra hne
  have hactive : (w i).active = 1 := by
    cases hw : w i with
    | absent => exact absurd hw hpresent
    | finished => exact absurd hw hne
    | _ => rfl
  have hpos := h.pos hactive
  omega

/-- When the channel is closed and the calls are cancelled. -/
structure Shut (c : Collector A R) (w : Fin n → Worker α) (closer : Closer)
    (closed cancelled : Bool) : Prop where
  ready : closer ≠ .absent ↔ c.Ready
  waited : closer = .closing ∨ closer = .finished → ∀ i, w i = .finished
  closed : closed = true ↔ closer = .finished
  cancelled : cancelled = true ↔ ∃ r, c = .returned r

theorem Shut.move (h : Shut c w closer closed cancelled) {i : Fin n} (hi : w i ≠ .finished) :
    Shut c (Function.update w i x) closer closed cancelled where
  ready := h.ready
  waited hc := absurd (h.waited hc i) hi
  closed := h.closed
  cancelled := h.cancelled

theorem Shut.of_not_ready (h : Shut c w closer closed cancelled) (hc : ¬ c.Ready) :
    closer = .absent ∧ closed = false ∧ cancelled = false := by
  have habsent : closer = .absent := by
    by_contra hne
    exact hc (h.ready.mp hne)
  refine ⟨habsent, ?_, ?_⟩
  · rw [← Bool.not_eq_true, h.closed, habsent]
    nofun
  · rw [← Bool.not_eq_true, h.cancelled]
    rintro ⟨r, rfl⟩
    exact hc trivial

theorem Shut.spawn (h : Shut c w closer closed cancelled) (hc : ¬ c.Ready) (hc' : ¬ c'.Ready) :
    Shut c' w' closer closed cancelled := by
  obtain ⟨rfl, rfl, rfl⟩ := h.of_not_ready hc
  refine ⟨iff_of_false (fun hne => hne rfl) hc', nofun, iff_of_false nofun nofun, ?_⟩
  apply iff_of_false nofun
  rintro ⟨r, rfl⟩
  exact hc' trivial

theorem Shut.watch (h : Shut c w closer closed cancelled) (hc : ¬ c.Ready) :
    Shut (.reading acc : Collector A R) w .waiting closed cancelled := by
  obtain ⟨-, rfl, rfl⟩ := h.of_not_ready hc
  exact ⟨iff_of_true nofun trivial, nofun, iff_of_false nofun nofun, iff_of_false nofun nofun⟩

theorem Shut.next (h : Shut (.reading acc : Collector A R) w closer closed cancelled) (acc' : A) :
    Shut (.reading acc' : Collector A R) w closer closed cancelled where
  ready := h.ready
  waited := h.waited
  closed := h.closed
  cancelled := h.cancelled.trans (iff_of_false nofun nofun)

theorem Shut.finish (h : Shut (.reading acc : Collector A R) w closer closed cancelled) (r : R) :
    Shut (.returned r : Collector A R) w closer closed true where
  ready := h.ready
  waited := h.waited
  closed := h.closed
  cancelled := iff_of_true rfl ⟨r, rfl⟩

def Begun (job : Job n α β A R) (w : Fin n → Worker α) : Prop :=
  ∀ i, job.prepare i = .fails → w i = .absent ∨ w i = .started

theorem Begun.move (h : Begun job w) {i : Fin n}
    (hi : (x = .absent ∨ x = .started) ∨ job.prepare i ≠ .fails) :
    Begun job (Function.update w i x) := by
  intro j hj
  by_cases hji : j = i
  · subst hji
    rw [Function.update_self]
    exact hi.resolve_right (fun hne => hne hj)
  · rw [Function.update_of_ne hji]
    exact h j hj

theorem Begun.not_fails (h : Begun job w) (hw : w i = x) (ha : x ≠ .absent) (hs : x ≠ .started) :
    job.prepare i ≠ .fails := by
  intro hf
  cases h i hf with
  | inl habsent => exact ha (hw.symm.trans habsent)
  | inr hstarted => exact hs (hw.symm.trans hstarted)

structure Sound (job : Job n α β A R) (f : FanOut n α β A R) : Prop where
  counted : Counted f.collector f.worker f.group
  capacity : f.channel.capacity = n
  shut : Shut f.collector f.worker f.closer f.channel.closed f.cancelled
  begun : Begun job f.worker
  crashed : f.crashed = true → ∃ i, job.prepare i = .fails

theorem sound_start (job : Job n α β A R) : Sound job {} where
  counted := ⟨Nat.zero_le n, fun i => iff_of_true rfl (Nat.zero_le i), by
    simp [Worker.active, Collector.pending]⟩
  capacity := rfl
  shut := ⟨iff_of_false (fun h => h rfl) id, nofun, iff_of_false nofun nofun,
    iff_of_false nofun nofun⟩
  begun _ _ := .inl rfl
  crashed := nofun

theorem Sound.move {f : FanOut n α β A R} (h : f.Sound job) {i : Fin n}
    (hi : (f.worker i).active = 1) (hx : x.active = 1) (hbegun : job.prepare i ≠ .fails)
    {ch : Chan β} {sent : List (Fin n × α)} (hcap : ch.capacity = f.channel.capacity)
    (hclosed : ch.closed = f.channel.closed) :
    ({ f with worker := Function.update f.worker i x, channel := ch, sent := sent } :
      FanOut n α β A R).Sound job where
  counted := h.counted.move hi (Worker.ne_of_active hx).1 (by rw [hx]; rfl)
  capacity := hcap.trans h.capacity
  shut := by
    rw [hclosed]
    exact h.shut.move (Worker.ne_of_active hi).2
  begun := h.begun.move (.inr hbegun)
  crashed := h.crashed

theorem Sound.absent_of_starting {f : FanOut n α β A R} (h : f.Sound job)
    (hc : f.collector = .starting k) (hk : k < n) : f.worker ⟨k, hk⟩ = .absent := by
  apply (h.counted.started _).mpr
  rw [hc]
  exact Nat.le_refl k

theorem Sound.not_closed {f : FanOut n α β A R} (h : f.Sound job) {i : Fin n}
    (hi : (f.worker i).active = 1) : f.channel.closed = false := by
  rw [← Bool.not_eq_true, h.shut.closed]
  intro hc
  exact (Worker.ne_of_active hi).2 (h.shut.waited (.inr hc) i)

/-- Only a worker that fails at its beginning makes the process crash. -/
theorem Faults.prepares {f : FanOut n α β A R} (h : f.Sound job) (hf : f.Faults job t) :
    ∃ i, t = .worker i ∧ f.worker i = .started ∧ job.prepare i = .fails := by
  cases hf with
  | add hc hk hg =>
    have hneg := WaitGroup.add_eq_panics_iff.mp hg
    have hcounter := h.counted.counter
    omega
  | prepare hw hp => exact ⟨_, rfl, hw, hp⟩
  | send hw hs =>
    have hopen := h.not_closed (by rw [hw]; rfl)
    rw [Chan.send_eq_panics_iff.mp hs] at hopen
    cases hopen
  | done hw hg =>
    have hneg := WaitGroup.add_eq_panics_iff.mp hg
    have hpos := h.counted.pos (by rw [hw]; rfl)
    omega
  | close hc hs =>
    have hclosed := h.shut.closed.mp (Chan.close_eq_panics_iff.mp hs)
    rw [hc] at hclosed
    cases hclosed

theorem Act.sound {f f' : FanOut n α β A R} (h : f.Sound job) (hact : Act job f t f') :
    f'.Sound job := by
  have ⟨hcounted, hcap, hshut, hbegun, hcrash⟩ := h
  cases hact with
  | add hc hk hg =>
    obtain ⟨-, rfl⟩ := WaitGroup.add_eq_ok_iff.mp hg
    rw [hc] at hcounted hshut
    exact ⟨hcounted.add hk, hcap, hshut.spawn id id, hbegun, hcrash⟩
  | start hc hk =>
    rw [hc] at hcounted hshut
    exact ⟨hcounted.start hk, hcap, hshut.spawn id id, hbegun.move (.inl (.inr rfl)), hcrash⟩
  | watch hc =>
    rw [hc] at hcounted hshut
    exact ⟨hcounted.advance rfl rfl, hcap, hshut.watch id, hbegun, hcrash⟩
  | next hc hr hb =>
    obtain ⟨rest, -, rfl⟩ := Chan.receive_eq_item_iff.mp hr
    rw [hc] at hcounted hshut
    exact ⟨hcounted.advance rfl rfl, hcap, hshut.next _, hbegun, hcrash⟩
  | found hc hr hb =>
    obtain ⟨rest, -, rfl⟩ := Chan.receive_eq_item_iff.mp hr
    rw [hc] at hcounted hshut
    exact ⟨hcounted.advance rfl rfl, hcap, hshut.finish _, hbegun, hcrash⟩
  | drained hc hr =>
    rw [hc] at hcounted hshut
    exact ⟨hcounted.advance rfl rfl, hcap, hshut.finish _, hbegun, hcrash⟩
  | ready hw hp => exact h.move (by rw [hw]; rfl) rfl (by rw [hp]; nofun) rfl rfl
  | call hw hp => exact h.move (by rw [hw]; rfl) rfl (by rw [hp]; nofun) rfl rfl
  | cancel hw hc =>
    exact h.move (by rw [hw]; rfl) rfl (hbegun.not_fails hw nofun nofun) rfl rfl
  | answer hw => exact h.move (by rw [hw]; rfl) rfl (hbegun.not_fails hw nofun nofun) rfl rfl
  | send hw hs =>
    obtain ⟨-, -, rfl⟩ := Chan.send_eq_ok_iff.mp hs
    exact h.move (by rw [hw]; rfl) rfl (hbegun.not_fails hw nofun nofun) rfl rfl
  | @done i g f hw hg =>
    obtain ⟨-, rfl⟩ := WaitGroup.add_eq_ok_iff.mp hg
    have hpay := (Int.neg_add_cancel_right f.group.counter 1).trans (Int.add_zero _).symm
    exact ⟨hcounted.move (by rw [hw]; rfl) nofun hpay, hcap, hshut.move (by rw [hw]; nofun),
      hbegun.move (.inr (hbegun.not_fails hw nofun nofun)), hcrash⟩
  | @waited f hc hg =>
    refine ⟨hcounted, hcap, ⟨?_, ?_, ?_, hshut.cancelled⟩, hbegun, hcrash⟩
    · rw [← hshut.ready, hc]
      exact iff_of_true nofun nofun
    · intro _
      exact hcounted.finished (hshut.ready.mp (by rw [hc]; nofun)) hg
    · rw [hshut.closed, hc]
      exact iff_of_false nofun nofun
  | @close ch f hc hs =>
    obtain ⟨-, rfl⟩ := Chan.close_eq_ok_iff.mp hs
    refine ⟨hcounted, hcap, ⟨?_, ?_, iff_of_true rfl rfl, hshut.cancelled⟩, hbegun, hcrash⟩
    · rw [← hshut.ready, hc]
      exact iff_of_true nofun nofun
    · exact fun _ => hshut.waited (.inl hc)
  | crash hf =>
    obtain ⟨i, -, -, hi⟩ := hf.prepares h
    exact ⟨hcounted, hcap, hshut, hbegun, fun _ => ⟨i, hi⟩⟩

end FanOut
end Base
