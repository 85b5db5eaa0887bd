import Tempura.Base.FanOut

namespace Base
set_option autoImplicit true

namespace FanOut
variable {n : Nat} {α β A R : Type} {job : Job n α β A R}

/-! ### What the collector returns -/

/-- The collector has read `done`, and goes on or has returned. -/
def Reads (job : Job n α β A R) (w : Fin n → Worker α) (done buffer : List β) :
    Collector A R → Prop
  | .adding _ => done = []
  | .starting _ => done = []
  | .reading acc => ∀ rest, job.gather job.init (done ++ rest) = job.gather acc rest
  | .returned r => (∀ rest, job.gather job.init (done ++ rest) = r) ∨
      (∀ i, (w i).Sent) ∧ buffer = [] ∧ job.gather job.init done = r

/-- Each worker sends once, and the collector has read what is not in the channel any more. -/
structure History (job : Job n α β A R) (f : FanOut n α β A R) : Prop where
  nodup : (f.sent.map Prod.fst).Nodup
  mem : ∀ i, i ∈ f.sent.map Prod.fst ↔ (f.worker i).Sent
  read : ∃ done, done ++ f.channel.buffer = f.sent.map (fun x => job.result x.1 x.2) ∧
    Reads job f.worker done f.channel.buffer f.collector

theorem history_start (job : Job n α β A R) : History job {} :=
  ⟨.nil, fun _ => iff_of_false List.not_mem_nil id, [], rfl, rfl⟩

theorem History.gather {f : FanOut n α β A R} (h : History job f)
    (hr : f.collector = .returned r) :
    job.gather job.init (f.sent.map (fun x => job.result x.1 x.2)) = r := by
  obtain ⟨done, hsent, hreads⟩ := h.read
  rw [hr] at hreads
  rw [← hsent]
  cases hreads with
  | inl hearly => exact hearly _
  | inr hall =>
    rw [hall.2.1, List.append_nil]
    exact hall.2.2

theorem History.room {f : FanOut n α β A R} (h : History job f) {i : Fin n}
    (hi : ¬ (f.worker i).Sent) : f.channel.buffer.length < n := by
  obtain ⟨done, hsent, -⟩ := h.read
  have hlen := congrArg List.length hsent
  have hnodup : (i :: f.sent.map Prod.fst).Nodup :=
    List.nodup_cons.mpr ⟨fun hmem => hi ((h.mem i).mp hmem), h.nodup⟩
  have hcard := hnodup.length_le_card
  rw [List.length_append, List.length_map] at hlen
  rw [List.length_cons, List.length_map, Fintype.card_fin] at hcard
  omega

theorem History.move {f : FanOut n α β A R} (h : History job f) {i : Fin n}
    (hx : x.Sent ↔ (f.worker i).Sent) (g : WaitGroup) :
    History job { f with worker := Function.update f.worker i x, group := g } := by
  have hsame := Worker.sent_update hx
  obtain ⟨done, hsent, hreads⟩ := h.read
  refine ⟨h.nodup, fun j => (h.mem j).trans (hsame j).symm, done, hsent, ?_⟩
  cases hc : f.collector with
  | returned r =>
    rw [hc] at hreads
    simp only [Reads, hsame]
    exact hreads
  | _ =>
    rw [hc] at hreads
    exact hreads

theorem History.send {f : FanOut n α β A R} (h : History job f) {i : Fin n} {a : α}
    (hw : f.worker i = .sending a) :
    History job
      { f with
        worker := Function.update f.worker i .finishing
        channel := { f.channel with buffer := f.channel.buffer ++ [job.result i a] }
        sent := f.sent ++ [(i, a)] } := by
  have hi : ¬ (f.worker i).Sent := by
    rw [hw]
    exact id
  obtain ⟨done, hsent, hreads⟩ := h.read
  refine ⟨?_, ?_, done, ?_, ?_⟩
  · rw [List.map_append, List.map_singleton]
    apply List.nodup_append.mpr
    refine ⟨h.nodup, List.nodup_singleton i, ?_⟩
    rintro j hj k hk rfl
    rw [List.mem_singleton.mp hk] at hj
    exact hi ((h.mem i).mp hj)
  · intro j
    dsimp only
    rw [List.map_append, List.mem_append, h.mem j, List.map_singleton, List.mem_singleton]
    by_cases hj : j = i
    · subst hj
      rw [Function.update_self]
      exact iff_of_true (.inr rfl) trivial
    · rw [Function.update_of_ne hj]
      exact or_iff_left hj
  · rw [List.map_append, ← hsent, List.append_assoc, List.map_singleton]
  · cases hc : f.collector with
    | returned r =>
      rw [hc] at hreads
      cases hreads with
      | inl hearly => exact .inl hearly
      | inr hall => exact absurd (hall.1 i) hi
    | _ =>
      rw [hc] at hreads
      exact hreads

theorem Act.history {f f' : FanOut n α β A R} (hs : f.Sound job) (h : History job f)
    (hact : Act job f t f') : History job f' := by
  obtain ⟨done, hsent, hreads⟩ := h.read
  cases hact with
  | add hc hk hg =>
    rw [hc] at hreads
    exact ⟨h.nodup, h.mem, done, hsent, hreads⟩
  | @start k f hc hk =>
    have hw := hs.absent_of_starting hc hk
    have hmove := h.move (i := ⟨k, hk⟩) (x := .started) (by rw [hw]; exact Iff.rfl) f.group
    rw [hc] at hreads
    exact ⟨hmove.nodup, hmove.mem, done, hsent, hreads⟩
  | watch hc =>
    rw [hc] at hreads
    refine ⟨h.nodup, h.mem, done, hsent, fun rest => ?_⟩
    rw [show done = [] from hreads]
    rfl
  | @next acc b ch acc' f hc hr hb =>
    obtain ⟨rest, hbuffer, rfl⟩ := Chan.receive_eq_item_iff.mp hr
    rw [hc] at hreads
    rw [hbuffer] at hsent
    refine ⟨h.nodup, h.mem, done ++ [b], by rw [← hsent, List.append_assoc]; rfl, ?_⟩
    intro later
    rw [List.append_assoc, hreads, List.singleton_append, Job.gather, hb]
  | @found acc b ch r f hc hr hb =>
    obtain ⟨rest, hbuffer, rfl⟩ := Chan.receive_eq_item_iff.mp hr
    rw [hc] at hreads
    rw [hbuffer] at hsent
    refine ⟨h.nodup, h.mem, done ++ [b], by rw [← hsent, List.append_assoc]; rfl, .inl ?_⟩
    intro later
    rw [List.append_assoc, hreads, List.singleton_append, Job.gather, hb]
  | @drained acc f hc hr =>
    obtain ⟨hbuffer, hclosed⟩ := Chan.receive_eq_ended_iff.mp hr
    rw [hc] at hreads
    refine ⟨h.nodup, h.mem, done, hsent, .inr ⟨fun i => ?_, hbuffer, ?_⟩⟩
    · rw [hs.shut.waited (.inr (hs.shut.closed.mp hclosed)) i]
      trivial
    · have hnil := hreads []
      rw [List.append_nil] at hnil
      exact hnil
  | ready hw hp => exact h.move (by rw [hw]; exact Iff.rfl) _
  | call hw hp => exact h.move (by rw [hw]; exact Iff.rfl) _
  | cancel hw hc => exact h.move (by rw [hw]; exact Iff.rfl) _
  | answer hw => exact h.move (by rw [hw]; exact Iff.rfl) _
  | send hw hs =>
    obtain ⟨-, -, rfl⟩ := Chan.send_eq_ok_iff.mp hs
    exact h.send hw
  | done hw hg => exact h.move (by rw [hw]; exact Iff.rfl) _
  | waited hc hg => exact ⟨h.nodup, h.mem, done, hsent, hreads⟩
  | close hc hs =>
    obtain ⟨-, rfl⟩ := Chan.close_eq_ok_iff.mp hs
    exact ⟨h.nodup, h.mem, done, hsent, hreads⟩
  | crash hf => exact ⟨h.nodup, h.mem, done, hsent, hreads⟩

theorem sound_of_run {f : FanOut n α β A R} (h : Run (Step job) {} turns f) :
    f.Sound job ∧ History job f := by
  induction h with
  | nil => exact ⟨sound_start job, history_start job⟩
  | snoc hr hstep ih =>
    obtain ⟨hs, hsent⟩ := ih
    exact ⟨hstep.act.sound hs, hstep.act.history hs hsent⟩

/-- The answer came from outside, from the worker's beginning, or from a call that was given up. -/
def Given (job : Job n α β A R) (turns : List (Turn n α)) (i : Fin n) (a : α) : Prop :=
  .answer i a ∈ turns ∨ job.prepare i = .ready a ∨ a = job.cancelled

theorem Given.snoc {turns : List (Turn n α)} (h : Given job turns i a) (t : Turn n α) :
    Given job (turns ++ [t]) i a :=
  h.imp_left fun hmem => List.mem_append_left _ hmem

def Ended (f : FanOut n α β A R) : Prop :=
  (∃ r, f.collector = .returned r) ∧ (∀ i, f.worker i = .finished) ∧ f.closer = .finished

theorem Sound.worker_moves {f : FanOut n α β A R} (h : f.Sound job) (hist : History job f)
    {i : Fin n} (hi : (f.worker i).active = 1) :
    ∃ t f', Act job f t f' ∧ (f.cancelled = true → ∀ j a, t ≠ .answer j a) := by
  cases hw : f.worker i with
  | absent => exact absurd hw (Worker.ne_of_active hi).1
  | started =>
    cases hp : job.prepare i with
    | fails => exact ⟨_, _, .crash (.prepare hw hp), nofun⟩
    | ready a => exact ⟨_, _, .ready hw hp, nofun⟩
    | calls => exact ⟨_, _, .call hw hp, nofun⟩
  | calling =>
    by_cases hc : f.cancelled = true
    · exact ⟨_, _, .cancel hw hc, nofun⟩
    · exact ⟨_, _, .answer (a := job.cancelled) hw, fun hc' => absurd hc' hc⟩
  | sending a =>
    have hroom := (hist.room (i := i) (by rw [hw]; exact id)).trans_eq h.capacity.symm
    exact ⟨_, _, .send hw (Chan.send_eq_ok_iff.mpr ⟨h.not_closed hi, hroom, rfl⟩), nofun⟩
  | finishing =>
    have hpos := h.counted.pos hi
    exact ⟨_, _, .done hw (WaitGroup.add_eq_ok_iff.mpr ⟨by omega, rfl⟩), nofun⟩
  | finished => exact absurd hw (Worker.ne_of_active hi).2

theorem Sound.spawn_moves {f : FanOut n α β A R} (h : f.Sound job) (hc : ¬ f.collector.Ready) :
    ∃ f', Act job f .collector f' := by
  have hbound := h.counted.bound
  cases hcol : f.collector with
  | adding k =>
    rw [hcol] at hbound
    cases Nat.lt_or_eq_of_le hbound with
    | inl hk =>
      have hcounter := h.counted.counter
      exact ⟨_, .add hcol hk (WaitGroup.add_eq_ok_iff.mpr ⟨by omega, rfl⟩)⟩
    | inr hk =>
      rw [show k = n from hk] at hcol
      exact ⟨_, .watch hcol⟩
  | starting k =>
    rw [hcol] at hbound
    exact ⟨_, .start hcol hbound⟩
  | reading acc =>
    rw [hcol] at hc
    exact absurd trivial hc
  | returned r =>
    rw [hcol] at hc
    exact absurd trivial hc

theorem Sound.closer_moves {f : FanOut n α β A R} (h : f.Sound job) (hc : f.collector.Ready)
    (hidle : ∀ i, (f.worker i).active = 0) :
    f.closer = .finished ∨ ∃ f', Act job f .closer f' := by
  cases hcloser : f.closer with
  | absent => exact absurd hcloser (h.shut.ready.mpr hc)
  | waiting =>
    have hpending : f.collector.pending = 0 := by
      cases hcol : f.collector with
      | starting k =>
        rw [hcol] at hc
        exact hc.elim
      | _ => rfl
    have hcounter := h.counted.counter
    rw [hpending, Finset.sum_eq_zero (fun i _ => hidle i)] at hcounter
    exact .inr ⟨_, .waited hcloser hcounter⟩
  | closing =>
    have hopen : f.channel.closed = false := by
      rw [← Bool.not_eq_true, h.shut.closed, hcloser]
      nofun
    exact .inr ⟨_, .close hcloser (Chan.close_eq_ok_iff.mpr ⟨hopen, rfl⟩)⟩
  | finished => exact .inl rfl

theorem Sound.reader_moves {f : FanOut n α β A R} (h : f.Sound job) (hc : f.closer = .finished)
    (hr : f.collector = .reading acc) : ∃ f', Act job f .collector f' := by
  cases hbuffer : f.channel.buffer with
  | nil => exact ⟨_, .drained hr (Chan.receive_eq_ended_iff.mpr ⟨hbuffer, h.shut.closed.mpr hc⟩)⟩
  | cons b rest =>
    have hitem := Chan.receive_eq_item_iff.mpr ⟨rest, hbuffer, rfl⟩
    cases hb : job.next acc b with
    | inl acc' => exact ⟨_, .next hr hitem hb⟩
    | inr r => exact ⟨_, .found hr hitem hb⟩

/-- Until all goroutines have ended one can go on, without an answer once the collector returned. -/
theorem Sound.progress {f : FanOut n α β A R} (h : f.Sound job) (hist : History job f)
    (hne : ¬ f.Ended) :
    ∃ t f', Act job f t f' ∧ (f.cancelled = true → ∀ j a, t ≠ .answer j a) := by
  by_cases hready : f.collector.Ready
  · by_cases hactive : ∃ i, (f.worker i).active = 1
    · obtain ⟨i, hi⟩ := hactive
      exact h.worker_moves hist hi
    · have hidle : ∀ i, (f.worker i).active = 0 := by
        intro i
        cases hw : f.worker i with
        | absent => rfl
        | finished => rfl
        | _ => exact absurd ⟨i, by rw [hw]; rfl⟩ hactive
      cases h.closer_moves hready hidle with
      | inr hmove =>
        obtain ⟨f', hact⟩ := hmove
        exact ⟨_, f', hact, nofun⟩
      | inl hfinished =>
        cases hcol : f.collector with
        | adding k =>
          rw [hcol] at hready
          exact hready.elim
        | starting k =>
          rw [hcol] at hready
          exact hready.elim
        | reading acc =>
          obtain ⟨f', hact⟩ := h.reader_moves hfinished hcol
          exact ⟨_, f', hact, nofun⟩
        | returned r =>
          exact absurd ⟨⟨r, hcol⟩, h.shut.waited (.inr hfinished), hfinished⟩ hne
  · obtain ⟨f', hact⟩ := h.spawn_moves hready
    exact ⟨_, f', hact, nofun⟩

end FanOut

/-! ### The number of steps -/

def Worker.weight : Worker α → Nat
  | .absent => 5
  | .started => 5
  | .calling => 4
  | .sending _ => 3
  | .finishing => 1
  | .finished => 0

def Collector.weight (n : Nat) : Collector A R → Nat
  | .adding k => 2 * (n - k) + 1
  | .starting k => 2 * (n - k)
  | .reading _ => 1
  | .returned _ => 0

def Closer.weight : Closer → Nat
  | .absent => 3
  | .waiting => 2
  | .closing => 1
  | .finished => 0

namespace FanOut
variable {n : Nat} {α β A R : Type} {job : Job n α β A R}

/-- The steps that are left at most. A result that is sent is read in another step. -/
def weight (f : FanOut n α β A R) : Nat :=
  if f.crashed then 0
  else ∑ i, (f.worker i).weight + f.collector.weight n + f.closer.weight + f.channel.buffer.length

theorem weight_of_live {f : FanOut n α β A R} (h : f.crashed = false) :
    f.weight =
      ∑ i, (f.worker i).weight + f.collector.weight n + f.closer.weight +
        f.channel.buffer.length := by
  rw [weight, h]
  rfl

theorem weight_worker_le {f : FanOut n α β A R} (h : f.crashed = false) (i : Fin n) :
    (f.worker i).weight ≤ f.weight := by
  have hle := Finset.single_le_sum (f := fun i => (f.worker i).weight)
    (fun j _ => Nat.zero_le _) (Finset.mem_univ i)
  rw [weight_of_live h]
  omega

theorem Faults.weight_pos {f : FanOut n α β A R} (h : f.crashed = false) (hf : f.Faults job t) :
    0 < f.weight := by
  cases hf with
  | add hc hk hg =>
    rw [weight_of_live h, hc, Collector.weight]
    omega
  | @prepare i hw hp =>
    have hle := weight_worker_le h i
    rw [hw] at hle
    exact Nat.lt_of_lt_of_le (Nat.succ_pos 4) hle
  | @send i a hw hs =>
    have hle := weight_worker_le h i
    rw [hw] at hle
    exact Nat.lt_of_lt_of_le (Nat.succ_pos 2) hle
  | @done i hw hg =>
    have hle := weight_worker_le h i
    rw [hw] at hle
    exact Nat.lt_of_lt_of_le (Nat.succ_pos 0) hle
  | close hc hs =>
    rw [weight_of_live h, hc, Closer.weight]
    omega

theorem weight_move {f : FanOut n α β A R} (h : f.crashed = false) (i : Fin n) (x : Worker α)
    (ch : Chan β) (g : WaitGroup) (sent : List (Fin n × α)) :
    ({ f with worker := Function.update f.worker i x, channel := ch, group := g, sent := sent } :
      FanOut n α β A R).weight + (f.worker i).weight + f.channel.buffer.length =
        f.weight + x.weight + ch.buffer.length := by
  have hsum := sum_update Worker.weight f.worker i x
  rw [weight_of_live h, weight_of_live (by exact h)]
  dsimp only
  omega

theorem Step.weight_lt {f f' : FanOut n α β A R} (hs : f.Sound job) (h : Step job f t f') :
    f'.weight < f.weight := by
  obtain ⟨hlive, hact⟩ := h
  cases hact with
  | add hc hk hg =>
    rw [weight_of_live hlive, weight_of_live (by exact hlive), hc]
    simp only [Collector.weight]
    omega
  | @start k f hc hk =>
    have hsum := sum_update Worker.weight f.worker ⟨k, hk⟩ .started
    rw [hs.absent_of_starting hc hk] at hsum
    rw [weight_of_live hlive, weight_of_live (by exact hlive), hc]
    simp only [Worker.weight, Collector.weight] at hsum ⊢
    omega
  | watch hc =>
    rw [weight_of_live hlive, weight_of_live (by exact hlive), hc]
    have habsent := (hs.shut.of_not_ready (by rw [hc]; exact id)).1
    simp only [Collector.weight, habsent, Closer.weight]
    omega
  | next hc hr hb =>
    obtain ⟨rest, hbuffer, rfl⟩ := Chan.receive_eq_item_iff.mp hr
    rw [weight_of_live hlive, weight_of_live (by exact hlive), hc, hbuffer]
    simp only [Collector.weight, List.length_cons]
    omega
  | found hc hr hb =>
    obtain ⟨rest, hbuffer, rfl⟩ := Chan.receive_eq_item_iff.mp hr
    rw [weight_of_live hlive, weight_of_live (by exact hlive), hc, hbuffer]
    simp only [Collector.weight, List.length_cons]
    omega
  | drained hc hr =>
    rw [weight_of_live hlive, weight_of_live (by exact hlive), hc]
    simp only [Collector.weight]
    omega
  | @ready i a f hw hp =>
    have hmove := weight_move hlive i (.sending a) f.channel f.group f.sent
    rw [hw] at hmove
    simp only [Worker.weight] at hmove
    omega
  | @call i f hw hp =>
    have hmove := weight_move hlive i .calling f.channel f.group f.sent
    rw [hw] at hmove
    simp only [Worker.weight] at hmove
    omega
  | @cancel i f hw hc =>
    have hmove := weight_move hlive i (.sending job.cancelled) f.channel f.group f.sent
    rw [hw] at hmove
    simp only [Worker.weight] at hmove
    omega
  | @answer i a f hw =>
    have hmove := weight_move hlive i (.sending a) f.channel f.group f.sent
    rw [hw] at hmove
    simp only [Worker.weight] at hmove
    omega
  | @send i a ch f hw hs =>
    obtain ⟨-, -, rfl⟩ := Chan.send_eq_ok_iff.mp hs
    have hmove := weight_move hlive i .finishing
      { f.channel with buffer := f.channel.buffer ++ [job.result i a] } f.group
      (f.sent ++ [(i, a)])
    rw [hw] at hmove
    simp only [Worker.weight, List.length_append, List.length_singleton] at hmove
    omega
  | @done i g f hw hg =>
    have hmove := weight_move hlive i .finished f.channel g f.sent
    rw [hw] at hmove
    simp only [Worker.weight] at hmove
    omega
  | waited hc hg =>
    rw [weight_of_live hlive, weight_of_live (by exact hlive), hc]
    simp only [Closer.weight]
    omega
  | close hc hs =>
    obtain ⟨-, rfl⟩ := Chan.close_eq_ok_iff.mp hs
    rw [weight_of_live hlive, weight_of_live (by exact hlive), hc]
    simp only [Closer.weight]
    omega
  | crash hf => exact hf.weight_pos hlive

/-- With `n` workers a run takes at most `7 * n + 4` steps. -/
theorem length_le_of_run {f : FanOut n α β A R} (h : Run (Step job) {} turns f) :
    turns.length + f.weight ≤ 7 * n + 4 := by
  induction h with
  | nil =>
    rw [weight_of_live rfl]
    simp [Worker.weight, Collector.weight, Closer.weight]
    omega
  | snoc hr hstep ih =>
    have hlt := hstep.weight_lt (sound_of_run hr).1
    rw [List.length_append, List.length_singleton]
    omega

end FanOut

end Base
