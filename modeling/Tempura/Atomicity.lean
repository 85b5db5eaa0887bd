import Tempura.Base.Alone
import Tempura.Base.Observes
import Tempura.Base.Termination
import Tempura.Base.Murmur3
import Tempura.Locking

namespace Tempura
open Base
set_option autoImplicit true

section Calls
variable {ι ρ : Type} [DecidableEq ρ] (hash32 : GoString → UInt32) (nameOf : ρ → GoString)
  (call : ι → LockedCall ρ)

/-- The cells after the calls of a log, one after another, each as one step of the model. -/
def performed (c : Cells ρ) (log : List ι) : Cells ρ :=
  log.foldl (fun c i => ((call i).perform hash32 nameOf c).2) c

theorem performed_concat (c : Cells ρ) (log : List ι) (i : ι) :
    performed hash32 nameOf call c (log ++ [i]) =
      ((call i).perform hash32 nameOf (performed hash32 nameOf call c log)).2 := by
  rw [performed, List.foldl_append]
  rfl

def LockedCall.start (c : Cells ρ) : Locked ι (Guard ρ) Guard.Value (LockedAnswer ρ) :=
  .start (fun i => (call i).body hash32 nameOf) c

theorem serial_body (c : Cells ρ) (log : List ι) :
    serial (fun i => (call i).body hash32 nameOf) c log = performed hash32 nameOf call c log := by
  rw [serial, performed]
  congr 1
  funext c i
  rw [LockedCall.run_body]

omit [DecidableEq ρ] in
theorem LockedCall.body_ne_ret (call : LockedCall ρ) (answer : LockedAnswer ρ) :
    call.body hash32 nameOf ≠ .ret answer := by
  cases call <;> nofun

variable [DecidableEq ι] {hash32 nameOf call}

theorem LockedCall.serial_run {c : Cells ρ}
    {s : Locked ι (Guard ρ) Guard.Value (LockedAnswer ρ)}
    (hrun : Run Locked.Step (LockedCall.start hash32 nameOf call c) turns s) :
    Serial (fun i => (call i).Strict) (fun i => (call i).body hash32 nameOf) c (commits turns) s ∧
      s.Guarded Guard.rank := by
  have hstart := serial_start (c := c)
    (fun i hi => (call i).twoPhase_body hash32 nameOf hi)
    (fun i hi => (call i).readOnly_body hash32 nameOf hi)
  have hguard : (LockedCall.start hash32 nameOf call c).Guarded Guard.rank :=
    fun i => (call i).ordered_body hash32 nameOf
  exact hstart.run hguard hrun

end Calls

/-! ### An `Add` and a checkpoint at the same time -/

theorem Locking.locksIn_addSlot (hash32 : GoString → UInt32) (p : ρ) (slot : GoString)
    (hX : X (.ring p)) : (addSlot hash32 p slot).LocksIn X := by
  apply Code.LocksIn.withLock _ hX
  refine Code.locksIn_bind (fun ch => trivial) (fun ch => ?_)
  have hvnode (i : Nat) : (addVnode hash32 p slot i).LocksIn X := trivial
  exact Code.locksIn_bind (Code.locksIn_forM hvnode _) (fun _ => trivial)

theorem LockedCall.locksIn_add (hash32 : GoString → UInt32) (nameOf : ρ → GoString) (p : ρ)
    (name : GoString) :
    ((add p name).body hash32 nameOf).LocksIn (fun x => x = .names p ∨ x = .ring p) := by
  refine Code.locksIn_bind (Code.LocksIn.withLock ?_ (.inl rfl) _) (fun _ => trivial)
  refine Code.locksIn_bind (p := Code.modify (.names p) _) trivial (fun _ => ?_)
  exact Code.locksIn_bind (Locking.locksIn_addSlot hash32 p name (.inr rfl)) (fun _ => trivial)

def addAndCheckpoint : Bool → LockedCall Unit
  | false => .add () orders1
  | true => .checkpoint (·.entries)

def ordersCells : Cells Unit
  | .registry => AList.insert (lit "orders") () ∅
  | .names _ => ∅
  | .ring _ => newConsistentHash defaultVirtualNodes

abbrev ordersBegin : Locked Bool (Guard Unit) Guard.Value (LockedAnswer Unit) :=
  LockedCall.start murmur3Sum32 (fun _ => lit "orders") addAndCheckpoint ordersCells

/-- The checkpoint has the lock of the names when the `Add` begins to wait for it. -/
theorem contended_run : ∃ turns s, Run Locked.Step ordersBegin turns s ∧
    (s.thread true).held (.names ()) = some .read ∧ s.Claims false (.names ()) ∧
    (s.thread false).code = (addAndCheckpoint false).body murmur3Sum32 (fun _ => lit "orders") ∧
    (s.thread true).code.LocksIn (fun _ => False) := by
  have hfree (x : Guard Unit) (j : Bool) : ¬ ordersBegin.Claims j x := by
    rintro (h | h) <;> cases h
    contradiction
  have hregistry := Run.snoc .nil (Locked.Step.read (i := true) (s := ordersBegin) rfl (hfree _))
  have hlook := hregistry.snoc (.look (i := true) rfl)
  have hnames := hlook.snoc (.read (i := true) rfl ?_)
  have hawait := hnames.snoc (.await (i := false) rfl rfl ?_)
  · exact ⟨_, _, hawait, rfl, .inr ⟨rfl, _, rfl⟩, rfl, fun v => trivial⟩
  · rintro (_ | _) (h | h) <;> cases h <;> contradiction
  · rintro (_ | _) (h | h) <;> cases h <;> contradiction

theorem contended_ends {s : Locked Bool (Guard Unit) Guard.Value (LockedAnswer Unit)}
    (hrun : Run Locked.Step ordersBegin turns s)
    (hadd : (s.thread false).code =
      (addAndCheckpoint false).body murmur3Sum32 (fun _ => lit "orders"))
    (hlocks : (s.thread true).code.LocksIn (fun _ => False)) :
    ∃ turns' s', Run Locked.Step s turns' s' ∧
      (s'.thread false).code = .ret (.outcome (.ok ())) ∧
      ∀ i x, (s'.thread i).held x = none := by
  obtain ⟨turns₁, s₁, hrun₁, hret₁, hheld₁, -, hothers₁⟩ :=
    (LockedCall.serial_run hrun).2.finishes rfl hlocks (fun _ h => h.elim)
  obtain ⟨turns₂, s₂, hrun₂, hret₂, hheld₂, -, hothers₂⟩ :=
    (LockedCall.serial_run (hrun.append hrun₁)).2.finishes_last (i := false) (fun j hj => by
      cases j with
      | false => exact absurd rfl hj
      | true => exact ⟨_, hret₁⟩)
  rw [hothers₁ false (by decide), hadd, LockedCall.run_body] at hret₂
  refine ⟨_, s₂, hrun₁.append hrun₂, hret₂, fun i x => ?_⟩
  cases i with
  | false => exact hheld₂ x
  | true =>
    rw [hothers₂ true (by decide)]
    exact hheld₁ x

/-- The checkpoint has read the registry but no names yet when the `Add` comes and goes. -/
theorem addInside_run : ∃ turns s, Run Locked.Step ordersBegin turns s ∧
    (s.thread true).code = .ret (.schema
      ((∅ : Schema).insert (lit "orders") (AList.insert orders1 .active ∅))) := by
  have hfree (x : Guard Unit) (j : Bool) : ¬ ordersBegin.Claims j x := by
    rintro (h | h) <;> cases h
    contradiction
  have hregistry := Run.snoc .nil (Locked.Step.read (i := true) (s := ordersBegin) rfl (hfree _))
  have hlook := hregistry.snoc (.look (i := true) rfl)
  have hadds := (LockedCall.serial_run hlook).2.finishes (i := false) rfl
    (LockedCall.locksIn_add murmur3Sum32 (fun _ => lit "orders") () orders1) (by
      intro x hx
      apply Locked.freeFor_of_idle
      rintro (_ | _) hj
      · exact absurd rfl hj
      · rcases hx with rfl | rfl
        · exact ⟨rfl, rfl⟩
        · exact ⟨rfl, rfl⟩)
  obtain ⟨turns₁, s₁, hrun₁, hret₁, -, hcells₁, hothers₁⟩ := hadds
  have hcells : s₁.cells = ((addAndCheckpoint false).perform murmur3Sum32
      (fun _ => lit "orders") ordersCells).2 :=
    hcells₁.trans (congrArg Prod.snd (LockedCall.run_body (addAndCheckpoint false) ordersCells))
  obtain ⟨turns₂, s₂, hrun₂, hret₂, -⟩ :=
    (LockedCall.serial_run (hlook.append hrun₁)).2.finishes_last (i := true) (fun j hj => by
      cases j with
      | false => exact ⟨_, hret₁⟩
      | true => exact absurd rfl hj)
  rw [hothers₁ true (by decide), hcells] at hret₂
  exact ⟨_, s₂, (hlook.append hrun₁).append hrun₂, hret₂⟩

/-- Each of the calls that interleave answers as if it had run in one step when it gave back its
first lock, and at rest the registry is as if all had run so. -/
theorem locked_calls_atomic {ι ρ : Type} [DecidableEq ι] [DecidableEq ρ]
    (hash32 : GoString → UInt32) (nameOf : ρ → GoString) (call : ι → LockedCall ρ) (c : Cells ρ)
    (turns : List (Turn ι)) (s : Locked ι (Guard ρ) Guard.Value (LockedAnswer ρ))
    (hrun : Run Locked.Step (LockedCall.start hash32 nameOf call c) turns s) :
    (∀ i answer, (call i).Strict → (s.thread i).code = .ret answer →
      ∃ before after, commits turns = before ++ i :: after ∧
        answer = ((call i).perform hash32 nameOf (performed hash32 nameOf call c before)).1) ∧
    ((∀ i x, (s.thread i).held x = none) →
      s.cells = performed hash32 nameOf call c (commits turns)) ∧
    (commits turns).Nodup ∧ ∀ i ∈ commits turns, (s.thread i).committed = true := by
  obtain ⟨hserial, hguard⟩ := LockedCall.serial_run hrun
  refine ⟨?_, ?_, hserial.once, hserial.logged⟩
  · intro i answer hs hi
    obtain ⟨before, after, hlog, hres⟩ :=
      hserial.result hguard hs ((call i).body_ne_ret hash32 nameOf answer) hi
    refine ⟨before, after, hlog, ?_⟩
    rw [hres, LockedCall.run_body, serial_body]
  · intro hrest
    rw [hserial.cells_of_rest hrest, serial_body]

theorem locked_calls_atomic_orders : ∃ turns s, Run Locked.Step ordersBegin turns s ∧
    s.Claims false (.names ()) ∧ (s.thread true).held (.names ()) = some .read ∧
    ∃ turns' s', Run Locked.Step s turns' s' ∧
      s'.cells = performed murmur3Sum32 (fun _ => lit "orders") addAndCheckpoint ordersCells
        (commits (turns ++ turns')) ∧
      ∃ before after, commits (turns ++ turns') = before ++ false :: after := by
  obtain ⟨turns, s, hrun, hread, hclaims, hadd, hlocks⟩ := contended_run
  obtain ⟨turns', s', hrun', hret, hheld⟩ := contended_ends hrun hadd hlocks
  obtain ⟨hanswers, hcells, -⟩ := locked_calls_atomic _ _ _ _ _ s' (hrun.append hrun')
  obtain ⟨before, after, hlog, -⟩ := hanswers false _ trivial hret
  exact ⟨turns, s, hrun, hclaims, hread, turns', s', hrun', hcells hheld, before, after, hlog⟩

/-- Writers are alone with what they write, the locks never deadlock, and every call returns. -/
theorem locked_calls_return {ι ρ : Type} [DecidableEq ι] [Finite ι] [DecidableEq ρ]
    (hash32 : GoString → UInt32) (nameOf : ρ → GoString) (call : ι → LockedCall ρ) (c : Cells ρ)
    (turns : List (Turn ι)) (s : Locked ι (Guard ρ) Guard.Value (LockedAnswer ρ))
    (hrun : Run Locked.Step (LockedCall.start hash32 nameOf call c) turns s) :
    (∀ i j x, (s.thread i).held x = some .write → (s.thread j).held x ≠ none → i = j) ∧
    (¬ ∃ states : Nat → Locked ι (Guard ρ) Guard.Value (LockedAnswer ρ), states 0 = s ∧
      ∀ n, ∃ turn, Locked.Step (states n) turn (states (n + 1))) ∧
    ((∀ turn s', ¬ Locked.Step s turn s') →
      (∀ i, ∃ answer, (s.thread i).code = .ret answer) ∧
      (∀ i, (call i).Strict → i ∈ commits turns) ∧
      s.cells = performed hash32 nameOf call c (commits turns)) := by
  obtain ⟨hserial, hguard⟩ := LockedCall.serial_run hrun
  refine ⟨hserial.exclusive, ?_, ?_⟩
  · rintro ⟨states, -, hstates⟩
    have hchain := wellFounded_iff_isEmpty_descending_chain.mp
      (Locked.wellFounded_step (ι := ι) (κ := Guard ρ) (V := Guard.Value) (α := LockedAnswer ρ))
    exact hchain.false ⟨states, hstates⟩
  · intro hstuck
    have hret : ∀ i, ∃ answer, (s.thread i).code = .ret answer := by
      intro i
      by_contra hne
      obtain ⟨turn, s', hstep⟩ := hguard.progress Guard.rank_le (fun a ha => hne ⟨a, ha⟩)
      exact hstuck turn s' hstep
    have hfree : ∀ i x, (s.thread i).held x = none := by
      intro i x
      obtain ⟨answer, hi⟩ := hret i
      have hord := hguard i
      rw [hi] at hord
      exact hord x
    refine ⟨hret, ?_, ?_⟩
    · intro i hs
      obtain ⟨answer, hi⟩ := hret i
      obtain ⟨before, after, hlog, -⟩ :=
        hserial.result hguard hs ((call i).body_ne_ret hash32 nameOf answer) hi
      rw [hlog]
      exact List.mem_append_right _ List.mem_cons_self
    · rw [hserial.cells_of_rest hfree, serial_body]

theorem locked_calls_return_orders : ∃ turns s, Run Locked.Step ordersBegin turns s ∧
    s.Claims false (.names ()) ∧ (s.thread true).held (.names ()) = some .read ∧
    ∃ turn s', Locked.Step s turn s' := by
  obtain ⟨turns, s, hrun, hread, hclaims, hadd, -⟩ := contended_run
  refine ⟨turns, s, hrun, hclaims, hread, ?_⟩
  by_contra hstuck
  push Not at hstuck
  obtain ⟨answer, hret⟩ := ((locked_calls_return _ _ _ _ turns s hrun).2.2 hstuck).1 false
  rw [hadd] at hret
  cases hret

section Checkpoint
variable {ι ρ : Type} [DecidableEq ρ] {view : List ι → Cells ρ}

theorem Locking.observes_snapshot {held : Code.Held (Guard ρ)} (hheld : ∀ p, held (.names p) = none)
    (es : List (Σ _ : GoString, ρ)) (schema : Schema) (hnd : es.NodupKeys)
    {k : Schema → Body ρ (LockedAnswer ρ)}
    (h : Observes view held l ((snapshot schema es).bind k) l' answer) :
    ∃ l₁ schema', Grows view held l l₁ ∧ Observes view held l₁ (k schema') l' answer ∧
      (∀ name, name ∉ es.keys → schema'.lookup name = schema.lookup name) ∧
      ∀ e ∈ es, ∃ m, Grows view held l m ∧ Grows view held m l₁ ∧
        schema'.lookup e.1 = some (view m (.names e.2)) := by
  induction es generalizing l schema with
  | nil => exact ⟨l, schema, .refl _ _ _, h, fun _ _ => rfl, nofun⟩
  | cons e es ih =>
    obtain ⟨hfresh, hnd'⟩ := List.nodupKeys_cons.mp hnd
    obtain ⟨l₁, hg₁, h₁⟩ := Observes.of_acquire h
    obtain ⟨l₂, hg₂, h₂⟩ := Observes.of_look h₁
    obtain ⟨l₃, hg₃, h₃⟩ := Observes.of_release h₂
    rw [Code.held_back (hheld e.2)] at h₃
    -- while the lock of the namespace is held, those held before are held as well
    have hle : ∀ x, held x ≠ none →
        Function.update held (.names e.2) (some Mode.read) x ≠ none := by
      intro x hx
      rwa [Function.update_of_ne]
      rintro rfl
      exact hx (hheld e.2)
    have hto := hg₁.trans (hg₂.mono hle)
    have hfrom := hg₃.mono hle
    obtain ⟨l₄, schema', hg₄, hrest, hother, hes⟩ := ih _ hnd' h₃
    refine ⟨l₄, schema', (hto.trans hfrom).trans hg₄, hrest, ?_, ?_⟩
    · intro name hname
      rw [List.keys_cons, List.mem_cons, not_or] at hname
      rw [hother name hname.2, AList.lookup_insert_ne hname.1]
    · intro e' he'
      cases List.mem_cons.mp he' with
      | inl heq =>
        subst e'
        refine ⟨l₂, hto, hfrom.trans hg₄, ?_⟩
        rw [hother e.1 hfresh]
        exact AList.lookup_insert _
      | inr hmem =>
        obtain ⟨m, hm, hm', hl⟩ := hes e' hmem
        exact ⟨m, (hto.trans hfrom).trans hm, hm', hl⟩

theorem LockedCall.observes_checkpoint {visit : FiniteMap GoString ρ → List (Σ _ : GoString, ρ)}
    (hvisit : ∀ m, (visit m).Perm m.entries)
    (h : Observes view (fun _ => none) l ((checkpoint visit).body hash32 nameOf) l'
      (.schema schema)) :
    ∃ m, l <+: m ∧ m <+: l' ∧
      (∀ name, (view m .registry).lookup name = none → schema.lookup name = none) ∧
      ∀ name p, (view m .registry).lookup name = some p →
        ∃ n, m <+: n ∧ n <+: l' ∧ view n .registry = view m .registry ∧
          schema.lookup name = some (view n (.names p)) := by
  obtain ⟨l₁, hg₁, h₁⟩ := Observes.of_acquire h
  obtain ⟨m, hg₂, h₂⟩ := Observes.of_look h₁
  have hperm := hvisit (view m .registry)
  have hnd : (visit (view m .registry)).NodupKeys :=
    (List.perm_nodupKeys hperm).mpr (view m .registry).nodupKeys
  have hheld : ∀ p, Function.update (fun _ => none) (Guard.registry : Guard ρ) (some Mode.read)
      (.names p) = none :=
    fun p => Function.update_of_ne (by simp) _ _
  have hloop : Observes view (Function.update (fun _ => none) Guard.registry (some Mode.read)) m
      (((Locking.snapshot ∅ (visit (view m .registry))).bind _).bind _) l'
      (LockedAnswer.schema schema : LockedAnswer ρ) := h₂
  rw [Code.bind_assoc] at hloop
  obtain ⟨l₂, schema', hg₃, h₃, hother, hes⟩ :=
    Locking.observes_snapshot hheld _ ∅ hnd hloop
  obtain ⟨l₃, hg₄, h₄⟩ := Observes.of_release h₃
  obtain ⟨hg₅, heq⟩ := Observes.of_ret h₄
  cases heq
  have hend : l₂ <+: l' := hg₄.isPrefix.trans hg₅.isPrefix
  refine ⟨m, hg₁.isPrefix.trans hg₂.isPrefix, hg₃.isPrefix.trans hend, ?_, ?_⟩
  · intro name hname
    rw [hother, AList.lookup_empty]
    intro hmem
    have hkeys := (List.Perm.map Sigma.fst hperm).mem_iff.mp hmem
    obtain ⟨p, hp⟩ := FiniteMap.mem_keys_iff.mp hkeys
    rw [hname] at hp
    cases hp
  · intro name p hp
    have hmem : (⟨name, p⟩ : Σ _ : GoString, ρ) ∈ visit (view m .registry) :=
      hperm.mem_iff.mpr (AList.mem_lookup_iff.mp hp)
    obtain ⟨n, hgm, hgn, hl⟩ := hes _ hmem
    refine ⟨n, hgm.isPrefix, hgn.isPrefix.trans hend, ?_, hl⟩
    apply hgm.stable
    rw [Function.update_self]
    exact Option.some_ne_none _

end Checkpoint

/-! ### What a checkpoint holds of the changes around it -/

section Growth
variable {ι ρ : Type} {hash32 : GoString → UInt32} {nameOf : ρ → GoString} {call : ι → LockedCall ρ}

/-- Names that are registered stay registered, and slots that are listed stay listed. -/
def Cells.Within (c c' : Cells ρ) : Prop :=
  (∀ name, ((c .registry).lookup name).isSome → ((c' .registry).lookup name).isSome) ∧
    ∀ p slot, slot ∈ (c (.names p)).keys → slot ∈ (c' (.names p)).keys

theorem Cells.within_refl (c : Cells ρ) : c.Within c := ⟨fun _ h => h, fun _ _ h => h⟩

theorem Cells.Within.trans {c c' c'' : Cells ρ} (h : c.Within c') (h' : c'.Within c'') :
    c.Within c'' :=
  ⟨fun name hname => h'.1 name (h.1 name hname), fun p slot hs => h'.2 p slot (h.2 p slot hs)⟩

variable [DecidableEq ρ]

theorem Cells.set_registry (c : Cells ρ) (p : ρ) (v : VirtualNamespace) :
    c.set p v .registry = c .registry := by
  rw [Cells.set, Function.update_of_ne (by simp), Function.update_of_ne (by simp)]

theorem Cells.within_set {c : Cells ρ} {v : VirtualNamespace}
    (h : ∀ slot ∈ (c (.names p)).keys, slot ∈ v.namespaces.keys) : c.Within (c.set p v) := by
  constructor
  · intro name hname
    rwa [Cells.set_registry]
  · intro q slot hslot
    rw [Cells.set, Function.update_of_ne (by simp)]
    by_cases hq : q = p
    · subst q
      rw [Function.update_self]
      exact h slot hslot
    · rwa [Function.update_of_ne (by simpa using hq)]

theorem LockedCall.within_perform (call : LockedCall ρ) (c : Cells ρ) :
    c.Within (call.perform hash32 nameOf c).2 := by
  cases call with
  | register p =>
    constructor
    · intro name hname
      change ((Function.update c _ _ Guard.registry).lookup name).isSome
      rw [Function.update_self, FiniteMap.lookup_insert_ite]
      split
      · rfl
      · exact hname
    · intro q slot hslot
      change slot ∈ (Function.update c _ _ (Guard.names q)).keys
      rwa [Function.update_of_ne (by simp)]
  | add p name =>
    apply Cells.within_set
    intro slot hslot
    exact (AList.mem_insert _).mpr (.inr hslot)
  | remove p name =>
    apply Cells.within_set
    intro slot hslot
    rw [VirtualNamespace.remove_namespaces]
    split
    · exact (AList.mem_insert _).mpr (.inr hslot)
    · exact hslot
  | _ => exact c.within_refl

theorem within_performed (c : Cells ρ) {l l' : List ι} (h : l <+: l') :
    (performed hash32 nameOf call c l).Within (performed hash32 nameOf call c l') := by
  obtain ⟨later, rfl⟩ := h
  induction later using List.reverseRecOn with
  | nil =>
    rw [List.append_nil]
    exact Cells.within_refl _
  | append_singleton later i ih =>
    apply ih.trans
    rw [← List.append_assoc, performed_concat]
    exact (call i).within_perform _

/-- The moments of the log that a checkpoint has looked at by its end. -/
theorem LockedCall.checkpoint_found [DecidableEq ι] {c : Cells ρ}
    {s s' : Locked ι (Guard ρ) Guard.Value (LockedAnswer ρ)}
    {visit : FiniteMap GoString ρ → List (Σ _ : GoString, ρ)}
    (hvisit : ∀ m, (visit m).Perm m.entries) {i : ι} (hi : call i = .checkpoint visit)
    (hrun : Run Locked.Step (LockedCall.start hash32 nameOf call c) turns s)
    (hnew : s.thread i = { code := (call i).body hash32 nameOf })
    (hrun' : Run Locked.Step s turns' s') {schema : Schema}
    (hend : (s'.thread i).code = .ret (.schema schema)) :
    ∃ m, commits turns <+: m ∧ m <+: commits turns ++ commits turns' ∧
      (∀ name, (performed hash32 nameOf call c m .registry).lookup name = none →
        schema.lookup name = none) ∧
      ∀ name p, (performed hash32 nameOf call c m .registry).lookup name = some p →
        ∃ n, m <+: n ∧ n <+: commits turns ++ commits turns' ∧
          performed hash32 nameOf call c n .registry =
            performed hash32 nameOf call c m .registry ∧
          schema.lookup name = some (performed hash32 nameOf call c n (.names p)) := by
  obtain ⟨hserial, hguard⟩ := LockedCall.serial_run hrun
  have hs : ¬ (call i).Strict := by
    rw [hi]
    exact id
  have hobs := hserial.observes hguard hs hnew hrun' hend
  rw [show serial (fun i => (call i).body hash32 nameOf) c = performed hash32 nameOf call c from
    funext (serial_body hash32 nameOf call c), hi] at hobs
  exact LockedCall.observes_checkpoint hvisit hobs

end Growth

/-- What the registry has under a name. -/
def Cells.statuses (c : Cells ρ) (name : GoString) : Option (FiniteMap GoString NamespaceStatus) :=
  ((c .registry).lookup name).map (fun p => c (.names p))

theorem Cells.isSome_statuses (c : Cells ρ) (name : GoString) :
    (c.statuses name).isSome = ((c .registry).lookup name).isSome := Option.isSome_map

theorem Cells.statuses_of_lookup {c : Cells ρ} (h : (c .registry).lookup name = some p) :
    c.statuses name = some (c (.names p)) := by
  rw [statuses, h]
  rfl

section Names
variable {ι ρ : Type} [DecidableEq ρ] {hash32 : GoString → UInt32} {nameOf : ρ → GoString}
  {call : ι → LockedCall ρ} {c : Cells ρ}

theorem LockedCall.lookup_registry_perform (call : LockedCall ρ) (c : Cells ρ)
    (h : ∀ p, call = .register p → nameOf p ≠ name) :
    ((call.perform hash32 nameOf c).2 .registry).lookup name = (c .registry).lookup name := by
  cases call with
  | register p =>
    change (Function.update c _ _ Guard.registry).lookup name = _
    rw [Function.update_self, FiniteMap.lookup_insert_ite, if_neg (h p rfl).symm]
  | add p slot => simp only [perform, Cells.set_registry]
  | remove p slot => simp only [perform, Cells.set_registry]
  | _ => rfl

theorem lookup_registry_performed {l later : List ι}
    (h : ∀ j ∈ later, ∀ p, call j = .register p → nameOf p ≠ name) :
    (performed hash32 nameOf call c (l ++ later) .registry).lookup name =
      (performed hash32 nameOf call c l .registry).lookup name := by
  induction later using List.reverseRecOn with
  | nil => rw [List.append_nil]
  | append_singleton later j ih =>
    rw [← List.append_assoc, performed_concat,
      (call j).lookup_registry_perform _ (h j (List.mem_append_right _ List.mem_cons_self))]
    exact ih (fun j hj => h j (List.mem_append_left _ hj))

end Names

/-- A checkpoint has the names of one moment of its run, each with the statuses of a later moment,
and all slots of names that are not registered again meanwhile. -/
theorem checkpoint_between {ι ρ : Type} [DecidableEq ι] [DecidableEq ρ]
    (hash32 : GoString → UInt32) (nameOf : ρ → GoString) (call : ι → LockedCall ρ) (c : Cells ρ)
    (turns turns' : List (Turn ι)) (s s' : Locked ι (Guard ρ) Guard.Value (LockedAnswer ρ))
    (visit : FiniteMap GoString ρ → List (Σ _ : GoString, ρ))
    (hvisit : ∀ m, (visit m).Perm m.entries) (i : ι) (hi : call i = .checkpoint visit)
    (hrun : Run Locked.Step (LockedCall.start hash32 nameOf call c) turns s)
    (hnew : s.thread i = { code := (call i).body hash32 nameOf })
    (hrun' : Run Locked.Step s turns' s') (schema : Schema)
    (hend : (s'.thread i).code = .ret (.schema schema)) :
    let before := performed hash32 nameOf call c (commits turns)
    let after := performed hash32 nameOf call c (commits turns ++ commits turns')
    (∃ m, commits turns <+: m ∧ m <+: commits turns ++ commits turns' ∧
      (∀ name, (schema.lookup name).isSome ↔
        ((performed hash32 nameOf call c m).statuses name).isSome) ∧
      ∀ name slots, schema.lookup name = some slots →
        ∃ log, m <+: log ∧ log <+: commits turns ++ commits turns' ∧
          (performed hash32 nameOf call c log).statuses name = some slots) ∧
    (∀ name, (before.statuses name).isSome → (schema.lookup name).isSome) ∧
    (∀ name, (schema.lookup name).isSome → (after.statuses name).isSome) ∧
    ∀ name slots, schema.lookup name = some slots →
      (∀ j ∈ commits turns', ∀ p, call j = .register p → nameOf p ≠ name) →
      ∃ slots₀ slots₁, before.statuses name = some slots₀ ∧ after.statuses name = some slots₁ ∧
        (∀ slot ∈ slots₀.keys, slot ∈ slots.keys) ∧ ∀ slot ∈ slots.keys, slot ∈ slots₁.keys := by
  intro before after
  obtain ⟨m, hm, hm', hnone, hsome⟩ :=
    LockedCall.checkpoint_found hvisit hi hrun hnew hrun' hend
  have hnames (name : GoString) : (schema.lookup name).isSome ↔
      ((performed hash32 nameOf call c m).statuses name).isSome := by
    rw [Cells.isSome_statuses]
    cases hp : (performed hash32 nameOf call c m .registry).lookup name with
    | none =>
      rw [hnone name hp]
      exact Iff.rfl
    | some p =>
      obtain ⟨n, -, -, -, hl⟩ := hsome name p hp
      rw [hl]
      exact Iff.rfl
  have hentries {name : GoString} {slots : FiniteMap GoString NamespaceStatus}
      (hslots : schema.lookup name = some slots) :
      ∃ n p, m <+: n ∧ n <+: commits turns ++ commits turns' ∧
        (performed hash32 nameOf call c n .registry).lookup name = some p ∧
        slots = performed hash32 nameOf call c n (.names p) := by
    have hreg := (hnames name).mp (by rw [hslots]; rfl)
    rw [Cells.isSome_statuses] at hreg
    obtain ⟨p, hp⟩ := Option.isSome_iff_exists.mp hreg
    obtain ⟨n, hmn, hn, hsame, hl⟩ := hsome name p hp
    exact ⟨n, p, hmn, hn, by rw [hsame, hp], Option.some.inj (hslots.symm.trans hl)⟩
  have hwithin {l l' : List ι} (hl : l <+: l') : (performed hash32 nameOf call c l).Within
      (performed hash32 nameOf call c l') := within_performed c hl
  refine ⟨⟨m, hm, hm', hnames, ?_⟩, ?_, ?_, ?_⟩
  · intro name slots hslots
    obtain ⟨n, p, hmn, hn, hp, rfl⟩ := hentries hslots
    exact ⟨n, hmn, hn, Cells.statuses_of_lookup hp⟩
  · intro name hname
    rw [Cells.isSome_statuses] at hname
    rw [hnames, Cells.isSome_statuses]
    exact (hwithin hm).1 name hname
  · intro name hname
    rw [hnames, Cells.isSome_statuses] at hname
    rw [Cells.isSome_statuses]
    exact (hwithin hm').1 name hname
  · intro name slots hslots hkept
    obtain ⟨n, p, hmn, hn, hp, rfl⟩ := hentries hslots
    obtain ⟨later, rfl⟩ := hm.trans hmn
    have hlater := (List.prefix_append_right_inj _).mp hn
    rw [lookup_registry_performed (fun j hj => hkept j (hlater.subset hj))] at hp
    have hp' : (after .registry).lookup name = some p :=
      (lookup_registry_performed hkept).trans hp
    refine ⟨before (.names p), after (.names p), Cells.statuses_of_lookup hp,
      Cells.statuses_of_lookup hp', fun slot => ?_, fun slot => ?_⟩
    · exact (hwithin (List.prefix_append _ later)).2 p slot
    · exact (hwithin hn).2 p slot

theorem checkpoint_between_orders : ∃ turns s, Run Locked.Step ordersBegin turns s ∧
    (s.thread true).code = .ret (.schema
      ((∅ : Schema).insert (lit "orders") (AList.insert orders1 .active ∅))) ∧
    (∃ log, log ≠ [] ∧ log <+: commits turns ∧
      (performed murmur3Sum32 (fun _ => lit "orders") addAndCheckpoint ordersCells log).statuses
        (lit "orders") = some (AList.insert orders1 .active ∅)) ∧
    ∃ slots, (performed murmur3Sum32 (fun _ => lit "orders") addAndCheckpoint ordersCells
      (commits turns)).statuses (lit "orders") = some slots ∧ orders1 ∈ slots.keys := by
  obtain ⟨turns, s, hrun, hend⟩ := addInside_run
  obtain ⟨⟨m, -, -, -, hentries⟩, -, -, hkept⟩ := checkpoint_between _ _ _ _ [] turns ordersBegin s
    (·.entries) (fun m => .refl m.entries) true rfl .nil rfl hrun _ hend
  have hlookup := AList.lookup_insert (a := lit "orders") (b := AList.insert orders1 .active ∅)
    (∅ : Schema)
  obtain ⟨log, -, hto, hslots⟩ := hentries (lit "orders") _ hlookup
  obtain ⟨-, slots, -, hafter, -, hsub⟩ := hkept (lit "orders") _ hlookup (by
    rintro (_ | _) - p hregister
    · cases hregister
    · cases hregister)
  refine ⟨turns, s, hrun, hend, ⟨log, ?_, hto, hslots⟩, slots, hafter, ?_⟩
  · rintro rfl
    have hkeys := congrArg (Option.map AList.keys) hslots
    exact absurd hkeys (by decide)
  · exact hsub orders1 (AList.mem_keys.mp ((AList.mem_insert _).mpr (.inl rfl)))

end Tempura
