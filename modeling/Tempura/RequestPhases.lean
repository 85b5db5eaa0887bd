import Tempura.Traffic

namespace Tempura
open Base
set_option autoImplicit true

structure Incoming where
  method : Method
  message : method.Message

namespace Incoming

def workflowID (c : Incoming) : Outcome GoString := c.method.kind.workflowID c.message

def ns (c : Incoming) : GoString := c.method.kind.ns c.message

def deletes (c : Incoming) : Nat := c.method.completions c.message

def routine (c : Incoming) : Routine (Outcome GoString) := Traffic.request c.method c.message

def route (hash32 : GoString → UInt32) (p : Proxy) (c : Incoming) : Outcome GoString × Proxy :=
  c.method.route hash32 p c.message

end Incoming

/-- Where a request stands between its accesses. -/
inductive Phase where
  | arrived
  | missed
  | held (ref : Nat)
  | chosen (slot : GoString)
  | counted (slot : GoString)
  | finishing (slot : GoString) (deletes : Nat)

def Phase.Busy : Phase → Prop
  | .arrived => False
  | .missed => True
  | .held _ => True
  | .chosen _ => True
  | .counted _ => True
  | .finishing _ deletes => deletes ≠ 0

def Phase.slot? : Phase → Option GoString
  | .arrived => none
  | .missed => none
  | .held _ => none
  | .chosen slot => some slot
  | .counted slot => some slot
  | .finishing slot _ => some slot

def Phase.pending (label : GoString) : Phase → Nat
  | .arrived => 0
  | .missed => 0
  | .held _ => 0
  | .chosen slot => if label = slot then 1 else 0
  | .counted _ => 0
  | .finishing _ _ => 0

namespace Traffic
variable (w ns : GoString) (n : Nat)

def finishing (slot : GoString) : Nat → Routine (Outcome GoString)
  | 0 => .ret (.ok slot)
  | n + 1 => .op (.delete w) (fun _ => finishing slot n)

def counted (slot : GoString) : Routine (Outcome GoString) :=
  .op (.put w slot) (fun _ => finishing w slot n)

def chosen (slot : GoString) : Routine (Outcome GoString) :=
  .op (.count slot) (fun _ => counted w n slot)

def held (ref : Nat) : Routine (Outcome GoString) := .op (.getSlot ref w) (chosen w n)

def missed : Routine (Outcome GoString) :=
  .op (.find ns) (fun found => found.elim (finishing w [] n) (held w n))

def arrived : Routine (Outcome GoString) :=
  .op (.get w) (fun physNs => if physNs ≠ [] then finishing w physNs n else missed w ns n)

end Traffic

/-- What is left to do of a request for the workflow `w` with `n` removals. -/
def Phase.program (w ns : GoString) (n : Nat) : Phase → Routine (Outcome GoString)
  | .arrived => Traffic.arrived w ns n
  | .missed => Traffic.missed w ns n
  | .held ref => Traffic.held w n ref
  | .chosen slot => Traffic.chosen w n slot
  | .counted slot => Traffic.counted w n slot
  | .finishing slot deletes => Traffic.finishing w slot deletes

theorem complete_bind (w slot : GoString) (commands : List Command) :
    (Traffic.complete w commands >>= fun _ => pure (.ok slot)) =
      Traffic.finishing w slot
        (commands.countP (fun command => command.commandType = .completeWorkflowExecution)) := by
  induction commands with
  | nil => rfl
  | cons command commands ih =>
    rw [Traffic.complete, List.countP_cons]
    by_cases h : command.commandType = .completeWorkflowExecution
    · simp only [h, if_true, decide_true]
      exact congrArg (Program.op (Access.delete w)) (funext fun _ => ih)
    · simp only [h, if_false, decide_false, Bool.false_eq_true, Nat.add_zero]
      exact ih

theorem Traffic.countP_commands (m : Method) (req : m.Message) :
    (commands m req).countP (fun command => command.commandType = .completeWorkflowExecution) =
      m.completions req := by
  cases m <;> rfl

theorem Traffic.resolve_bind (w ns : GoString) (k : GoString × Bool → Routine α) :
    (resolve ⟨w, ns⟩ >>= k) =
      .op (.get w) (fun physNs =>
        if physNs ≠ [] then k (physNs, true)
        else .op (.find ns) (fun found => found.elim (k ([], false)) (fun ref =>
          .op (.getSlot ref w) (fun slot => .op (.count slot) (fun _ =>
            .op (.put w slot) (fun _ => k (slot, false))))))) := by
  refine congrArg (Program.op (Access.get w)) (funext fun (physNs : GoString) => ?_)
  change Program.bind (if physNs ≠ [] then _ else _) k = _
  by_cases hne : physNs ≠ []
  · rw [if_pos hne, if_pos hne]
    rfl
  · rw [if_neg hne, if_neg hne]
    refine congrArg (Program.op (Access.find ns)) (funext fun found => ?_)
    cases found with
    | none => rfl
    | some ref => rfl

theorem Incoming.routine_eq {c : Incoming} (hw : c.workflowID = .ok w) :
    c.routine = Traffic.arrived w c.ns c.deletes := by
  have hfinish (slot : GoString) :
      (Traffic.complete w (Traffic.commands c.method c.message) >>= fun _ => pure (.ok slot)) =
        Traffic.finishing w slot c.deletes := by
    rw [complete_bind, Traffic.countP_commands, deletes]
  have hw : c.method.kind.workflowID c.message = .ok w := hw
  rw [routine, Traffic.request, hw]
  refine (Traffic.resolve_bind w c.ns _).trans ?_
  simp only [hfinish]
  rfl

section Phases
variable (hash32 : GoString → UInt32) (w ns : GoString) (n : Nat)

/-- All that one access of a request can do, with a store that does not fail. -/
inductive Phase.Next : Shared → Phase → Shared → Phase → Prop
  | hit {s : Shared} (h : Mappings.stored s.db w ≠ []) :
      Next s .arrived s (.finishing (Mappings.stored s.db w) n)
  | miss {s : Shared} (h : Mappings.stored s.db w = []) : Next s .arrived s .missed
  | unregistered {s : Shared} (h : s.heap.find ns = none) : Next s .missed s (.finishing [] n)
  | found {s : Shared} {ref : Nat} (h : s.heap.find ns = some ref) : Next s .missed s (.held ref)
  | choose {s : Shared} {ref : Nat} {v : VirtualNamespace} (h : s.heap.objects[ref]? = some v) :
      Next s (.held ref) s (.chosen (v.ring.getSlot hash32 w))
  | count {s : Shared} {slot : GoString} :
      Next s (.chosen slot)
        { s with
          totalWorkflowAllocated := fun label =>
            s.totalWorkflowAllocated label + if label = slot then 1 else 0 }
        (.counted slot)
  | put {s : Shared} {slot : GoString} :
      Next s (.counted slot) { s with db := Mappings.put s.db w slot } (.finishing slot n)
  | delete {s : Shared} {slot : GoString} {deletes : Nat} :
      Next s (.finishing slot (deletes + 1)) { s with db := Mappings.delete s.db w }
        (.finishing slot deletes)

/-- Once a request has settled on a slot, the proxy has its mapping already. -/
def Phase.Fits (p : Proxy) (s : Shared) : Phase → Prop
  | .arrived => True
  | .missed => Mappings.stored s.db w = [] ∧ p.db.lookup w = s.db.lookup w
  | .held ref => Mappings.stored s.db w = [] ∧ p.db.lookup w = s.db.lookup w ∧
      s.heap.find ns = some ref
  | .chosen slot => p.db.lookup w = if n = 0 then some slot else none
  | .counted slot => p.db.lookup w = if n = 0 then some slot else none
  | .finishing _ deletes => deletes ≠ 0 → p.db.lookup w = none

end Phases

section Steps
variable {lib : External} {handsOut : GoString → GoString → GoString → Prop} {w ns : GoString}
  {n : Nat}

theorem Phase.next_of_does {phase : Phase} {o : Access} {x : o.Answer}
    {rest : o.Answer → Routine (Outcome GoString)} {s s' : Shared}
    (hp : phase.program w ns n = .op o rest) (hdoes : o.Does lib .never handsOut s x s') :
    ∃ phase' : Phase, Phase.Next lib.hash32 w ns n s phase s' phase' ∧
      rest x = phase'.program w ns n := by
  cases phase with
  | arrived =>
    cases hp
    obtain ⟨rfl, rfl | ⟨hf, -⟩⟩ := hdoes
    · by_cases hne : Mappings.stored s'.db w ≠ []
      · exact ⟨_, .hit hne, if_pos hne⟩
      · exact ⟨_, .miss (not_not.mp hne), if_neg hne⟩
    · exact hf.elim
  | missed =>
    cases hp
    obtain ⟨rfl, rfl⟩ := hdoes
    cases hf : s'.heap.find ns with
    | none => exact ⟨_, .unregistered hf, rfl⟩
    | some ref => exact ⟨_, .found hf, rfl⟩
  | held ref =>
    cases hp
    obtain ⟨rfl, v, hv, rfl⟩ := hdoes
    exact ⟨_, .choose hv, rfl⟩
  | chosen slot =>
    cases hp
    cases hdoes
    exact ⟨_, .count, rfl⟩
  | counted slot =>
    cases hp
    obtain rfl | ⟨hf, -⟩ := hdoes
    · exact ⟨_, .put, rfl⟩
    · exact hf.elim
  | finishing slot deletes =>
    cases deletes with
    | zero => cases hp
    | succ deletes =>
      cases hp
      obtain rfl | ⟨hf, -⟩ := hdoes
      · exact ⟨_, .delete, rfl⟩
      · exact hf.elim

theorem Phase.Next.unique {phase phase₁ phase₂ : Phase} {s s₁ s₂ : Shared}
    (h : Phase.Next hash32 w ns n s phase s₁ phase₁)
    (h' : Phase.Next hash32 w ns n s phase s₂ phase₂) : s₁ = s₂ ∧ phase₁ = phase₂ := by
  cases h with
  | hit hs =>
    cases h' with
    | hit => exact ⟨rfl, rfl⟩
    | miss hs' => exact absurd hs' hs
  | miss hs =>
    cases h' with
    | hit hs' => exact absurd hs hs'
    | miss => exact ⟨rfl, rfl⟩
  | unregistered hf =>
    cases h' with
    | unregistered => exact ⟨rfl, rfl⟩
    | found hf' => cases hf.symm.trans hf'
  | found hf =>
    cases h' with
    | unregistered hf' => cases hf.symm.trans hf'
    | found hf' =>
      cases hf.symm.trans hf'
      exact ⟨rfl, rfl⟩
  | choose hv =>
    cases h' with
    | choose hv' =>
      cases hv.symm.trans hv'
      exact ⟨rfl, rfl⟩
  | count =>
    cases h'
    exact ⟨rfl, rfl⟩
  | put =>
    cases h'
    exact ⟨rfl, rfl⟩
  | delete =>
    cases h'
    exact ⟨rfl, rfl⟩

theorem Phase.Fits.of_not_busy {phase : Phase} (h : ¬ phase.Busy) (p : Proxy) (s : Shared) :
    phase.Fits w ns n p s := by
  cases phase with
  | arrived => trivial
  | missed => exact absurd trivial h
  | held ref => exact absurd trivial h
  | chosen slot => exact absurd trivial h
  | counted slot => exact absurd trivial h
  | finishing slot deletes => exact fun hd => absurd hd h

theorem Phase.Fits.frame {phase : Phase} {p p' : Proxy} {s s' : Shared}
    (h : phase.Fits w ns n p s) (hp : p'.db.lookup w = p.db.lookup w)
    (hs : s'.db.lookup w = s.db.lookup w)
    (hfind : ∀ ref, s.heap.find ns = some ref → s'.heap.find ns = some ref) :
    phase.Fits w ns n p' s' := by
  have hstored : Mappings.stored s'.db w = Mappings.stored s.db w := by
    rw [Mappings.stored_eq, Mappings.stored_eq, hs]
  cases phase with
  | arrived => trivial
  | missed => exact ⟨hstored.trans h.1, by rw [hp, hs, h.2]⟩
  | held ref => exact ⟨hstored.trans h.1, by rw [hp, hs, h.2.1], hfind ref h.2.2⟩
  | chosen slot => exact hp.trans h
  | counted slot => exact hp.trans h
  | finishing slot deletes => exact fun hd => hp.trans (h hd)

/-- The proxy that handles one thing at a time keeps up with an access of a request. -/
structure Follows (w ns : GoString) (n : Nat) (p : Proxy) (s : Shared) (phase : Phase)
    (p' : Proxy) (s' : Shared) (phase' : Phase) : Prop where
  fits : phase'.Fits w ns n p' s'
  settled : ¬ phase'.Busy → p'.db.lookup w = s'.db.lookup w
  elsewhere : ∀ key, key ≠ w →
    p'.db.lookup key = p.db.lookup key ∧ s'.db.lookup key = s.db.lookup key
  heap : s'.heap = s.heap
  registry : p'.registry = p.registry
  counted : ∀ label,
    p'.totalWorkflowAllocated label + s.totalWorkflowAllocated label + phase.pending label =
      p.totalWorkflowAllocated label + s'.totalWorkflowAllocated label + phase'.pending label

theorem lookup_removed (db : Redis) (w : GoString) (n : Nat) :
    (replay db (List.replicate n (.delete w : StoreWrite))).lookup w =
      if n = 0 then db.lookup w else none := by
  by_cases hn : n = 0
  · rw [if_pos hn, hn]
    rfl
  · rw [if_neg hn]
    exact lookup_replay_deletes db w (Nat.pos_of_ne_zero hn)

theorem lookup_removed_of_ne (db : Redis) (n : Nat) {key w : GoString} (h : key ≠ w) :
    (replay db (List.replicate n (.delete w : StoreWrite))).lookup key = db.lookup key := by
  apply lookup_replay_of_forall_ne
  intro d hd
  rw [(List.mem_replicate.mp hd).2]
  exact h

theorem follows_removed {p : Proxy} {s : Shared} {phase : Phase}
    (hpending : ∀ label, phase.pending label = 0) (hentry : p.db.lookup w = s.db.lookup w)
    (slot : GoString) :
    Follows w ns n p s phase
      { p with db := replay p.db (List.replicate n (.delete w : StoreWrite)) } s
      (.finishing slot n) where
  fits hd := (lookup_removed p.db w n).trans (if_neg hd)
  settled hd := by
    refine (lookup_removed p.db w n).trans ?_
    rw [if_pos (not_not.mp hd), hentry]
  elsewhere key hkey := ⟨lookup_removed_of_ne p.db n hkey, rfl⟩
  heap := rfl
  registry := rfl
  counted label := by
    rw [hpending label]
    rfl

theorem Incoming.route_eq (c : Incoming) (hash32 : GoString → UInt32)
    (hw : c.workflowID = .ok w) (p : Proxy) :
    c.route hash32 p = (.ok (p.resolve hash32 ⟨w, c.ns⟩).1.1,
      { (p.resolve hash32 ⟨w, c.ns⟩).2 with
        db := replay (p.resolve hash32 ⟨w, c.ns⟩).2.db
          (List.replicate c.deletes (.delete w : StoreWrite)) }) :=
  Method.route_of_ok hw p

theorem Incoming.follow_hit {c : Incoming} (hw : c.workflowID = .ok w) {p : Proxy} {s : Shared}
    (hidle : p.db.lookup w = s.db.lookup w) (hne : Mappings.stored s.db w ≠ []) :
    (c.route lib.hash32 p).1 = .ok (Mappings.stored s.db w) ∧
      Follows w c.ns c.deletes p s .arrived (c.route lib.hash32 p).2 s
        (.finishing (Mappings.stored s.db w) c.deletes) := by
  have hstored : Mappings.stored p.db w = Mappings.stored s.db w := by
    rw [Mappings.stored_eq, Mappings.stored_eq, hidle]
  rw [c.route_eq lib.hash32 hw, Proxy.resolve_hit (by rw [hstored]; exact hne), hstored]
  exact ⟨rfl, follows_removed (fun _ => rfl) hidle _⟩

theorem Incoming.follow_unregistered {c : Incoming} (hw : c.workflowID = .ok w) {p : Proxy}
    {s : Shared} (hfits : Phase.missed.Fits w c.ns c.deletes p s)
    (hrep : s.heap.Represents p.registry) (hfind : s.heap.find c.ns = none) :
    (c.route lib.hash32 p).1 = .ok [] ∧
      Follows w c.ns c.deletes p s .missed (c.route lib.hash32 p).2 s
        (.finishing [] c.deletes) := by
  obtain ⟨hmiss, hentry⟩ := hfits
  have hstored : Mappings.stored p.db w = [] := by
    rw [Mappings.stored_eq, hentry, ← Mappings.stored_eq, hmiss]
  rw [c.route_eq lib.hash32 hw, Proxy.resolve_unregistered hstored (hrep.find_none hfind)]
  exact ⟨rfl, follows_removed (fun _ => rfl) hentry _⟩

theorem Incoming.follow_choose {c : Incoming} (hw : c.workflowID = .ok w) {p : Proxy}
    {s : Shared} {v : VirtualNamespace} (hfits : (Phase.held ref).Fits w c.ns c.deletes p s)
    (hrep : s.heap.Represents p.registry) (hv : s.heap.objects[ref]? = some v) :
    (c.route lib.hash32 p).1 = .ok (v.ring.getSlot lib.hash32 w) ∧
      Follows w c.ns c.deletes p s (.held ref) (c.route lib.hash32 p).2 s
        (.chosen (v.ring.getSlot lib.hash32 w)) := by
  obtain ⟨hmiss, hentry, hfind⟩ := hfits
  have hstored : Mappings.stored p.db w = [] := by
    rw [Mappings.stored_eq, hentry, ← Mappings.stored_eq, hmiss]
  obtain ⟨v', hv', hresolve⟩ := hrep.find_some hfind
  cases hv.symm.trans hv'
  rw [c.route_eq lib.hash32 hw, Proxy.resolve_miss hstored hresolve]
  refine ⟨rfl, ?_⟩
  constructor
  case fits =>
    refine (lookup_removed _ w c.deletes).trans ?_
    rw [Mappings.put_lookup, if_pos rfl]
  case settled => exact fun hb => absurd trivial hb
  case elsewhere =>
    intro key hkey
    refine ⟨(lookup_removed_of_ne _ _ hkey).trans ?_, rfl⟩
    rw [Mappings.put_lookup, if_neg hkey]
  case heap => rfl
  case registry => rfl
  case counted =>
    intro label
    simp only [Phase.pending]
    omega

theorem follows_idle {phase phase' : Phase} {p : Proxy} {s s' : Shared}
    (hfits : phase'.Fits w ns n p s') (hbusy : phase'.Busy) (hdb : s'.db = s.db)
    (hheap : s'.heap = s.heap)
    (hcounted : ∀ label, s.totalWorkflowAllocated label + phase.pending label =
      s'.totalWorkflowAllocated label + phase'.pending label) :
    Follows w ns n p s phase p s' phase' where
  fits := hfits
  settled hb := absurd hbusy hb
  elsewhere key _ := ⟨rfl, by rw [hdb]⟩
  heap := hheap
  registry := rfl
  counted label := by
    have hlabel := hcounted label
    omega

theorem Phase.Next.follow_late {phase phase' : Phase} {p : Proxy} {s s' : Shared}
    (hnext : Phase.Next lib.hash32 w ns n s phase s' phase') (hslot : phase'.slot? = phase.slot?)
    (hfits : phase.Fits w ns n p s) (hidle : ¬ phase.Busy → p.db.lookup w = s.db.lookup w) :
    Follows w ns n p s phase p s' phase' := by
  cases hnext with
  | hit h => cases hslot
  | unregistered h => cases hslot
  | choose h => cases hslot
  | miss h => exact follows_idle ⟨h, hidle id⟩ trivial rfl rfl fun _ => rfl
  | found h => exact follows_idle ⟨hfits.1, hfits.2, h⟩ trivial rfl rfl fun _ => rfl
  | count => exact follows_idle hfits trivial rfl rfl fun _ => rfl
  | @put slot =>
    have hfits : p.db.lookup w = if n = 0 then some slot else none := hfits
    constructor
    case fits =>
      intro hd
      rw [hfits, if_neg hd]
    case settled =>
      intro hd
      rw [hfits, if_pos (not_not.mp hd)]
      exact ((Mappings.put_lookup s.db w slot w).trans (if_pos rfl)).symm
    case elsewhere =>
      exact fun key hkey => ⟨rfl, (Mappings.put_lookup s.db w slot key).trans (if_neg hkey)⟩
    case heap => rfl
    case registry => rfl
    case counted => exact fun label => rfl
  | @delete slot deletes =>
    have hnone : p.db.lookup w = none := hfits (Nat.succ_ne_zero deletes)
    constructor
    case fits => exact fun _ => hnone
    case settled =>
      intro _
      rw [hnone]
      exact ((Mappings.delete_lookup s.db w w).trans (if_pos rfl)).symm
    case elsewhere =>
      exact fun key hkey => ⟨rfl, (Mappings.delete_lookup s.db w key).trans (if_neg hkey)⟩
    case heap => rfl
    case registry => rfl
    case counted => exact fun label => rfl

/-- A request settles on its slot at one access, and that is when the proxy handles it. -/
theorem Incoming.follow {c : Incoming} (hw : c.workflowID = .ok w) {phase phase' : Phase}
    {p : Proxy} {s s' : Shared}
    (hnext : Phase.Next lib.hash32 w c.ns c.deletes s phase s' phase')
    (hfits : phase.Fits w c.ns c.deletes p s) (hrep : s.heap.Represents p.registry)
    (hidle : ¬ phase.Busy → p.db.lookup w = s.db.lookup w) :
    (phase'.slot? = phase.slot? ∧ Follows w c.ns c.deletes p s phase p s' phase') ∨
      phase.slot? = none ∧ ∃ slot, phase'.slot? = some slot ∧
        (c.route lib.hash32 p).1 = .ok slot ∧
        Follows w c.ns c.deletes p s phase (c.route lib.hash32 p).2 s' phase' := by
  by_cases hslot : phase'.slot? = phase.slot?
  · exact .inl ⟨hslot, hnext.follow_late hslot hfits hidle⟩
  · right
    cases hnext with
    | hit h => exact ⟨rfl, _, rfl, follow_hit hw (hidle id) h⟩
    | unregistered h => exact ⟨rfl, _, rfl, follow_unregistered hw hfits hrep h⟩
    | choose h => exact ⟨rfl, _, rfl, follow_choose hw hfits hrep h⟩
    | miss h => exact absurd rfl hslot
    | found h => exact absurd rfl hslot
    | count => exact absurd rfl hslot
    | put => exact absurd rfl hslot
    | delete => exact absurd rfl hslot

end Steps

theorem Phase.eq_arrived_of_program {phase : Phase}
    (h : phase.program w ns n = Traffic.arrived w ns n) : phase = .arrived := by
  cases phase with
  | arrived => rfl
  | missed => cases h
  | held ref => cases h
  | chosen slot => cases h
  | counted slot => cases h
  | finishing slot deletes =>
    cases deletes with
    | zero => cases h
    | succ deletes => cases h

theorem Phase.eq_finishing_of_program {phase : Phase} (h : phase.program w ns n = .ret out) :
    ∃ slot, phase = .finishing slot 0 ∧ out = .ok slot := by
  cases phase with
  | arrived => cases h
  | missed => cases h
  | held ref => cases h
  | chosen slot => cases h
  | counted slot => cases h
  | finishing slot deletes =>
    cases deletes with
    | zero =>
      cases h
      exact ⟨slot, rfl, rfl⟩
    | succ deletes => cases h

theorem Phase.Next.arrived_or_busy {phase phase' : Phase}
    (h : Phase.Next hash32 w ns n s phase s' phase') : phase = .arrived ∨ phase.Busy := by
  cases h with
  | hit h => exact .inl rfl
  | miss h => exact .inl rfl
  | delete => exact .inr (Nat.succ_ne_zero _)
  | _ => exact .inr trivial

end Tempura
