import Tempura.Base.Serial
import Tempura.Capacity
import Tempura.Checkpoint

namespace Tempura
open Base
set_option autoImplicit true

/-- The mutexes of the registry, its virtual namespaces and their rings. -/
inductive Guard (ρ : Type) where
  | registry
  | names (p : ρ)
  | ring (p : ρ)
  deriving DecidableEq

abbrev Guard.Value : Guard ρ → Type
  | .registry => FiniteMap GoString ρ
  | .names _ => FiniteMap GoString NamespaceStatus
  | .ring _ => ConsistentHash

/-- The order in which the methods take the mutexes. -/
def Guard.rank : Guard ρ → Nat
  | .registry => 0
  | .names _ => 1
  | .ring _ => 2

theorem Guard.rank_le (x : Guard ρ) : x.rank ≤ 2 := by
  cases x with
  | registry => exact Nat.zero_le 2
  | names p => exact Nat.le_succ 1
  | ring p => exact Nat.le_refl 2

abbrev Body (ρ α : Type) := Code (Guard ρ) Guard.Value α

abbrev Cells (ρ : Type) := (x : Guard ρ) → x.Value

/-! The bodies of the methods, with every access to shared data a step of its own. Every method
defers its unlock, which then comes last, also after a panic. -/

namespace Locking
section Bodies
variable {ρ : Type} (hash32 : GoString → UInt32)

def reading (x : Guard ρ) (result : x.Value → α) : Body ρ α :=
  Code.withLock x .read do
    let v ← Code.get x
    return result v

def addVnode (p : ρ) (slot : GoString) (i : Nat) : Body ρ Unit := do
  let hash := hash32 (vnodeName slot i)
  Code.modify (.ring p) (fun ch => { ch with ring := ch.ring ++ [hash] })
  Code.modify (.ring p) (fun ch => { ch with vnodeToSlot := ch.vnodeToSlot.insert hash slot })

def addSlot (p : ρ) (slot : GoString) : Body ρ Unit :=
  Code.withLock (.ring p) .write do
    let ch : ConsistentHash ← Code.get (Guard.ring p)
    forM (List.range ch.virtualNodes.toNat) (addVnode hash32 p slot)
    Code.modify (.ring p) (fun ch => { ch with ring := ch.ring.insertionSort (· ≤ ·) })

def getSlot (p : ρ) (key : GoString) : Body ρ GoString :=
  Code.withLock (.ring p) .read do
    let ch : ConsistentHash ← Code.get (Guard.ring p)
    if ch.ring.length = 0 then return []
    else
      let hash := hash32 key
      let ch : ConsistentHash ← Code.get (Guard.ring p)
      let idx := search ch.ring.length (fun i => ch.ring[i]?.any (hash ≤ ·))
      let idx := if idx = ch.ring.length then 0 else idx
      let ch : ConsistentHash ← Code.get (Guard.ring p)
      return (ch.ring[idx]?.bind (ch.vnodeToSlot.lookup ·)).getD []

def removeVnode (p : ρ) (hash : UInt32) : Body ρ Unit :=
  Code.modify (.ring p) (fun ch => { ch with vnodeToSlot := ch.vnodeToSlot.erase hash })

def removeSlot (p : ρ) (slot : GoString) : Body ρ (Outcome Unit) :=
  Code.withLock (.ring p) .write do
    let ch : ConsistentHash ← Code.get (Guard.ring p)
    let hashesToRemove := vnodeHashes hash32 ch.virtualNodes slot
    forM hashesToRemove (removeVnode p)
    let ch : ConsistentHash ← Code.get (Guard.ring p)
    if (ch.ring.length : Int) - ch.virtualNodes < 0 then return .panic
    else
      let ch : ConsistentHash ← Code.get (Guard.ring p)
      let newRing := ch.ring.filter (fun hash => !hashesToRemove.contains hash)
      Code.modify (.ring p) (fun ch => { ch with ring := newRing })
      return .ok ()

def getAllSlots (p : ρ) : Body ρ (List GoString) := reading (.ring p) ConsistentHash.getAllSlots

def add (p : ρ) (name : GoString) : Body ρ (Outcome Unit) :=
  Code.withLock (.names p) .write do
    Code.modify (.names p) (·.insert name .active)
    addSlot hash32 p name
    return .ok ()

def cordon (p : ρ) (name : GoString) : Body ρ Unit := do
  let namespaces : FiniteMap GoString NamespaceStatus ← Code.get (Guard.names p)
  if (namespaces.lookup name).isSome then Code.modify (.names p) (·.insert name .cordoned)
  else return ()

def remove (p : ρ) (name : GoString) : Body ρ (Outcome Unit) :=
  Code.withLock (.names p) .write do
    cordon p name
    removeSlot hash32 p name

def getAllNamespacesWithStatus (p : ρ) : Body ρ (FiniteMap GoString NamespaceStatus) :=
  reading (.names p) (fun namespaces => namespaces)

def getAllNamespaces (p : ρ) : Body ρ (List GoString) :=
  reading (.names p) (fun namespaces => namespaces.keys)

def resolve (name : GoString) : Body ρ (Option ρ) :=
  reading .registry (fun namespaces => namespaces.lookup name)

def register (name : GoString) (p : ρ) : Body ρ Unit :=
  Code.withLock .registry .write (Code.modify .registry (·.insert name p))

def getSize : Body ρ Nat := reading .registry (fun namespaces => namespaces.keys.length)

/-- The loop of the checkpointing routine. -/
def snapshot (schema : Schema) : List (Σ _ : GoString, ρ) → Body ρ Schema
  | [] => return schema
  | e :: rest => do
    let slots ← getAllNamespacesWithStatus e.2
    snapshot (schema.insert e.1 slots) rest

/-- What a tick of the checkpointing routine collects, for any order of its loop. -/
def collect (visit : FiniteMap GoString ρ → List (Σ _ : GoString, ρ)) : Body ρ Schema :=
  Code.withLock .registry .read do
    let namespaces : FiniteMap GoString ρ ← Code.get Guard.registry
    snapshot ∅ (visit namespaces)

end Bodies

/-! ### The bodies run alone -/

section Alone
variable {ρ : Type} [DecidableEq ρ] {hash32 : GoString → UInt32}

theorem run_addSlot (p : ρ) (slot : GoString) (c : Cells ρ) :
    (addSlot hash32 p slot).run c =
      ((), Function.update c (.ring p) ((c (.ring p)).addSlot hash32 slot)) := by
  have hloop := Code.run_forM (Guard.ring p) (addVnode hash32 p slot)
    (ConsistentHash.addVnode hash32 slot)
    (fun i c => by simp [addVnode, ConsistentHash.addVnode])
    (List.range (c (.ring p)).virtualNodes.toNat) c
  simp only [addSlot, Code.run_withLock, Code.run_bind, Code.run_get, Code.run_modify, hloop,
    Function.update_self, Function.update_idem, ConsistentHash.addSlot]

theorem run_getSlot (p : ρ) (key : GoString) (c : Cells ρ) :
    (getSlot hash32 p key).run c = ((c (.ring p)).getSlot hash32 key, c) := by
  rw [getSlot, Code.run_withLock, Code.run_bind, ConsistentHash.getSlot]
  by_cases h : (c (.ring p)).ring.length = 0
  · rw [if_pos h]
    exact congrArg (Code.run · c) (if_pos h)
  · rw [if_neg h]
    exact congrArg (Code.run · c) (if_neg h)

theorem foldl_eraseVnode (hashes : List UInt32) (ch : ConsistentHash) :
    hashes.foldl (fun ch hash => { ch with vnodeToSlot := ch.vnodeToSlot.erase hash }) ch =
      { ch with vnodeToSlot := ch.vnodeToSlot.eraseAll hashes } := by
  induction hashes generalizing ch with
  | nil => rfl
  | cons hash hashes ih => exact ih _

theorem run_removeSlot (p : ρ) (slot : GoString) (c : Cells ρ) :
    (removeSlot hash32 p slot).run c =
      (((c (.ring p)).removeSlot hash32 slot).1,
        Function.update c (.ring p) ((c (.ring p)).removeSlot hash32 slot).2) := by
  have hloop := Code.run_forM (Guard.ring p) (removeVnode p)
    (fun ch hash => { ch with vnodeToSlot := ch.vnodeToSlot.erase hash })
    (fun i c => rfl) (vnodeHashes hash32 (c (.ring p)).virtualNodes slot) c
  rw [foldl_eraseVnode] at hloop
  have hkept (hashes : List UInt32) : (fun hash => !hashes.contains hash) =
      (fun hash => decide (hash ∉ hashes)) := by
    funext hash
    simp
  simp only [removeSlot, hkept, Code.run_withLock, Code.run_bind, Code.run_get, hloop,
    Function.update_self, ConsistentHash.removeSlot]
  by_cases h : ((c (.ring p)).ring.length : Int) - (c (.ring p)).virtualNodes < 0
  · simp only [if_pos h]
    rfl
  · simp only [if_neg h, Code.run_bind, Code.run_get, Code.run_modify, Code.run_pure,
      Function.update_self, Function.update_idem]
    rfl

end Alone
end Locking

def Cells.object (nameOf : ρ → GoString) (c : Cells ρ) (p : ρ) : VirtualNamespace :=
  ⟨nameOf p, c (.ring p), c (.names p)⟩

def Cells.set [DecidableEq ρ] (c : Cells ρ) (p : ρ) (v : VirtualNamespace) : Cells ρ :=
  Function.update (Function.update c (.names p) v.namespaces) (.ring p) v.ring

/-- The methods that lock something, and what a tick of the checkpointing routine collects. -/
inductive LockedCall (ρ : Type) where
  | resolve (name : GoString)
  | register (p : ρ)
  | getSize
  | add (p : ρ) (name : GoString)
  | remove (p : ρ) (name : GoString)
  | getAllNamespacesWithStatus (p : ρ)
  | getAllNamespaces (p : ρ)
  | getSlot (p : ρ) (key : GoString)
  | getAllSlots (p : ρ)
  | checkpoint (visit : FiniteMap GoString ρ → List (Σ _ : GoString, ρ))

inductive LockedAnswer (ρ : Type) where
  | pointer (p : Option ρ)
  | done
  | size (n : Nat)
  | outcome (o : Outcome Unit)
  | statuses (namespaces : FiniteMap GoString NamespaceStatus)
  | names (names : List GoString)
  | slot (slot : GoString)
  | schema (schema : Schema)

namespace LockedCall
section Calls
variable {ρ : Type} (hash32 : GoString → UInt32) (nameOf : ρ → GoString)

def body : LockedCall ρ → Body ρ (LockedAnswer ρ)
  | .resolve name => do return .pointer (← Locking.resolve name)
  | .register p => do
    Locking.register (nameOf p) p
    return .done
  | .getSize => do return .size (← Locking.getSize)
  | .add p name => do return .outcome (← Locking.add hash32 p name)
  | .remove p name => do return .outcome (← Locking.remove hash32 p name)
  | .getAllNamespacesWithStatus p => do
    return .statuses (← Locking.getAllNamespacesWithStatus p)
  | .getAllNamespaces p => do return .names (← Locking.getAllNamespaces p)
  | .getSlot p key => do return .slot (← Locking.getSlot hash32 p key)
  | .getAllSlots p => do return .names (← Locking.getAllSlots p)
  | .checkpoint visit => do return .schema (← Locking.collect visit)

/-- The call as one step, by the functions of the model. -/
def perform [DecidableEq ρ] (c : Cells ρ) : LockedCall ρ → LockedAnswer ρ × Cells ρ
  | .resolve name => (.pointer ((c .registry).lookup name), c)
  | .register p => (.done, Function.update c .registry ((c .registry).insert (nameOf p) p))
  | .getSize => (.size (c .registry).keys.length, c)
  | .add p name => (.outcome (.ok ()), c.set p ((c.object nameOf p).add hash32 name))
  | .remove p name =>
    (.outcome ((c.object nameOf p).remove hash32 name).1,
      c.set p ((c.object nameOf p).remove hash32 name).2)
  | .getAllNamespacesWithStatus p =>
    (.statuses (c.object nameOf p).getAllNamespacesWithStatus, c)
  | .getAllNamespaces p => (.names (c.object nameOf p).getAllNamespaces, c)
  | .getSlot p key => (.slot ((c.object nameOf p).ring.getSlot hash32 key), c)
  | .getAllSlots p => (.names (c.object nameOf p).ring.getAllSlots, c)
  | .checkpoint visit =>
    (.schema ((visit (c .registry)).foldl
      (fun schema e => schema.insert e.1 (c.object nameOf e.2).getAllNamespacesWithStatus) ∅), c)

end Calls
end LockedCall

section Alone
variable {ρ : Type} [DecidableEq ρ] {hash32 : GoString → UInt32} {nameOf : ρ → GoString}

theorem Locking.run_add (p : ρ) (name : GoString) (c : Cells ρ) :
    (Locking.add hash32 p name).run c =
      (.ok (), c.set p ((c.object nameOf p).add hash32 name)) := by
  simp only [Locking.add, Code.run_withLock, Code.run_bind, Code.run_modify, Locking.run_addSlot,
    Code.run_pure, Cells.set, Cells.object, VirtualNamespace.add]
  rw [Function.update_of_ne (by simp)]

theorem Locking.run_cordon (p : ρ) (name : GoString) (c : Cells ρ) :
    (Locking.cordon p name).run c =
      ((), Function.update c (.names p)
        ((c.object nameOf p).remove hash32 name).2.namespaces) := by
  rw [Locking.cordon, Code.run_bind, VirtualNamespace.remove_namespaces]
  by_cases h : ((c (.names p)).lookup name).isSome
  · rw [if_pos (show ((c.object nameOf p).namespaces.lookup name).isSome from h)]
    exact congrArg (Code.run · c) (if_pos h)
  · rw [if_neg (show ¬ ((c.object nameOf p).namespaces.lookup name).isSome from h)]
    refine (congrArg (Code.run · c) (if_neg h)).trans ?_
    exact congrArg (Prod.mk ()) (Function.update_eq_self _ _).symm

theorem Locking.run_remove (p : ρ) (name : GoString) (c : Cells ρ) :
    (Locking.remove hash32 p name).run c =
      (((c.object nameOf p).remove hash32 name).1,
        c.set p ((c.object nameOf p).remove hash32 name).2) := by
  have hring (v : FiniteMap GoString NamespaceStatus) :
      Function.update c (.names p) v (.ring p) = c (.ring p) :=
    Function.update_of_ne (by simp) _ _
  rw [Locking.remove, Code.run_withLock, Code.run_bind, @Locking.run_cordon ρ _ hash32 nameOf,
    Locking.run_removeSlot, VirtualNamespace.remove_outcome, Cells.set,
    VirtualNamespace.remove_ring]
  dsimp only
  rw [hring]
  rfl

theorem Locking.run_snapshot (c : Cells ρ) (schema : Schema) (es : List (Σ _ : GoString, ρ)) :
    (Locking.snapshot schema es).run c =
      (es.foldl (fun schema e => schema.insert e.1
        (c.object nameOf e.2).getAllNamespacesWithStatus) schema, c) := by
  induction es generalizing schema with
  | nil => rfl
  | cons e es ih =>
    rw [Locking.snapshot, Code.run_bind]
    exact ih _

/-- With nobody else around, a call does what the model says. -/
theorem LockedCall.run_body (call : LockedCall ρ) (c : Cells ρ) :
    (call.body hash32 nameOf).run c = call.perform hash32 nameOf c := by
  cases call with
  | resolve name => rfl
  | register p => rfl
  | getSize => rfl
  | add p name =>
    rw [body, Code.run_bind, @Locking.run_add ρ _ hash32 nameOf]
    rfl
  | remove p name =>
    rw [body, Code.run_bind, @Locking.run_remove ρ _ hash32 nameOf]
    rfl
  | getAllNamespacesWithStatus p => rfl
  | getAllNamespaces p => rfl
  | getSlot p key =>
    rw [body, Code.run_bind, Locking.run_getSlot]
    rfl
  | getAllSlots p => rfl
  | checkpoint visit =>
    rw [body, Code.run_bind, Locking.collect, Code.run_withLock, Code.run_bind,
      @Locking.run_snapshot ρ _ nameOf]
    rfl

end Alone

/-! ### Every call keeps to the order of the locks -/

namespace Locking
section Discipline
variable {ρ : Type} [DecidableEq ρ] {hash32 : GoString → UInt32} {held : Code.Held (Guard ρ)}

theorem held_ne_none (held : Code.Held (Guard ρ)) (x : Guard ρ) (m : Mode) :
    Function.update held x (some m) x ≠ none := by
  rw [Function.update_self]
  exact Option.some_ne_none m

theorem ordered_addVnode (slot : GoString) (i : Nat) (h : held (.ring p) = some .write) :
    (addVnode hash32 p slot i).Ordered Guard.rank held (fun _ held' => held' = held) := by
  simp only [addVnode, Code.ordered_bind, Code.ordered_modify, h, and_self]

theorem ordered_addSlot (p : ρ) (slot : GoString) (hheld : ∀ y, held y ≠ none → y.rank < 2) :
    (addSlot hash32 p slot).Ordered Guard.rank held (fun _ held' => held' = held) := by
  apply Code.Ordered.withLock hheld
  have hwrite := Function.update_self (Guard.ring p) (some Mode.write) held
  simp only [Code.ordered_bind, Code.ordered_get]
  refine ⟨held_ne_none _ _ _, fun ch => ?_⟩
  apply (Code.ordered_forM (fun i => ordered_addVnode slot i hwrite) _).mono
  rintro _ _ rfl
  exact ⟨hwrite, rfl⟩

theorem ordered_getSlot (p : ρ) (key : GoString) (hheld : ∀ y, held y ≠ none → y.rank < 2) :
    (getSlot hash32 p key).Ordered Guard.rank held (fun _ held' => held' = held) := by
  apply Code.Ordered.withLock hheld
  simp only [Code.ordered_bind, Code.ordered_get]
  refine ⟨held_ne_none _ _ _, fun ch => ?_⟩
  split
  · rfl
  · exact ⟨held_ne_none _ _ _, fun ch => ⟨held_ne_none _ _ _, fun ch => rfl⟩⟩

theorem ordered_removeVnode (hash : UInt32) (h : held (.ring p) = some .write) :
    (removeVnode p hash).Ordered Guard.rank held (fun _ held' => held' = held) :=
  ⟨h, rfl⟩

theorem ordered_removeSlot (p : ρ) (slot : GoString) (hheld : ∀ y, held y ≠ none → y.rank < 2) :
    (removeSlot hash32 p slot).Ordered Guard.rank held (fun _ held' => held' = held) := by
  apply Code.Ordered.withLock hheld
  have hwrite := Function.update_self (Guard.ring p) (some Mode.write) held
  simp only [Code.ordered_bind, Code.ordered_get]
  refine ⟨held_ne_none _ _ _, fun ch => ?_⟩
  apply (Code.ordered_forM (fun hash => ordered_removeVnode hash hwrite) _).mono
  rintro _ _ rfl
  refine ⟨held_ne_none _ _ _, fun ch' => ?_⟩
  split
  · rfl
  · exact ⟨held_ne_none _ _ _, fun ch => ⟨hwrite, rfl⟩⟩

theorem ordered_reading (x : Guard ρ) (result : x.Value → α)
    (hheld : ∀ y, held y ≠ none → y.rank < x.rank) :
    (reading x result).Ordered Guard.rank held (fun _ held' => held' = held) := by
  apply Code.Ordered.withLock hheld
  rw [Code.ordered_bind]
  exact ⟨held_ne_none _ _ _, fun v => rfl⟩

theorem ordered_register (name : GoString) (p : ρ) :
    (register name p).Ordered Guard.rank (fun _ => none) (fun _ held => held = fun _ => none) := by
  apply Code.Ordered.withLock nofun
  exact ⟨Function.update_self _ _ _, rfl⟩

theorem eq_of_held {x y : Guard ρ} {m : Mode}
    (h : Function.update (fun _ => none) x (some m) y ≠ none) : y = x := by
  by_contra hne
  rw [Function.update_of_ne hne] at h
  exact h rfl

theorem rank_lt_of_names (p : ρ) (y : Guard ρ)
    (hy : Function.update (fun _ => none) (.names p) (some Mode.write) y ≠ none) : y.rank < 2 := by
  rw [eq_of_held hy]
  exact Nat.lt_succ_self 1

theorem ordered_snapshot (schema : Schema) (es : List (Σ _ : GoString, ρ))
    (hheld : ∀ y, held y ≠ none → y.rank < 1) :
    (snapshot schema es).Ordered Guard.rank held (fun _ held' => held' = held) := by
  induction es generalizing schema with
  | nil => rfl
  | cons e es ih =>
    rw [snapshot, Code.ordered_bind]
    apply (ordered_reading (.names e.2) _ hheld).mono
    rintro slots _ rfl
    exact ih _

theorem ordered_add (p : ρ) (name : GoString) :
    (add hash32 p name).Ordered Guard.rank (fun _ => none)
      (fun _ held => held = fun _ => none) := by
  apply Code.Ordered.withLock nofun
  have hwrite := Function.update_self (β := fun _ => Option Mode) (Guard.names p)
    (some Mode.write) (fun _ => none)
  simp only [Code.ordered_bind, Code.ordered_modify]
  refine ⟨hwrite, (ordered_addSlot p name (rank_lt_of_names p)).mono ?_⟩
  rintro _ _ rfl
  rfl

theorem ordered_remove (p : ρ) (name : GoString) :
    (remove hash32 p name).Ordered Guard.rank (fun _ => none)
      (fun _ held => held = fun _ => none) := by
  apply Code.Ordered.withLock nofun
  have hwrite := Function.update_self (β := fun _ => Option Mode) (Guard.names p)
    (some Mode.write) (fun _ => none)
  have hring := @ordered_removeSlot ρ _ hash32 _ p name (rank_lt_of_names p)
  simp only [cordon, Code.ordered_bind, Code.ordered_get]
  refine ⟨held_ne_none _ _ _, fun namespaces => ?_⟩
  split
  · exact ⟨hwrite, hring⟩
  · exact hring

theorem ordered_collect (visit : FiniteMap GoString ρ → List (Σ _ : GoString, ρ)) :
    (collect visit).Ordered Guard.rank (fun _ => none) (fun _ held => held = fun _ => none) := by
  apply Code.Ordered.withLock nofun
  simp only [Code.ordered_bind, Code.ordered_get]
  refine ⟨held_ne_none _ _ _, fun namespaces => ordered_snapshot _ _ ?_⟩
  intro y hy
  rw [eq_of_held hy]
  exact Nat.lt_succ_self 0

end Discipline

section Phases
variable {ρ : Type} {hash32 : GoString → UInt32}

theorem twoPhase_addVnode (p : ρ) (slot : GoString) (i : Nat) :
    (addVnode hash32 p slot i).TwoPhase true (fun _ growing => growing = true) :=
  ⟨rfl, rfl, rfl⟩

theorem twoPhase_addSlot (p : ρ) (slot : GoString) :
    (addSlot hash32 p slot).TwoPhase true (fun _ growing => growing = false) := by
  apply Code.TwoPhase.withLock (fun _ growing => growing = true)
  simp only [Code.twoPhase_bind, Code.twoPhase_get, true_and]
  intro ch
  apply (Code.twoPhase_forM (twoPhase_addVnode p slot) _).mono
  rintro _ _ rfl
  exact ⟨rfl, rfl⟩

theorem twoPhase_getSlot (p : ρ) (key : GoString) :
    (getSlot hash32 p key).TwoPhase true (fun _ growing => growing = false) := by
  apply Code.TwoPhase.withLock (fun _ growing => growing = true)
  simp only [Code.twoPhase_bind, Code.twoPhase_get, true_and]
  intro ch
  split
  · rfl
  · exact ⟨rfl, fun ch => ⟨rfl, fun ch => rfl⟩⟩

theorem twoPhase_removeVnode (p : ρ) (hash : UInt32) :
    (removeVnode p hash).TwoPhase true (fun _ growing => growing = true) :=
  ⟨rfl, rfl⟩

theorem twoPhase_removeSlot (p : ρ) (slot : GoString) :
    (removeSlot hash32 p slot).TwoPhase true (fun _ growing => growing = false) := by
  apply Code.TwoPhase.withLock (fun _ growing => growing = true)
  simp only [Code.twoPhase_bind, Code.twoPhase_get, true_and]
  intro ch
  apply (Code.twoPhase_forM (twoPhase_removeVnode p) _).mono
  rintro _ _ rfl
  refine ⟨rfl, fun ch' => ?_⟩
  split
  · rfl
  · exact ⟨rfl, fun ch => ⟨rfl, rfl⟩⟩

theorem twoPhase_add (p : ρ) (name : GoString) :
    (add hash32 p name).TwoPhase true (fun _ growing => growing = false) := by
  apply Code.TwoPhase.withLock (fun _ growing => growing = false)
  simp only [Code.twoPhase_bind, Code.twoPhase_modify, true_and]
  exact twoPhase_addSlot p name

theorem twoPhase_remove (p : ρ) (name : GoString) :
    (remove hash32 p name).TwoPhase true (fun _ growing => growing = false) := by
  apply Code.TwoPhase.withLock (fun _ growing => growing = false)
  have hring := @twoPhase_removeSlot ρ hash32 p name
  simp only [cordon, Code.twoPhase_bind, Code.twoPhase_get, true_and]
  intro namespaces
  split
  · exact ⟨rfl, hring⟩
  · exact hring

theorem readOnly_reading (x : Guard ρ) (result : x.Value → α) : (reading x result).ReadOnly := by
  apply Code.ReadOnly.withLock
  exact fun v => trivial

theorem readOnly_snapshot (schema : Schema) (es : List (Σ _ : GoString, ρ)) :
    (snapshot schema es).ReadOnly := by
  induction es generalizing schema with
  | nil => exact trivial
  | cons e es ih =>
    rw [snapshot]
    exact Code.readOnly_bind (readOnly_reading (.names e.2) _) (fun slots => ih _)

end Phases
end Locking

namespace LockedCall
variable {ρ : Type}

/-- All calls but the checkpointing routine keep their locks until they are done. -/
def Strict : LockedCall ρ → Prop
  | .checkpoint _ => False
  | _ => True

variable (hash32 : GoString → UInt32) (nameOf : ρ → GoString)

theorem twoPhase_body (call : LockedCall ρ) (h : call.Strict) :
    (call.body hash32 nameOf).TwoPhase true (fun _ _ => True) := by
  cases call with
  | resolve name => exact ⟨rfl, rfl, fun _ => trivial⟩
  | register p => exact ⟨rfl, rfl, trivial⟩
  | getSize => exact ⟨rfl, rfl, fun _ => trivial⟩
  | add p name =>
    rw [body, Code.twoPhase_bind]
    exact (Locking.twoPhase_add p name).mono (fun _ _ _ => trivial)
  | remove p name =>
    rw [body, Code.twoPhase_bind]
    exact (Locking.twoPhase_remove p name).mono (fun _ _ _ => trivial)
  | getAllNamespacesWithStatus p => exact ⟨rfl, rfl, fun _ => trivial⟩
  | getAllNamespaces p => exact ⟨rfl, rfl, fun _ => trivial⟩
  | getSlot p key =>
    rw [body, Code.twoPhase_bind]
    exact (Locking.twoPhase_getSlot p key).mono (fun _ _ _ => trivial)
  | getAllSlots p => exact ⟨rfl, rfl, fun _ => trivial⟩
  | checkpoint visit => exact h.elim

theorem readOnly_body (call : LockedCall ρ) (h : ¬ call.Strict) :
    (call.body hash32 nameOf).ReadOnly := by
  cases call with
  | checkpoint visit =>
    refine Code.readOnly_bind (Code.ReadOnly.withLock ?_ _) (fun _ => trivial)
    exact fun namespaces => Locking.readOnly_snapshot _ _
  | _ => exact absurd trivial h

variable [DecidableEq ρ]

theorem ordered_answer {p : Body ρ α}
    (h : p.Ordered Guard.rank (fun _ => none) (fun _ held => held = fun _ => none))
    (answer : α → LockedAnswer ρ) :
    (p >>= fun a => pure (answer a)).Ordered Guard.rank (fun _ => none)
      (fun _ held => ∀ x, held x = none) := by
  rw [Code.ordered_bind]
  apply h.mono
  rintro a _ rfl x
  rfl

theorem ordered_body (call : LockedCall ρ) :
    (call.body hash32 nameOf).Ordered Guard.rank (fun _ => none)
      (fun _ held => ∀ x, held x = none) := by
  cases call with
  | resolve name => exact ordered_answer (Locking.ordered_reading .registry _ nofun) _
  | register p => exact ordered_answer (Locking.ordered_register (nameOf p) p) _
  | getSize => exact ordered_answer (Locking.ordered_reading .registry _ nofun) _
  | add p name => exact ordered_answer (Locking.ordered_add p name) _
  | remove p name => exact ordered_answer (Locking.ordered_remove p name) _
  | getAllNamespacesWithStatus p =>
    exact ordered_answer (Locking.ordered_reading (.names p) _ nofun) _
  | getAllNamespaces p => exact ordered_answer (Locking.ordered_reading (.names p) _ nofun) _
  | getSlot p key => exact ordered_answer (Locking.ordered_getSlot p key nofun) _
  | getAllSlots p => exact ordered_answer (Locking.ordered_reading (.ring p) _ nofun) _
  | checkpoint visit => exact ordered_answer (Locking.ordered_collect visit) _

end LockedCall

end Tempura
