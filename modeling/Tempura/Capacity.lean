import Tempura.Base.Run
import Tempura.RingLaws
import Tempura.VirtualNamespace

namespace Tempura
open Base
set_option autoImplicit true

def VirtualNamespace.outcome (hash32 : GoString → UInt32) (v : VirtualNamespace) :
    NamespaceCall → Outcome Unit
  | .add _ => .ok ()
  | .remove name => (v.remove hash32 name).1

def namespaceAfter (hash32 : GoString → UInt32) (name : GoString) (calls : List NamespaceCall) :
    VirtualNamespace :=
  calls.foldl (VirtualNamespace.call hash32) (newVirtualNamespace name)

/-- A virtual node with hash `h` outlives the call. -/
def NamespaceCall.spares (hash32 : GoString → UInt32) (h : UInt32) : NamespaceCall → Bool
  | .add _ => true
  | .remove name => !(vnodeHashes hash32 defaultVirtualNodes name).contains h

def NamespaceCall.places (hash32 : GoString → UInt32) : NamespaceCall → List UInt32
  | .add name => vnodeHashes hash32 defaultVirtualNodes name
  | .remove _ => []

/-- The virtual nodes that the calls placed and that share their hash with no name removed later. -/
def keptVnodes (hash32 : GoString → UInt32) : List NamespaceCall → List UInt32
  | [] => []
  | c :: later =>
    (c.places hash32).filter (fun h => later.all (·.spares hash32 h)) ++ keptVnodes hash32 later

theorem keptVnodes_concat (hash32 : GoString → UInt32) (calls : List NamespaceCall)
    (c : NamespaceCall) :
    keptVnodes hash32 (calls ++ [c]) =
      (keptVnodes hash32 calls).filter (c.spares hash32 ·) ++ c.places hash32 := by
  induction calls with
  | nil => simp [keptVnodes]
  | cons d calls ih =>
    rw [List.cons_append, keptVnodes, ih, keptVnodes, List.filter_append, List.filter_filter,
      List.append_assoc]
    simp [List.all_append, Bool.and_comm]

theorem VirtualNamespace.remove_outcome (v : VirtualNamespace) (name : GoString) :
    (v.remove hash32 name).1 = (v.ring.removeSlot hash32 name).1 := by
  simp only [VirtualNamespace.remove]
  split <;> rfl

theorem VirtualNamespace.call_ring_perm {v : VirtualNamespace}
    (hnodes : v.ring.virtualNodes = defaultVirtualNodes) (hperm : v.ring.ring.Perm hs)
    (c : NamespaceCall) (hok : v.outcome hash32 c = .ok ()) :
    (v.call hash32 c).ring.ring.Perm (hs.filter (c.spares hash32 ·) ++ c.places hash32) := by
  cases c with
  | add name =>
    simp only [NamespaceCall.spares, List.filter_true, NamespaceCall.places]
    exact (hnodes ▸ v.ring.addSlot_ring_perm name).trans (hperm.append_right _)
  | remove name =>
    rw [outcome, remove_outcome, ConsistentHash.removeSlot_ok_iff] at hok
    rw [call, remove_ring, ConsistentHash.removeSlot_ring, if_neg (by omega), hnodes,
      NamespaceCall.places, List.append_nil]
    simp only [NamespaceCall.spares, List.contains_eq_mem, ← decide_not]
    exact hperm.filter _

theorem VirtualNamespace.call_nodes (v : VirtualNamespace) (c : NamespaceCall) :
    (v.call hash32 c).ring.virtualNodes = v.ring.virtualNodes := by
  cases c with
  | add name => exact v.ring.addSlot_virtualNodes name
  | remove name => rw [call, remove_ring, ConsistentHash.removeSlot_virtualNodes]

theorem namespaceAfter_concat (hash32 : GoString → UInt32) (name : GoString)
    (calls : List NamespaceCall) (c : NamespaceCall) :
    namespaceAfter hash32 name (calls ++ [c]) =
      (namespaceAfter hash32 name calls).call hash32 c := by
  rw [namespaceAfter, List.foldl_append, List.foldl_cons, List.foldl_nil]
  rfl

theorem namespaceAfter_nodes (hash32 : GoString → UInt32) (name : GoString)
    (calls : List NamespaceCall) :
    (namespaceAfter hash32 name calls).ring.virtualNodes = defaultVirtualNodes := by
  induction calls using List.reverseRecOn with
  | nil => rfl
  | append_singleton calls c ih =>
    rw [namespaceAfter_concat, VirtualNamespace.call_nodes, ih]

def Completes (hash32 : GoString → UInt32) (name : GoString) (calls : List NamespaceCall) : Prop :=
  ∀ before c after, calls = before ++ c :: after →
    (namespaceAfter hash32 name before).outcome hash32 c = .ok ()

theorem Completes.of_append (h : Completes hash32 name (calls ++ later)) :
    Completes hash32 name calls := by
  intro before c after heq
  apply h before c (after ++ later)
  rw [heq, List.append_assoc, List.cons_append]

theorem Completes.ring_perm (h : Completes hash32 name calls) :
    (namespaceAfter hash32 name calls).ring.ring.Perm (keptVnodes hash32 calls) := by
  induction calls using List.reverseRecOn with
  | nil => exact .nil
  | append_singleton calls c ih =>
    obtain ⟨hinit, hlast⟩ := forall_split_concat.mp h
    rw [namespaceAfter_concat, keptVnodes_concat]
    exact VirtualNamespace.call_ring_perm (namespaceAfter_nodes _ _ _) (ih hinit) c hlast

/-- After calls that returned, a removal returns exactly if enough virtual nodes were kept. -/
theorem Completes.remove_ok_iff (h : Completes hash32 name calls) (slot : GoString) :
    (namespaceAfter hash32 name calls).outcome hash32 (.remove slot) = .ok () ↔
      defaultVirtualNodes ≤ (keptVnodes hash32 calls).length := by
  rw [VirtualNamespace.outcome, VirtualNamespace.remove_outcome, ConsistentHash.removeSlot_ok_iff,
    namespaceAfter_nodes, h.ring_perm.length_eq]

/-- Every call returns exactly if before each `Remove` the calls have kept at least as many virtual
nodes as one name has. -/
theorem calls_complete_iff (hash32 : GoString → UInt32) (name : GoString)
    (calls : List NamespaceCall) :
    (∀ before c after, calls = before ++ c :: after →
      (namespaceAfter hash32 name before).outcome hash32 c = .ok ()) ↔
    ∀ before slot after, calls = before ++ .remove slot :: after →
      defaultVirtualNodes ≤ (keptVnodes hash32 before).length := by
  constructor
  · intro h before slot after heq
    have hbefore : Completes hash32 name before := Completes.of_append (heq ▸ h)
    exact (hbefore.remove_ok_iff slot).mp (h before (.remove slot) after heq)
  · intro h
    -- from the end, since the ring before the last call is known only if all others returned
    induction calls using List.reverseRecOn with
    | nil =>
      intro before c after heq
      exact absurd heq.symm (List.append_ne_nil_of_right_ne_nil _ (List.cons_ne_nil c after))
    | append_singleton calls last ih =>
      have hcalls : Completes hash32 name calls := by
        apply ih
        intro before slot after heq
        apply h before slot (after ++ [last])
        rw [heq, List.append_assoc, List.cons_append]
      apply forall_split_concat.mpr ⟨hcalls, _⟩
      cases last with
      | add slot => rfl
      | remove slot => exact (hcalls.remove_ok_iff slot).mpr (h calls slot [] rfl)

theorem Lockstep.remove_ok_iff (h : Lockstep hash32 v) (slot : GoString) :
    v.outcome hash32 (.remove slot) = .ok () ↔ v.activeNames.Nonempty := by
  rw [VirtualNamespace.outcome, VirtualNamespace.remove_outcome, ConsistentHash.removeSlot_ok_iff,
    h.nodes, ← Int.not_lt, h.short_iff one_le_defaultVirtualNodes, Set.nonempty_iff_ne_empty]

theorem remove_of_new_panics : ¬ ∀ (hash32 : GoString → UInt32) (name : GoString)
    (calls before : List NamespaceCall) (c : NamespaceCall) (after : List NamespaceCall),
    calls = before ++ c :: after →
    (namespaceAfter hash32 name before).outcome hash32 c = .ok () := by
  intro hall
  have h := hall murmur3Sum32 (lit "orders") _ [] (.remove orders1) [] rfl
  revert h
  decide

def namespaceWith (name : GoString) (virtualNodes : Int) : VirtualNamespace :=
  ⟨name, newConsistentHash virtualNodes, ∅⟩

example (name : GoString) : newVirtualNamespace name = namespaceWith name defaultVirtualNodes := rfl

def NamespaceCall.pend (P : List GoString) : NamespaceCall → List GoString
  | .add name => name :: P
  | .remove name => P.filter (· ≠ name)

/-- The names added and not removed since, each as often as it was added. -/
def pendingAdds (calls : List NamespaceCall) : List GoString := calls.foldl NamespaceCall.pend []

/-- The virtual nodes of the names in `U` all have hashes of their own. -/
def VnodesDistinct (hash32 : GoString → UInt32) (n : Int) (U : Set GoString) : Prop :=
  ∀ s ∈ U, ∀ t ∈ U, ∀ i j : Nat, i < n → j < n →
    hash32 (vnodeName s i) = hash32 (vnodeName t j) → s = t ∧ i = j

theorem VnodesDistinct.mono (h : VnodesDistinct hash32 n U) (hsub : U' ⊆ U) :
    VnodesDistinct hash32 n U' :=
  fun s hs t ht => h s (hsub hs) t (hsub ht)

theorem VnodesDistinct.separate (h : VnodesDistinct hash32 n U) :
    Separate (vnodePoints hash32 n) U := by
  rintro s hs t ht x ⟨i, hi, rfl⟩ ⟨j, hj, he⟩
  exact (h s hs t ht i j hi hj he).1

theorem VnodesDistinct.nodup (h : VnodesDistinct hash32 n U) (hs : s ∈ U) :
    (vnodeHashes hash32 n s).Nodup := by
  apply List.Nodup.map_on _ List.nodup_range
  intro i hi j hj he
  rw [List.mem_range] at hi hj
  exact (h s hs s hs i j (by omega) (by omega) he).2

/-- The slice holds the virtual nodes of each name as often as the name is pending. -/
structure Holds (hash32 : GoString → UInt32) (n : Int) (v : VirtualNamespace)
    (P : List GoString) : Prop where
  nodes : v.ring.virtualNodes = n
  sorted : v.ring.ring.SortedLE
  slice : v.ring.ring.Perm (P.flatMap (vnodeHashes hash32 n))
  active : ∀ s, v.namespaces.lookup s = some .active ↔ s ∈ P

theorem holds_new (hash32 : GoString → UInt32) (n : Int) (name : GoString) :
    Holds hash32 n (namespaceWith name n) [] where
  nodes := rfl
  sorted := List.Pairwise.nil.sortedLE
  slice := .nil
  active s := by simp [namespaceWith]

theorem filter_pending {P : List GoString}
    (hsep : Separate (vnodePoints hash32 n) (insert name {s | s ∈ P})) :
    (P.flatMap (vnodeHashes hash32 n)).filter (fun h => h ∉ vnodeHashes hash32 n name) =
      (P.filter (· ≠ name)).flatMap (vnodeHashes hash32 n) := by
  induction P with
  | nil => rfl
  | cons s P ih =>
    have hrest := ih (hsep.mono (Set.insert_subset_insert (fun t ht => List.mem_cons_of_mem s ht)))
    rw [List.flatMap_cons, List.filter_append, hrest]
    by_cases hs : s = name
    · have hnone :
          (vnodeHashes hash32 n s).filter (fun h => h ∉ vnodeHashes hash32 n name) = [] := by
        rw [hs]
        simp
      rw [hnone, List.nil_append, List.filter_cons_of_neg (by simpa using hs)]
    · have hall : (vnodeHashes hash32 n s).filter (fun h => h ∉ vnodeHashes hash32 n name) =
          vnodeHashes hash32 n s := by
        apply filter_vnodeHashes
        intro x hx hx'
        exact hs (hsep s (Set.mem_insert_of_mem name List.mem_cons_self) name
          (Set.mem_insert name _) x hx hx')
      rw [hall, List.filter_cons_of_pos (by simpa using hs), List.flatMap_cons]

namespace Holds
variable {v : VirtualNamespace} {P : List GoString}

theorem length_eq (h : Holds hash32 n v P) (hn : 0 ≤ n) :
    (v.ring.ring.length : Int) = n * P.length := by
  have hlen := h.slice.length_eq
  simp only [List.length_flatMap, length_vnodeHashes, List.map_const',
    List.sum_replicate_nat] at hlen
  rw [hlen, Int.natCast_mul, Int.toNat_of_nonneg hn, Int.mul_comm]

theorem add (h : Holds hash32 n v P) (name : GoString) :
    Holds hash32 n (v.add hash32 name) (name :: P) where
  nodes := (v.ring.addSlot_virtualNodes name).trans h.nodes
  sorted := v.ring.addSlot_sorted name
  slice := by
    have hperm := h.nodes ▸ @ConsistentHash.addSlot_ring_perm hash32 v.ring name
    rw [List.flatMap_cons]
    exact (hperm.trans (h.slice.append_right _)).trans List.perm_append_comm
  active s := by
    rw [VirtualNamespace.add_lookup, List.mem_cons, ← h.active]
    by_cases hs : s = name <;> simp [hs]

theorem remove_ring (h : Holds hash32 n v P) (hn : 1 ≤ n) (name : GoString) :
    (v.remove hash32 name).2.ring.ring =
      v.ring.ring.filter (fun x => x ∉ vnodeHashes hash32 n name) := by
  rw [VirtualNamespace.remove_ring, ConsistentHash.removeSlot_ring, h.nodes]
  by_cases hlt : (v.ring.ring.length : Int) < n
  · have hP : P = [] := by
      rw [h.length_eq (by omega)] at hlt
      cases P with
      | nil => rfl
      | cons s P =>
        have hnonneg : 0 ≤ n * P.length := Int.mul_nonneg (by omega) (Int.natCast_nonneg _)
        rw [List.length_cons, Int.natCast_succ, Int.mul_add, Int.mul_one] at hlt
        omega
    subst hP
    rw [if_pos hlt, h.slice.eq_nil, List.filter_nil]
  · rw [if_neg hlt]

theorem remove (h : Holds hash32 n v P) (hn : 1 ≤ n)
    (hsep : Separate (vnodePoints hash32 n) (insert name {s | s ∈ P})) :
    Holds hash32 n (v.remove hash32 name).2 (P.filter (· ≠ name)) where
  nodes := by rw [VirtualNamespace.remove_ring, ConsistentHash.removeSlot_virtualNodes, h.nodes]
  sorted := by
    rw [VirtualNamespace.remove_ring]
    exact ConsistentHash.removeSlot_sorted h.sorted name
  slice := by
    rw [h.remove_ring hn, ← filter_pending hsep]
    exact h.slice.filter _
  active s := by
    rw [VirtualNamespace.remove_lookup, List.mem_filter, ← h.active, decide_eq_true_eq]
    by_cases hs : s = name
    · cases v.namespaces.lookup name <;> simp [hs]
    · simp [hs]

theorem call (h : Holds hash32 n v P) (hn : 1 ≤ n) (c : NamespaceCall)
    (hsep : Separate (vnodePoints hash32 n) (insert c.name {s | s ∈ P})) :
    Holds hash32 n (v.call hash32 c) (c.pend P) := by
  cases c with
  | add name => exact h.add name
  | remove name => exact h.remove hn hsep

theorem activeCount (h : Holds hash32 n v P) :
    FiniteMap.countValue v.namespaces .active = P.dedup.length :=
  FiniteMap.countValue_of_lookup_iff h.active

theorem length_iff (h : Holds hash32 n v P) (hn : 1 ≤ n) :
    (v.ring.ring.length : Int) = n * FiniteMap.countValue v.namespaces .active ↔ P.Nodup := by
  rw [h.length_eq (by omega), h.activeCount, Int.mul_eq_mul_left_iff (by omega), Int.natCast_inj]
  constructor
  · intro he
    exact List.dedup_eq_self.mp ((List.dedup_sublist P).eq_of_length he.symm)
  · intro hP
    rw [hP.dedup]

theorem sortedLT_iff (h : Holds hash32 n v P) (hn : 1 ≤ n)
    (hdist : VnodesDistinct hash32 n {s | s ∈ P}) : v.ring.ring.SortedLT ↔ P.Nodup := by
  have hown : ∀ s ∈ P, (vnodeHashes hash32 n s).Nodup := fun s hs => hdist.nodup hs
  rw [List.sortedLT_iff_nodup_and_sortedLE, and_iff_left h.sorted, h.slice.nodup_iff,
    List.nodup_flatMap, and_iff_right hown, List.Nodup]
  have hpoint (s : GoString) : hash32 (vnodeName s 0) ∈ vnodeHashes hash32 n s :=
    mem_vnodeHashes.mpr ⟨0, by omega, rfl⟩
  constructor
  · intro hdisj
    apply hdisj.imp
    rintro s t hst rfl
    exact hst (hpoint s) (hpoint s)
  · intro hne
    apply hne.imp_of_mem
    intro s t hs ht hst x hx hx'
    exact hst (hdist.separate s hs t ht x (mem_vnodeHashes.mp hx) (mem_vnodeHashes.mp hx'))

end Holds

theorem pend_subset {U : Set GoString} (c : NamespaceCall) (hc : c.name ∈ U)
    (hP : ∀ s ∈ P, s ∈ U) : ∀ s ∈ c.pend P, s ∈ U := by
  cases c with
  | add name => exact List.forall_mem_cons.mpr ⟨hc, hP⟩
  | remove name => exact fun s hs => hP s (List.mem_of_mem_filter hs)

theorem holds_calls {U : Set GoString} (hn : 1 ≤ n) (hsep : Separate (vnodePoints hash32 n) U)
    (name : GoString) (calls : List NamespaceCall) (hU : ∀ c ∈ calls, c.name ∈ U) :
    Holds hash32 n (calls.foldl (VirtualNamespace.call hash32) (namespaceWith name n))
      (pendingAdds calls) ∧ ∀ s ∈ pendingAdds calls, s ∈ U := by
  induction calls using List.reverseRecOn with
  | nil => exact ⟨holds_new hash32 n name, fun s hs => absurd hs List.not_mem_nil⟩
  | append_singleton calls c ih =>
    obtain ⟨hholds, hsub⟩ := ih (fun c' hc' => hU c' (List.mem_append_left _ hc'))
    have hc : c.name ∈ U := hU c List.mem_concat_self
    rw [pendingAdds, List.foldl_append, List.foldl_append]
    exact ⟨hholds.call hn c (hsep.mono (Set.insert_subset hc hsub)), pend_subset c hc hsub⟩

/-- Without collisions the slice holds each virtual node of the active names once exactly if no name
was added twice since it was last removed. -/
theorem ring_holds_once_iff (hash32 : GoString → UInt32) (virtualNodes : Int)
    (hn : 1 ≤ virtualNodes) (name : GoString) (calls : List NamespaceCall)
    (hdist : VnodesDistinct hash32 virtualNodes {s | ∃ c ∈ calls, c.name = s}) :
    let v := calls.foldl (VirtualNamespace.call hash32) (namespaceWith name virtualNodes)
    ((v.ring.ring.length : Int) = virtualNodes * FiniteMap.countValue v.namespaces .active ↔
      (pendingAdds calls).Nodup) ∧
    (v.ring.ring.SortedLT ↔ (pendingAdds calls).Nodup) ∧
    ∀ s, ((v.add hash32 s).ring.ring.length : Int) = v.ring.ring.length + virtualNodes := by
  intro v
  obtain ⟨h, hsub⟩ : Holds hash32 virtualNodes v (pendingAdds calls) ∧ _ :=
    holds_calls hn hdist.separate name calls (fun c hc => ⟨c, hc, rfl⟩)
  refine ⟨h.length_iff hn, h.sortedLT_iff hn (hdist.mono hsub), ?_⟩
  intro s
  rw [(h.add s).length_eq (by omega), h.length_eq (by omega), List.length_cons, Int.natCast_succ,
    Int.mul_add, Int.mul_one]

theorem vnodesDistinct_singleton (h : (vnodeHashes hash32 n s).Nodup) :
    VnodesDistinct hash32 n {s} := by
  rintro _ rfl _ rfl i j hi hj he
  exact ⟨rfl, List.inj_on_of_nodup_map h (List.mem_range.mpr (by omega))
    (List.mem_range.mpr (by omega)) he⟩

theorem vnodesDistinct_orders1 : VnodesDistinct murmur3Sum32 50 {orders1} :=
  vnodesDistinct_singleton (by decide +kernel)

/-- Added, removed and added again, a name is pending once. -/
theorem ring_holds_once_orders1 :
    let v := [NamespaceCall.add orders1, .remove orders1, .add orders1].foldl
      (VirtualNamespace.call murmur3Sum32) (namespaceWith (lit "orders") 50)
    v.ring.ring.SortedLT := by
  apply (ring_holds_once_iff murmur3Sum32 50 (by decide) (lit "orders")
    [.add orders1, .remove orders1, .add orders1]
    (vnodesDistinct_orders1.mono (by simp [NamespaceCall.name]))).2.1.mpr
  decide

/-- A retried `Add` of an active name puts its virtual nodes on the ring again. -/
theorem readded_name_grows_ring : ¬ ∀ (hash32 : GoString → UInt32) (virtualNodes : Int)
    (name : GoString) (calls : List NamespaceCall), 1 ≤ virtualNodes →
    (∀ before c after, calls = before ++ c :: after →
      (before.foldl (VirtualNamespace.call hash32) (namespaceWith name virtualNodes)).outcome
        hash32 c = .ok ()) →
    VnodesDistinct hash32 virtualNodes {s | ∃ c ∈ calls, c.name = s} →
    let v := calls.foldl (VirtualNamespace.call hash32) (namespaceWith name virtualNodes)
    (v.ring.ring.length : Int) = virtualNodes * FiniteMap.countValue v.namespaces .active := by
  intro hall
  have h := hall murmur3Sum32 50 (lit "orders") [.add orders1, .add orders1] (by decide) ?_
    (vnodesDistinct_orders1.mono (by simp [NamespaceCall.name]))
  · revert h
    decide +kernel
  · intro before c after heq
    cases c with
    | add name => rfl
    | remove name =>
      have hmem : .remove name ∈ [NamespaceCall.add orders1, .add orders1] := by simp [heq]
      simp at hmem

end Tempura
