import Tempura.Atomicity
import Tempura.Checkpoint

namespace Tempura
open Base
set_option autoImplicit true

section Lockstep
variable {ι ρ : Type} [DecidableEq ρ] {hash32 : GoString → UInt32} {nameOf : ρ → GoString}
  {U : Set GoString}

def LockedCall.slot? : LockedCall ρ → Option GoString
  | .add _ name => some name
  | .remove _ name => some name
  | _ => none

/-- Every virtual namespace is in lockstep, registered or not, with active names from `U`. -/
def Cells.InLockstep (hash32 : GoString → UInt32) (nameOf : ρ → GoString) (U : Set GoString)
    (c : Cells ρ) : Prop :=
  ∀ p, Lockstep hash32 (c.object nameOf p) ∧ (c.object nameOf p).activeNames ⊆ U

theorem Cells.object_set (c : Cells ρ) (p q : ρ) (v : VirtualNamespace) (hv : v.name = nameOf p) :
    (c.set p v).object nameOf q = if q = p then v else c.object nameOf q := by
  by_cases hq : q = p
  · subst q
    rw [if_pos rfl, object, set, Function.update_self, Function.update_of_ne (by simp),
      Function.update_self, ← hv]
  · rw [if_neg hq, object, set, Function.update_of_ne (by simpa using hq),
      Function.update_of_ne (by simp), Function.update_of_ne (by simp),
      Function.update_of_ne (by simpa using hq)]
    rfl

theorem Cells.InLockstep.call {c : Cells ρ} (h : c.InLockstep hash32 nameOf U)
    (hsep : Separate (vnodePoints hash32 defaultVirtualNodes) U) (p : ρ) (call : NamespaceCall)
    (hcall : call.name ∈ U) :
    (c.set p ((c.object nameOf p).call hash32 call)).InLockstep hash32 nameOf U := by
  intro q
  rw [Cells.object_set c p q _ (VirtualNamespace.call_name _ _ _)]
  split
  · obtain ⟨hlock, hsub⟩ := h p
    exact ⟨hlock.call call (hsep.mono (Set.insert_subset hcall hsub)),
      activeNames_call_subset call hcall hsub⟩
  · exact h q

theorem LockedCall.lockstep_perform (call : LockedCall ρ) {c : Cells ρ}
    (h : c.InLockstep hash32 nameOf U)
    (hsep : Separate (vnodePoints hash32 defaultVirtualNodes) U)
    (hU : ∀ slot, call.slot? = some slot → slot ∈ U) :
    (call.perform hash32 nameOf c).2.InLockstep hash32 nameOf U := by
  cases call with
  | add p name => exact h.call hsep p (.add name) (hU name rfl)
  | remove p name => exact h.call hsep p (.remove name) (hU name rfl)
  | register p => exact h
  | resolve name => exact h
  | getSize => exact h
  | getAllNamespacesWithStatus p => exact h
  | getAllNamespaces p => exact h
  | getSlot p key => exact h
  | getAllSlots p => exact h
  | checkpoint visit => exact h

theorem lockstep_performed {call : ι → LockedCall ρ} {c : Cells ρ}
    (h : c.InLockstep hash32 nameOf U)
    (hsep : Separate (vnodePoints hash32 defaultVirtualNodes) U)
    (hU : ∀ i slot, (call i).slot? = some slot → slot ∈ U) (log : List ι) :
    (performed hash32 nameOf call c log).InLockstep hash32 nameOf U := by
  induction log using List.reverseRecOn with
  | nil => exact h
  | append_singleton log i ih =>
    rw [performed_concat]
    exact (call i).lockstep_perform ih hsep (hU i)

end Lockstep

/-- A restart knows every name that was registered when the checkpoint began, with the statuses, and
where slots are apart also the routes, of one moment of the checkpoint. -/
theorem concurrent_checkpoint_reloads {ι ρ : Type} [DecidableEq ι] [DecidableEq ρ]
    (hash32 : GoString → UInt32) (json : SchemaCodec) (nameOf : ρ → GoString)
    (call : ι → LockedCall ρ) (c : Cells ρ) (turns turns' : List (Turn ι))
    (s s' : Locked ι (Guard ρ) Guard.Value (LockedAnswer ρ))
    (visit : FiniteMap GoString ρ → List (Σ _ : GoString, ρ))
    (hvisit : ∀ m, (visit m).Perm m.entries) (i : ι) (hi : call i = .checkpoint visit)
    (hrun : Run Locked.Step (LockedCall.start hash32 nameOf call c) turns s)
    (hnew : s.thread i = { code := (call i).body hash32 nameOf })
    (hrun' : Run Locked.Step s turns' s') (schema : Schema)
    (hend : (s'.thread i).code = .ret (.schema schema)) (text : GoString)
    (hjson : json.ReadsBack schema text) (order : SchemaVisit)
    (horder : VisitsReply json (some text) order) :
    let reg := newVirtualNamespaceRegistry hash32 json (some text) order
    (∀ name, ((performed hash32 nameOf call c (commits turns)).statuses name).isSome →
      (reg.resolve name).isSome) ∧
    ∀ name v, reg.resolve name = some v → ∃ log p, commits turns <+: log ∧
      log <+: commits turns ++ commits turns' ∧
      (performed hash32 nameOf call c log .registry).lookup name = some p ∧
      (∀ slot, v.namespaces.lookup slot =
        (performed hash32 nameOf call c log (.names p)).lookup slot) ∧
      ∀ U, Separate (vnodePoints hash32 defaultVirtualNodes) U →
        (∀ j slot, (call j).slot? = some slot → slot ∈ U) → c.InLockstep hash32 nameOf U →
        ∀ key, v.ring.getSlot hash32 key =
          (performed hash32 nameOf call c log (.ring p)).getSlot hash32 key := by
  intro reg
  obtain ⟨hreg, hvisits⟩ := hjson.load hash32 horder
  obtain ⟨m, hm, -, hnone, hsome⟩ := LockedCall.checkpoint_found hvisit hi hrun hnew hrun' hend
  change reg = _ at hreg
  rw [hreg]
  constructor
  · intro name hname
    rw [Cells.isSome_statuses] at hname
    obtain ⟨p, hp⟩ := Option.isSome_iff_exists.mp ((within_performed c hm).1 name hname)
    obtain ⟨n, -, -, -, hschema⟩ := hsome name p hp
    obtain ⟨slots, -, hload⟩ := resolve_loadSchema hash32 hvisits hschema
    rw [hload]
    rfl
  · intro name v hv
    cases hp : (performed hash32 nameOf call c m .registry).lookup name with
    | none =>
      rw [resolve_loadSchema_none hash32 hvisits (hnone name hp)] at hv
      cases hv
    | some p =>
      obtain ⟨n, hmn, hn, hsame, hschema⟩ := hsome name p hp
      obtain ⟨slots, hperm, hload⟩ := resolve_loadSchema hash32 hvisits hschema
      cases hload.symm.trans hv
      refine ⟨n, p, hm.trans hmn, hn, by rw [hsame, hp], loadNamespace_statuses hash32 name hperm,
        fun U hsep hU hc => ?_⟩
      obtain ⟨hlock, hsub⟩ := lockstep_performed hc hsep hU n p
      exact (hlock.loadNamespace hsub hsep hperm name).2

def orders1Schema : Schema := AList.insert (lit "orders") (AList.insert orders1 .active ∅) ∅

def orders1Text : GoString :=
  lit "\x7b\"orders\":\x7b\"orders::c1.local:7233\":\"active\"\x7d\x7d"

def orders1Codec : SchemaCodec where
  marshal _ := .ok orders1Text
  unmarshal text := if text = orders1Text then .ok orders1Schema else .error []
  unmarshal_nil schema h := by
    rw [if_neg (by decide)] at h
    cases h

theorem orders1Codec_unmarshal : orders1Codec.unmarshal orders1Text = .ok orders1Schema := by
  simp only [orders1Codec, if_true]

theorem visitsReply_orders1 :
    VisitsReply orders1Codec (some orders1Text) orders1Schema.rows := by
  intro text schema ht hu
  cases ht
  cases orders1Codec_unmarshal.symm.trans hu
  exact visits_rows orders1Schema

theorem ordersCells_lockstep (U : Set GoString) :
    ordersCells.InLockstep murmur3Sum32 (fun _ => lit "orders") U := by
  intro p
  have hnew : ordersCells.object (fun _ => lit "orders") p =
      newVirtualNamespace (lit "orders") := rfl
  rw [hnew, activeNames_new]
  exact ⟨lockstep_new murmur3Sum32 _, Set.empty_subset U⟩

theorem concurrent_checkpoint_reloads_orders : ∃ turns s v,
    Run Locked.Step ordersBegin turns s ∧
    (s.thread true).code = .ret (.schema orders1Schema) ∧
    (newVirtualNamespaceRegistry murmur3Sum32 orders1Codec (some orders1Text)
      orders1Schema.rows).resolve (lit "orders") = some v ∧
    ∃ log, log <+: commits turns ∧
      (performed murmur3Sum32 (fun _ => lit "orders") addAndCheckpoint ordersCells log
        (.names ())).lookup orders1 = v.namespaces.lookup orders1 ∧
      ∀ key, v.ring.getSlot murmur3Sum32 key =
        (performed murmur3Sum32 (fun _ => lit "orders") addAndCheckpoint ordersCells log
          (.ring ())).getSlot murmur3Sum32 key := by
  obtain ⟨turns, s, hrun, hend⟩ := addInside_run
  obtain ⟨hknown, hloaded⟩ := concurrent_checkpoint_reloads murmur3Sum32 orders1Codec
    (fun _ => lit "orders") addAndCheckpoint ordersCells [] turns ordersBegin s (·.entries)
    (fun m => .refl m.entries) true rfl .nil rfl hrun orders1Schema hend orders1Text
    ⟨orders1Schema, orders1Codec_unmarshal, orders1Schema.agrees_refl⟩ orders1Schema.rows
    visitsReply_orders1
  obtain ⟨v, hv⟩ := Option.isSome_iff_exists.mp (hknown (lit "orders") rfl)
  obtain ⟨log, p, -, hto, -, hstatuses, hroutes⟩ := hloaded (lit "orders") v hv
  refine ⟨turns, s, v, hrun, hend, hv, log, hto, (hstatuses orders1).symm, ?_⟩
  apply hroutes {orders1} (separate_orders.mono (by simp)) ?_ (ordersCells_lockstep _)
  rintro (_ | _) slot hslot
  · exact (Option.some.inj hslot).symm
  · cases hslot

end Tempura
