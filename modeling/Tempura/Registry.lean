import Tempura.PhysicalNamespace
import Tempura.VirtualNamespace

namespace Tempura
open Base
set_option autoImplicit true

structure VirtualNamespaceRegistry where
  namespaces : FiniteMap GoString VirtualNamespace

namespace VirtualNamespaceRegistry

def empty : VirtualNamespaceRegistry := ⟨∅⟩

def resolve (reg : VirtualNamespaceRegistry) (name : GoString) : Option VirtualNamespace :=
  reg.namespaces.lookup name

def register (reg : VirtualNamespaceRegistry) (v : VirtualNamespace) :
    VirtualNamespaceRegistry :=
  ⟨reg.namespaces.insert v.name v⟩

/-- The registry holds pointers, so a call shows under the name it was resolved by. -/
def update (reg : VirtualNamespaceRegistry) (name : GoString) (v : VirtualNamespace) :
    VirtualNamespaceRegistry :=
  ⟨reg.namespaces.insert name v⟩

@[simp] theorem resolve_empty (name : GoString) : empty.resolve name = none := by
  simp [empty, resolve]

theorem resolve_register_new (reg : VirtualNamespaceRegistry) (name' name : GoString) :
    (reg.register (newVirtualNamespace name')).resolve name =
      if name = name' then some (newVirtualNamespace name') else reg.resolve name :=
  FiniteMap.lookup_insert_ite _ _ _ _

theorem resolve_update (reg : VirtualNamespaceRegistry) (name' : GoString) (v : VirtualNamespace)
    (name : GoString) :
    (reg.update name' v).resolve name = if name = name' then some v else reg.resolve name :=
  FiniteMap.lookup_insert_ite _ _ _ _

end VirtualNamespaceRegistry

/-- A change of the registry: a creation, or a call on a registered namespace. -/
inductive RegistryStep where
  | create (name : GoString)
  | call (virtual : GoString) (c : NamespaceCall)
  deriving DecidableEq

def VirtualNamespaceRegistry.step (hash32 : GoString → UInt32) (reg : VirtualNamespaceRegistry) :
    RegistryStep → VirtualNamespaceRegistry
  | .create name =>
    match reg.resolve name with
    | some _ => reg
    | none => reg.register (newVirtualNamespace name)
  | .call virtual c =>
    match reg.resolve virtual with
    | some v => reg.update virtual (v.call hash32 c)
    | none => reg

theorem VirtualNamespaceRegistry.resolve_step_cases {hash32 : GoString → UInt32}
    {reg : VirtualNamespaceRegistry} {name : GoString} {v' : VirtualNamespace}
    (st : RegistryStep) (h : (reg.step hash32 st).resolve name = some v') :
    reg.resolve name = some v' ∨
      (∃ v c, st = .call name c ∧ reg.resolve name = some v ∧ v' = v.call hash32 c) ∨
      (st = .create name ∧ reg.resolve name = none ∧ v' = newVirtualNamespace name) := by
  cases st with
  | create name' =>
    rw [step] at h
    cases hr : reg.resolve name' with
    | some v => exact .inl (by simpa only [hr] using h)
    | none =>
      simp only [hr, resolve_register_new] at h
      by_cases he : name = name'
      · subst name'
        rw [if_pos rfl, Option.some.injEq] at h
        exact .inr (.inr ⟨rfl, hr, h.symm⟩)
      · rw [if_neg he] at h
        exact .inl h
  | call virtual c =>
    rw [step] at h
    cases hr : reg.resolve virtual with
    | none => exact .inl (by simpa only [hr] using h)
    | some v =>
      simp only [hr, resolve_update] at h
      by_cases he : name = virtual
      · subst virtual
        rw [if_pos rfl, Option.some.injEq] at h
        exact .inr (.inl ⟨v, c, rfl, hr, h.symm⟩)
      · rw [if_neg he] at h
        exact .inl h

theorem VirtualNamespaceRegistry.resolve_step_call {reg : VirtualNamespaceRegistry}
    (h : reg.resolve name = some v) (hash32 : GoString → UInt32) (c : NamespaceCall) :
    (reg.step hash32 (.call name c)).resolve name = some (v.call hash32 c) := by
  rw [step, h]
  simp only [resolve_update, if_true]

theorem VirtualNamespaceRegistry.resolve_step_mono {hash32 : GoString → UInt32}
    {reg : VirtualNamespaceRegistry} {name : GoString} {v : VirtualNamespace}
    (st : RegistryStep) (h : reg.resolve name = some v) :
    ∃ v', (reg.step hash32 st).resolve name = some v' ∧
      ∀ s ∈ v.getAllNamespaces, s ∈ v'.getAllNamespaces := by
  cases st with
  | create name' =>
    rw [step]
    cases hr : reg.resolve name' with
    | some v' => exact ⟨v, h, fun s hs => hs⟩
    | none =>
      have hne : name ≠ name' := by
        rintro rfl
        rw [hr] at h
        cases h
      refine ⟨v, ?_, fun s hs => hs⟩
      simp only [resolve_register_new, if_neg hne, h]
  | call virtual c =>
    rw [step]
    cases hr : reg.resolve virtual with
    | none => exact ⟨v, h, fun s hs => hs⟩
    | some w =>
      by_cases he : name = virtual
      · subst virtual
        rw [h, Option.some.injEq] at hr
        subst w
        refine ⟨v.call hash32 c, by simp only [resolve_update, if_true], ?_⟩
        intro s hs
        exact mem_getAllNamespaces_calls [c] (.inl hs)
      · refine ⟨v, ?_, fun s hs => hs⟩
        simp only [resolve_update, if_neg he, h]

end Tempura
