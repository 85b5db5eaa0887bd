import Tempura.Registry

namespace Tempura
open Base
set_option autoImplicit true

structure HttpResponse where
  status : Nat
  body : GoString
  deriving DecidableEq

/-- `http.Error` ends the text with a newline. -/
def httpError (text : GoString) (status : Nat) : HttpResponse := ⟨status, text ++ lit "\n"⟩

/-- A request to the admin server, its JSON body already run through the decoder. -/
structure AdminRequest (β : Type) where
  method : GoString
  body : Except GoString β

structure CreateVirtualNamespaceRequest where
  name : GoString

structure ManagePhysicalNamespaceRequest where
  virtualNamespace : GoString
  physicalNamespace : GoString
  clusterAddress : GoString

def createVirtual (reg : VirtualNamespaceRegistry)
    (r : AdminRequest CreateVirtualNamespaceRequest) : HttpResponse × VirtualNamespaceRegistry :=
  if r.method ≠ lit "POST" then (httpError (lit "Method not allowed") 405, reg)
  else
    match r.body with
    | .error e => (httpError e 400, reg)
    | .ok req =>
      if req.name = [] then (httpError (lit "name is required") 400, reg)
      else if (reg.resolve req.name).isSome then
        (httpError (lit "virtual namespace already exists") 409, reg)
      else
        (⟨201, lit "Virtual namespace '" ++ req.name ++ lit "' created successfully\n"⟩,
          reg.register (newVirtualNamespace req.name))

/-- The two handlers for physical namespaces differ in their call and in the words of the answer. -/
def managePhysical (act : VirtualNamespace → GoString → Outcome Unit × VirtualNamespace)
    (done : GoString) (reg : VirtualNamespaceRegistry)
    (r : AdminRequest ManagePhysicalNamespaceRequest) :
    Outcome HttpResponse × VirtualNamespaceRegistry :=
  if r.method ≠ lit "POST" then (.ok (httpError (lit "Method not allowed") 405), reg)
  else
    match r.body with
    | .error e => (.ok (httpError e 400), reg)
    | .ok req =>
      if req.virtualNamespace = [] ∨ req.physicalNamespace = [] ∨ req.clusterAddress = [] then
        (.ok (httpError
          (lit "virtual_namespace, physical_namespace, and cluster_address are required") 400), reg)
      else
        match reg.resolve req.virtualNamespace with
        | none => (.ok (httpError (lit "virtual namespace not found") 404), reg)
        | some vNs =>
          let formattedName :=
            buildPhysicalNamespace req.physicalNamespace req.clusterAddress
          let (outcome, vNs) := act vNs formattedName
          let reg := reg.update req.virtualNamespace vNs
          match outcome with
          | .ok () =>
            (.ok ⟨200, lit "Physical namespace '" ++ req.physicalNamespace ++ lit "' " ++ done ++
              lit " virtual namespace '" ++ req.virtualNamespace ++ lit "'\n"⟩, reg)
          | .err e => (.err e, reg)
          | .panic => (.panic, reg)
          | .hang => (.hang, reg)

section Admin
variable (hash32 : GoString → UInt32)

def addPhysical : VirtualNamespaceRegistry → AdminRequest ManagePhysicalNamespaceRequest →
    Outcome HttpResponse × VirtualNamespaceRegistry :=
  managePhysical (fun v name => (.ok (), v.add hash32 name)) (lit "added to")

def removePhysical : VirtualNamespaceRegistry → AdminRequest ManagePhysicalNamespaceRequest →
    Outcome HttpResponse × VirtualNamespaceRegistry :=
  managePhysical (fun v name => v.remove hash32 name) (lit "removed from")

inductive AdminCall where
  | create (r : AdminRequest CreateVirtualNamespaceRequest)
  | add (r : AdminRequest ManagePhysicalNamespaceRequest)
  | remove (r : AdminRequest ManagePhysicalNamespaceRequest)

def VirtualNamespaceRegistry.admin (reg : VirtualNamespaceRegistry) :
    AdminCall → VirtualNamespaceRegistry
  | .create r => (createVirtual reg r).2
  | .add r => (addPhysical hash32 reg r).2
  | .remove r => (removePhysical hash32 reg r).2

end Admin

def AdminRequest.target (r : AdminRequest ManagePhysicalNamespaceRequest) :
    Option (GoString × GoString) :=
  if r.method ≠ lit "POST" then none
  else
    match r.body with
    | .error _ => none
    | .ok req =>
      if req.virtualNamespace = [] ∨ req.physicalNamespace = [] ∨ req.clusterAddress = [] then none
      else some (req.virtualNamespace,
        buildPhysicalNamespace req.physicalNamespace req.clusterAddress)

/-- What an accepted request does to the registry; a malformed one does nothing. -/
def AdminCall.step? : AdminCall → Option RegistryStep
  | .create r =>
    if r.method ≠ lit "POST" then none
    else
      match r.body with
      | .error _ => none
      | .ok req => if req.name = [] then none else some (.create req.name)
  | .add r => r.target.map (fun t => .call t.1 (.add t.2))
  | .remove r => r.target.map (fun t => .call t.1 (.remove t.2))

theorem managePhysical_snd (act : VirtualNamespace → GoString → Outcome Unit × VirtualNamespace)
    (done : GoString) (reg : VirtualNamespaceRegistry)
    (r : AdminRequest ManagePhysicalNamespaceRequest) :
    (managePhysical act done reg r).2 =
      match r.target with
      | none => reg
      | some t =>
        match reg.resolve t.1 with
        | none => reg
        | some v => reg.update t.1 (act v t.2).2 := by
  rw [managePhysical, AdminRequest.target]
  by_cases hm : r.method ≠ lit "POST"
  · rw [if_pos hm, if_pos hm]
  · rw [if_neg hm, if_neg hm]
    cases r.body with
    | error e => rfl
    | ok req =>
      by_cases he : req.virtualNamespace = [] ∨ req.physicalNamespace = [] ∨
          req.clusterAddress = []
      · simp only [if_pos he]
      · simp only [if_neg he]
        cases reg.resolve req.virtualNamespace with
        | none => rfl
        | some v =>
          simp only
          cases (act v (buildPhysicalNamespace req.physicalNamespace req.clusterAddress)).1 <;> rfl

theorem VirtualNamespaceRegistry.admin_eq (hash32 : GoString → UInt32)
    (reg : VirtualNamespaceRegistry) (c : AdminCall) :
    reg.admin hash32 c = match c.step? with
      | none => reg
      | some st => reg.step hash32 st := by
  cases c with
  | create r =>
    rw [admin, createVirtual, AdminCall.step?]
    by_cases hm : r.method ≠ lit "POST"
    · rw [if_pos hm, if_pos hm]
    · rw [if_neg hm, if_neg hm]
      cases r.body with
      | error e => rfl
      | ok req =>
        by_cases he : req.name = []
        · simp only [if_pos he]
        · simp only [if_neg he, step]
          cases reg.resolve req.name <;> rfl
  | add r =>
    rw [admin, addPhysical, managePhysical_snd, AdminCall.step?]
    cases r.target with
    | none => rfl
    | some t =>
      simp only [Option.map_some, step, VirtualNamespace.call]
      cases reg.resolve t.1 <;> rfl
  | remove r =>
    rw [admin, removePhysical, managePhysical_snd, AdminCall.step?]
    cases r.target with
    | none => rfl
    | some t =>
      simp only [Option.map_some, step, VirtualNamespace.call]
      cases reg.resolve t.1 <;> rfl

def AdminCall.slot? : AdminCall → Option GoString
  | .create _ => none
  | .add r => r.target.map (·.2)
  | .remove r => r.target.map (·.2)

theorem AdminCall.slot_of_step {c : AdminCall} {virtual : GoString} {call : NamespaceCall}
    (h : c.step? = some (.call virtual call)) : c.slot? = some call.name := by
  cases c with
  | create r =>
    rw [step?] at h
    split at h
    · cases h
    · split at h
      · cases h
      · split at h <;> cases h
  | add r =>
    obtain ⟨t, ht, he⟩ := Option.map_eq_some_iff.mp h
    cases he
    rw [slot?, ht]
    rfl
  | remove r =>
    obtain ⟨t, ht, he⟩ := Option.map_eq_some_iff.mp h
    cases he
    rw [slot?, ht]
    rfl

end Tempura
