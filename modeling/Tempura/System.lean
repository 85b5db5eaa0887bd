import Tempura.Base.Run
import Tempura.ConnPark
import Tempura.Handlers

namespace Tempura
open Base
set_option autoImplicit true

/-- The atomic steps of a proxy; a restart comes with the order in which the load visits the schema.
-/
inductive Event where
  | registry (st : RegistryStep)
  | request (m : Method) (req : m.Message)
  | poll (kind : PollKind) (virtual : GoString) (arrivals : List PollResult)
  | checkpoint
  | restart (visit : SchemaVisit)

namespace Event

/-- What the outside world may choose in a state. -/
def Enabled (lib : External) (s : Proxy) : Event → Prop
  | .registry _ => True
  | .request _ _ => True
  | .poll _ virtual arrivals =>
    ∀ v, s.registry.resolve virtual = some v → Arrivals v.getAllNamespaces arrivals
  | .checkpoint => True
  | .restart visit => VisitsReply lib.json (s.db.lookup registryKey) visit

/-- The event carries the workflow id `w`, in its request or in the task it returns. -/
def Names (lib : External) (w : GoString) : Event → Prop
  | .registry _ => False
  | .request m req => m.kind.workflowID req = .ok w
  | .poll kind _ arrivals => ∃ res resp task,
      firstTask lib kind arrivals = some (res, resp, task) ∧
        getWorkflowId task.workflowExecution = w
  | .checkpoint => False
  | .restart _ => False

end Event

def Proxy.step (lib : External) (s : Proxy) : Event → Proxy
  | .registry st => { s with registry := s.registry.step lib.hash32 st }
  | .request m req => (m.route lib.hash32 s req).2
  | .poll kind virtual arrivals => (fanOut lib kind s virtual arrivals).2
  | .checkpoint => { s with db := checkpoint lib.json s.registry s.db }
  | .restart visit =>
    { s with
      registry :=
        newVirtualNamespaceRegistry lib.hash32 lib.json (s.db.lookup registryKey) visit
      totalWorkflowAllocated := fun _ => 0 }

def pollWrites (lib : External) (kind : PollKind) (s : Proxy) (virtual : GoString)
    (arrivals : List PollResult) : List StoreWrite :=
  match s.registry.resolve virtual with
  | none => []
  | some v =>
    if v.getAllNamespaces.length = 0 then []
    else
      match (pollLoop lib kind {} arrivals).2 with
      | none => []
      | some (workflowID, physNs) => [.put (.tenant virtual) workflowID physNs]

def Event.writes (lib : External) (s : Proxy) : Event → List StoreWrite
  | .registry _ => []
  | .request m req => m.writes lib.hash32 s req
  | .poll kind virtual arrivals => pollWrites lib kind s virtual arrivals
  | .checkpoint =>
    match lib.json.marshal s.registry.schema with
    | .error _ => []
    | .ok byteData => [.put .checkpoint registryKey byteData]
  | .restart _ => []

theorem fanOut_proxy (lib : External) (kind : PollKind) (s : Proxy) (virtual : GoString)
    (arrivals : List PollResult) :
    (fanOut lib kind s virtual arrivals).2 =
      { s with db := replay s.db (pollWrites lib kind s virtual arrivals) } := by
  rw [fanOut, pollWrites]
  cases s.registry.resolve virtual with
  | none => rfl
  | some v =>
    simp only
    split
    · rfl
    · have hif (p q : Outcome UpstreamResponse) (c : Bool) (s' : Proxy) :
          (if c then (p, s') else (q, s')).2 = s' := by cases c <;> rfl
      rw [hif]
      cases (pollLoop lib kind {} arrivals).2 <;> rfl

theorem Proxy.step_db (lib : External) (s : Proxy) (e : Event) :
    (s.step lib e).db = replay s.db (e.writes lib s) := by
  cases e with
  | registry st => rfl
  | request m req => exact Method.route_db m req s
  | poll kind virtual arrivals =>
    rw [step, fanOut_proxy]
    rfl
  | checkpoint =>
    rw [step, Event.writes]
    simp only [checkpoint]
    cases lib.json.marshal s.registry.schema <;> rfl
  | restart visit => rfl

@[simp] theorem Proxy.step_request_registry (lib : External) (s : Proxy) (m : Method)
    (req : m.Message) : (s.step lib (.request m req)).registry = s.registry :=
  Method.route_registry m req s

/-- The reasons for which a step writes to the store. -/
inductive Cause (lib : External) (s : Proxy) : Event → StoreWrite → Prop
  | resolve {m : Method} {req : m.Message} {w : GoString} {v : VirtualNamespace}
      (hw : m.kind.workflowID req = .ok w) (hmiss : Mappings.stored s.db w = [])
      (hv : s.registry.resolve (m.kind.ns req) = some v) :
      Cause lib s (.request m req)
        (.put (.tenant (m.kind.ns req)) w (v.ring.getSlot lib.hash32 w))
  | complete {m : Method} {req : m.Message} {w : GoString}
      (hw : m.kind.workflowID req = .ok w) (hc : 0 < m.completions req) :
      Cause lib s (.request m req) (.delete w)
  | task {kind : PollKind} {virtual : GoString} {v : VirtualNamespace} {res : PollResult}
      {arrivals : List PollResult} {resp : UpstreamResponse} {task : PollTaskQueueResponse}
      (hv : s.registry.resolve virtual = some v)
      (ht : firstTask lib kind arrivals = some (res, resp, task))
      (hw : getWorkflowId task.workflowExecution ≠ []) :
      Cause lib s (.poll kind virtual arrivals)
        (.put (.tenant virtual) (getWorkflowId task.workflowExecution) res.physNs)
  | checkpoint {byteData : GoString} (hm : lib.json.marshal s.registry.schema = .ok byteData) :
      Cause lib s .checkpoint (.put .checkpoint registryKey byteData)

theorem taskMapping_eq_some (h : taskMapping physNs task = some (w, p)) :
    w = getWorkflowId task.workflowExecution ∧ w ≠ [] ∧ p = physNs := by
  rw [taskMapping_eq] at h
  split at h
  · cases h
  · next hne =>
    cases h
    exact ⟨rfl, hne, rfl⟩

theorem cause_of_mem_pollWrites {lib : External} {s : Proxy}
    (h : w ∈ pollWrites lib kind s virtual arrivals) :
    Cause lib s (.poll kind virtual arrivals) w := by
  rw [pollWrites] at h
  cases hv : s.registry.resolve virtual with
  | none => simp [hv] at h
  | some v =>
    simp only [hv] at h
    split at h
    · cases h
    · cases ht : firstTask lib kind arrivals with
      | none =>
        obtain ⟨text, hloop⟩ := pollLoop_of_no_task ht {}
        simp [hloop] at h
      | some first =>
        obtain ⟨res, resp, task⟩ := first
        rw [pollLoop_of_first ht] at h
        cases hl : taskMapping res.physNs task with
        | none => simp [hl] at h
        | some mapping =>
          simp only [hl, List.mem_singleton] at h
          obtain ⟨hw, hne, hp⟩ := taskMapping_eq_some hl
          rw [h, hw, hp]
          exact .task hv ht (hw ▸ hne)

theorem cause_of_mem_writes {lib : External} {s : Proxy} (e : Event) {w : StoreWrite}
    (h : w ∈ e.writes lib s) : Cause lib s e w := by
  cases e with
  | registry st => cases h
  | request m req =>
    rw [Event.writes, Method.writes] at h
    cases hk : m.kind.workflowID req with
    | ok key =>
      simp only [hk, List.mem_append, List.mem_replicate] at h
      cases h with
      | inl hr =>
        obtain ⟨v, hv, hmiss, rfl⟩ := Proxy.mem_resolveWrites hr
        exact .resolve hk hmiss hv
      | inr hd =>
        obtain ⟨hc, rfl⟩ := hd
        exact .complete hk (Nat.pos_of_ne_zero hc)
    | err e => simp [hk] at h
    | panic => simp [hk] at h
    | hang => simp [hk] at h
  | poll kind virtual arrivals => exact cause_of_mem_pollWrites h
  | checkpoint =>
    rw [Event.writes] at h
    cases hm : lib.json.marshal s.registry.schema with
    | error e => simp [hm] at h
    | ok byteData =>
      simp only [hm, List.mem_singleton] at h
      rw [h]
      exact .checkpoint hm
  | restart visit => cases h

theorem Cause.names {lib : External} {s : Proxy} (h : Cause lib s e w)
    (hkey : w.key ≠ registryKey) : e.Names lib w.key := by
  cases h with
  | resolve hw hmiss hv => exact hw
  | complete hw hc => exact hw
  | task hv ht hne => exact ⟨_, _, _, ht, rfl⟩
  | checkpoint hm => exact absurd rfl hkey

/-- A proxy state with the log of all writes since the start. -/
structure Audited where
  proxy : Proxy
  log : List StoreWrite

namespace Audited

def start : Audited := ⟨⟨.empty, ∅, fun _ => 0⟩, []⟩

def next (lib : External) (a : Audited) (e : Event) : Audited :=
  ⟨a.proxy.step lib e, a.log ++ e.writes lib a.proxy⟩

def Step (lib : External) (a : Audited) (e : Event) (a' : Audited) : Prop :=
  e.Enabled lib a.proxy ∧ a' = a.next lib e

theorem run_foldl {lib : External} (a : Audited) (es : List Event)
    (h : ∀ e ∈ es, ∀ s, e.Enabled lib s) : Run (Step lib) a es (es.foldl (next lib) a) :=
  Base.run_foldl a es (fun e he a => ⟨h e he a.proxy, rfl⟩)

theorem foldl_next_proxy (lib : External) (a : Audited) (es : List Event) :
    (es.foldl (next lib) a).proxy = es.foldl (Proxy.step lib) a.proxy := by
  induction es generalizing a with
  | nil => rfl
  | cons e es ih => exact ih (a.next lib e)

/-- In every run the store is what its log says. -/
theorem db_eq {lib : External} (h : Run (Step lib) start es a) : a.proxy.db = replay ∅ a.log := by
  induction h with
  | nil => rfl
  | snoc hr hs ih =>
    obtain ⟨_, rfl⟩ := hs
    rw [next, Proxy.step_db, ih, replay_append]

theorem lookup_eq {lib : External} (h : Run (Step lib) start es a) (k : GoString) :
    a.proxy.db.lookup k = (latest k a.log).map (·.2) := by
  rw [db_eq h, lookup_replay_empty]

end Audited

end Tempura
