import Tempura.Messages
import Tempura.Resolver

namespace Tempura
open Base
set_option autoImplicit true

/-- An answer of a cluster; reading its body may fail. -/
structure UpstreamResponse where
  statusCode : Nat
  header : Bytes
  body : Except GoString Bytes

structure PollResult where
  physNs : GoString
  resp : Except GoString UpstreamResponse

/-- The request sent to one cluster. Both kinds of poll build it the same way. -/
def pollCluster (codec : ProtoCodec PollTaskQueueRequest) (originalReq : Request)
    (reqStruct : PollTaskQueueRequest) (physNs : GoString) : Outcome (Request × Bytes) :=
  match parsePhysicalNamespace physNs with
  | none => .panic
  | some ns =>
    match codec.marshal { reqStruct with ns := ns.name } with
    | .error e => .err e
    | .ok newPbPayload =>
      .ok ({ originalReq with
        urlScheme := lit "http"
        urlHost := ns.cluster.address
        host := ns.cluster.address
        contentLength := -1
        contentLengthHeader := none
        requestURI := [] }, grpcFrame newPbPayload)

section Poll
variable (lib : External)

def pollSingleCluster : Request → PollTaskQueueRequest → GoString → Outcome (Request × Bytes) :=
  pollCluster (lib.pollRequest .workflow)

def pollSingleActivityCluster :
    Request → PollTaskQueueRequest → GoString → Outcome (Request × Bytes) :=
  pollCluster (lib.pollRequest .activity)

/-- A payload that fails to decompress is read as far as it goes, or as it came. -/
def readTask (kind : PollKind) (statusCode : Nat) (respBodyBytes : Bytes) :
    Option PollTaskQueueResponse :=
  if respBodyBytes.length > 5 ∧ statusCode = 200 then
    let respPbPayload := respBodyBytes.drop 5
    let respPbPayload :=
      if respBodyBytes.head? = some 1 then
        match lib.gzip.newReader respPbPayload with
        | .error _ => respPbPayload
        | .ok () => (lib.gzip.readAll respPbPayload).1
      else respPbPayload
    match (lib.pollResponse kind).unmarshal respPbPayload with
    | .error _ => none
    | .ok pollResp => if pollResp.taskToken.length > 0 then some pollResp else none
  else none

structure PollAcc where
  lastEmptyResp : Option UpstreamResponse := none
  lastErr : Option GoString := none

inductive PollStep where
  | next (acc : PollAcc)
  | done (resp : UpstreamResponse) (task : PollTaskQueueResponse)

/-- Body of the loop over the result channel. -/
def onResult (kind : PollKind) (acc : PollAcc) (res : PollResult) : PollStep :=
  match res.resp with
  | .error e => .next { acc with lastErr := some e }
  | .ok resp =>
    match resp.body with
    | .error e => .next { acc with lastErr := some e }
    | .ok respBodyBytes =>
      match readTask lib kind resp.statusCode respBodyBytes with
      | some pollResp => .done resp pollResp
      | none => .next { acc with lastEmptyResp := some resp }

def taskMapping (physNs : GoString) (task : PollTaskQueueResponse) :
    Option (GoString × GoString) :=
  match task.workflowExecution with
  | none => none
  | some execution =>
    if execution.workflowId ≠ [] then some (execution.workflowId, physNs) else none

/-- The loop over the results as they arrive: what is returned, and the mapping that is put before.
-/
def pollLoop (kind : PollKind) (acc : PollAcc) :
    List PollResult → Outcome UpstreamResponse × Option (GoString × GoString)
  | [] =>
    match acc.lastEmptyResp with
    | some resp => (.ok resp, none)
    | none =>
      (.err (lit "all polling attempts failed, last error: " ++ acc.lastErr.getD (lit "<nil>")),
        none)
  | res :: arrivals =>
    match onResult lib kind acc res with
    | .next acc => pollLoop kind acc arrivals
    | .done resp task => (.ok resp, taskMapping res.physNs task)

end Poll

def Proxy.cache (s : Proxy) : Option (GoString × GoString) → Proxy
  | none => s
  | some (workflowID, physNs) => { s with db := Mappings.put s.db workflowID physNs }

/-- One goroutine per slot sends one result; results after a panic may never be read. -/
structure Arrivals (slots : List GoString) (arrivals : List PollResult) : Prop where
  tags : (arrivals.map (·.physNs)).Subperm slots
  parses : ∀ res ∈ arrivals, (parsePhysicalNamespace res.physNs).isSome
  complete : (∀ slot ∈ slots, (parsePhysicalNamespace slot).isSome) →
    arrivals.length = slots.length

section Execute
variable (lib : External)

/-- A poll of a virtual namespace whose slots send the results `arrivals`, in that order. -/
def fanOut (kind : PollKind) (s : Proxy) (virtualNamespaceStr : GoString)
    (arrivals : List PollResult) : Outcome UpstreamResponse × Proxy :=
  match s.registry.resolve virtualNamespaceStr with
  | none => (.err (lit "virtual namespace not found: " ++ virtualNamespaceStr), s)
  | some virtualNs =>
    let slots := virtualNs.getAllNamespaces
    if slots.length = 0 then
      (.err (lit "no physical namespaces found for virtual namespace: " ++ virtualNamespaceStr), s)
    else
      let (result, mapping) := pollLoop lib kind {} arrivals
      -- the panic of a goroutine ends the process
      if slots.all (fun slot => (parsePhysicalNamespace slot).isSome) then (result, s.cache mapping)
      else (.panic, s.cache mapping)

def executePollWith (kind : PollKind) (s : Proxy) (bodyBytes : Bytes)
    (arrivals : List PollResult) : Outcome UpstreamResponse × Proxy :=
  match extractPayload lib.gzip bodyBytes with
  | .error e => (.err (lit "failed to extract payload: " ++ e), s)
  | .ok (pbPayload, _) =>
    match (lib.pollRequest kind).unmarshal pbPayload with
    | .error e => (.err (lit "failed to unmarshal " ++ kind.requestName ++ lit ": " ++ e), s)
    | .ok reqStruct => fanOut lib kind s reqStruct.ns arrivals

def executePoll : Proxy → Bytes → List PollResult → Outcome UpstreamResponse × Proxy :=
  executePollWith lib .workflow

def executePollActivity : Proxy → Bytes → List PollResult → Outcome UpstreamResponse × Proxy :=
  executePollWith lib .activity

def PollKind.execute : PollKind → Proxy → Bytes → List PollResult →
    Outcome UpstreamResponse × Proxy
  | .workflow => executePoll lib
  | .activity => executePollActivity lib

def PollKind.decode (kind : PollKind) (bodyBytes : Bytes) : Option PollTaskQueueRequest :=
  match extractPayload lib.gzip bodyBytes with
  | .error _ => none
  | .ok (pbPayload, _) =>
    match (lib.pollRequest kind).unmarshal pbPayload with
    | .error _ => none
    | .ok reqStruct => some reqStruct

end Execute

def PollResult.task (lib : External) (kind : PollKind) (res : PollResult) :
    Option (UpstreamResponse × PollTaskQueueResponse) :=
  match res.resp with
  | .error _ => none
  | .ok resp =>
    match resp.body with
    | .error _ => none
    | .ok respBodyBytes =>
      (readTask lib kind resp.statusCode respBodyBytes).map (fun task => (resp, task))

def PollResult.read (res : PollResult) : Option UpstreamResponse :=
  match res.resp with
  | .error _ => none
  | .ok resp =>
    match resp.body with
    | .error _ => none
    | .ok _ => some resp

def firstTask (lib : External) (kind : PollKind) :
    List PollResult → Option (PollResult × UpstreamResponse × PollTaskQueueResponse)
  | [] => none
  | res :: arrivals =>
    match res.task lib kind with
    | some (resp, task) => some (res, resp, task)
    | none => firstTask lib kind arrivals

theorem taskMapping_eq (physNs : GoString) (task : PollTaskQueueResponse) :
    taskMapping physNs task =
      if getWorkflowId task.workflowExecution = [] then none
      else some (getWorkflowId task.workflowExecution, physNs) := by
  rw [taskMapping]
  cases task.workflowExecution with
  | none => rfl
  | some execution => exact ite_not _ _ _

variable {lib : External} {kind : PollKind}

theorem PollResult.read_eq_some_iff {res : PollResult} {resp : UpstreamResponse} :
    res.read = some resp ↔ res.resp = .ok resp ∧ ∃ bs, resp.body = .ok bs := by
  rw [read]
  cases res.resp with
  | error e => simp
  | ok resp' =>
    simp only [Except.ok.injEq]
    cases hb : resp'.body with
    | error e =>
      refine iff_of_false (Option.some_ne_none resp).symm ?_
      rintro ⟨rfl, bs, hbs⟩
      rw [hb] at hbs
      cases hbs
    | ok bs =>
      rw [Option.some.injEq]
      constructor
      · rintro rfl
        exact ⟨rfl, bs, hb⟩
      · exact And.left

theorem PollResult.task_eq {res : PollResult} {resp : UpstreamResponse} (hr : res.resp = .ok resp)
    (hb : resp.body = .ok bs) :
    res.task lib kind = (readTask lib kind resp.statusCode bs).map (fun task => (resp, task)) := by
  simp only [task, hr, hb]

theorem PollResult.read_of_task {res : PollResult} {resp : UpstreamResponse}
    {task : PollTaskQueueResponse} (h : res.task lib kind = some (resp, task)) :
    res.read = some resp := by
  cases hr : res.resp with
  | error e => simp [PollResult.task, hr] at h
  | ok resp' =>
    cases hb : resp'.body with
    | error e => simp [PollResult.task, hr, hb] at h
    | ok bs =>
      rw [task_eq hr hb, Option.map_eq_some_iff] at h
      obtain ⟨task', _, he⟩ := h
      cases he
      exact read_eq_some_iff.mpr ⟨hr, bs, hb⟩

theorem onResult_of_task {res : PollResult} (h : res.task lib kind = some (resp, task))
    (acc : PollAcc) : onResult lib kind acc res = .done resp task := by
  obtain ⟨hr, bs, hb⟩ := PollResult.read_eq_some_iff.mp (PollResult.read_of_task h)
  rw [PollResult.task_eq hr hb, Option.map_eq_some_iff] at h
  obtain ⟨task', ht, he⟩ := h
  cases he
  simp only [onResult, hr, hb, ht]

theorem onResult_of_no_task {res : PollResult} (h : res.task lib kind = none) (acc : PollAcc) :
    ∃ acc', onResult lib kind acc res = .next acc' ∧
      acc'.lastEmptyResp = res.read.or acc.lastEmptyResp := by
  rw [onResult, PollResult.read]
  cases hr : res.resp with
  | error e => exact ⟨_, rfl, rfl⟩
  | ok resp =>
    simp only
    cases hb : resp.body with
    | error e => exact ⟨_, rfl, rfl⟩
    | ok bs =>
      rw [PollResult.task_eq hr hb, Option.map_eq_none_iff] at h
      simp only [h]
      exact ⟨_, rfl, rfl⟩

theorem firstTask_eq_findSome (arrivals : List PollResult) :
    firstTask lib kind arrivals =
      arrivals.findSome? (fun res => (res.task lib kind).map (fun found => (res, found))) := by
  induction arrivals with
  | nil => rfl
  | cons res arrivals ih =>
    rw [firstTask, List.findSome?_cons, ih]
    cases res.task lib kind <;> rfl

theorem firstTask_eq_none_iff {arrivals : List PollResult} :
    firstTask lib kind arrivals = none ↔ ∀ res ∈ arrivals, res.task lib kind = none := by
  simp only [firstTask_eq_findSome, List.findSome?_eq_none_iff, Option.map_eq_none_iff]

theorem firstTask_eq_some_iff {arrivals : List PollResult} :
    firstTask lib kind arrivals = some (res, resp, task) ↔
      ∃ before after, arrivals = before ++ res :: after ∧
        (∀ r ∈ before, r.task lib kind = none) ∧ res.task lib kind = some (resp, task) := by
  rw [firstTask_eq_findSome, List.findSome?_eq_some_iff]
  constructor
  · rintro ⟨before, r, after, harr, hr, hbefore⟩
    obtain ⟨found, hfound, he⟩ := Option.map_eq_some_iff.mp hr
    cases he
    exact ⟨before, after, harr, fun r hr => Option.map_eq_none_iff.mp (hbefore r hr), hfound⟩
  · rintro ⟨before, after, harr, hbefore, htask⟩
    refine ⟨before, res, after, harr, by rw [htask, Option.map_some], ?_⟩
    intro r hr
    rw [hbefore r hr, Option.map_none]

theorem mem_of_firstTask {arrivals : List PollResult}
    (h : firstTask lib kind arrivals = some (res, resp, task)) : res ∈ arrivals := by
  obtain ⟨before, after, rfl, _⟩ := firstTask_eq_some_iff.mp h
  exact List.mem_append_cons_self

theorem pollLoop_of_first {arrivals : List PollResult}
    (h : firstTask lib kind arrivals = some (res, resp, task)) (acc : PollAcc) :
    pollLoop lib kind acc arrivals = (.ok resp, taskMapping res.physNs task) := by
  induction arrivals generalizing acc with
  | nil => cases h
  | cons r arrivals ih =>
    rw [firstTask] at h
    rw [pollLoop]
    cases ht : r.task lib kind with
    | some found =>
      rw [ht] at h
      cases h
      rw [onResult_of_task ht]
    | none =>
      rw [ht] at h
      obtain ⟨acc', hacc, _⟩ := onResult_of_no_task ht acc
      rw [hacc]
      exact ih h acc'

def lastRead (arrivals : List PollResult) : Option UpstreamResponse :=
  (arrivals.filterMap PollResult.read).getLast?

theorem lastRead_cons (res : PollResult) (arrivals : List PollResult) :
    lastRead (res :: arrivals) = (lastRead arrivals).or res.read := by
  rw [lastRead, List.filterMap_cons]
  cases hr : res.read with
  | none => simp [lastRead]
  | some resp => simp [lastRead, List.getLast?_cons, Option.or_some]

/-- Without a task the loop returns the last response that was read, or an error. -/
theorem pollLoop_of_no_task {arrivals : List PollResult}
    (h : firstTask lib kind arrivals = none) (acc : PollAcc) :
    ∃ text, pollLoop lib kind acc arrivals =
      (((lastRead arrivals).or acc.lastEmptyResp).elim (.err text) .ok, none) := by
  rw [firstTask_eq_none_iff] at h
  induction arrivals generalizing acc with
  | nil =>
    rw [pollLoop, lastRead, List.filterMap_nil, List.getLast?_nil, Option.none_or]
    cases acc.lastEmptyResp with
    | none => exact ⟨_, rfl⟩
    | some resp => exact ⟨[], rfl⟩
  | cons res arrivals ih =>
    obtain ⟨acc', hnext, hlast⟩ := onResult_of_no_task (h res List.mem_cons_self) acc
    obtain ⟨text, htext⟩ := ih (fun r hr => h r (List.mem_cons_of_mem res hr)) acc'
    refine ⟨text, ?_⟩
    rw [pollLoop, hnext, lastRead_cons, Option.or_assoc, ← hlast]
    exact htext

theorem PollKind.execute_ok (h : kind.execute lib s bodyBytes arrivals = (.ok resp, s')) :
    ∃ reqStruct, kind.decode lib bodyBytes = some reqStruct ∧
      fanOut lib kind s reqStruct.ns arrivals = (.ok resp, s') := by
  have hwith : executePollWith lib kind s bodyBytes arrivals = (.ok resp, s') := by
    cases kind <;> exact h
  rw [executePollWith] at hwith
  rw [decode]
  cases hx : extractPayload lib.gzip bodyBytes with
  | error e => simp [hx] at hwith
  | ok p =>
    simp only [hx] at hwith ⊢
    cases hu : (lib.pollRequest kind).unmarshal p.1 with
    | error e => simp [hu] at hwith
    | ok reqStruct =>
      simp only [hu] at hwith ⊢
      exact ⟨reqStruct, rfl, hwith⟩

theorem Arrivals.of_names {reg : VirtualNamespaceRegistry}
    (h : (reg.resolve virtual).map (·.getAllNamespaces) = some slots)
    (ha : Arrivals slots arrivals) (hv : reg.resolve virtual = some v) :
    Arrivals v.getAllNamespaces arrivals := by
  rw [hv, Option.map_some, Option.some.injEq] at h
  rw [h]
  exact ha

theorem fanOut_ok (h : fanOut lib kind s virtual arrivals = (.ok resp, s')) :
    ∃ v, s.registry.resolve virtual = some v ∧ v.getAllNamespaces.length ≠ 0 ∧
      s' = s.cache (pollLoop lib kind {} arrivals).2 := by
  rw [fanOut] at h
  cases hv : s.registry.resolve virtual with
  | none => simp [hv] at h
  | some v =>
    simp only [hv] at h
    split at h
    · cases h
    · next hlen =>
      split at h
      · rw [Prod.mk.injEq] at h
        exact ⟨v, rfl, hlen, h.2.symm⟩
      · cases h

end Tempura
