import Tempura.Routing

namespace Tempura
open Base
set_option autoImplicit true

theorem lastRead_eq_none_iff {arrivals : List PollResult} :
    lastRead arrivals = none ↔ ∀ res ∈ arrivals, res.read = none := by
  simp [lastRead]

theorem lastRead_append_cons {res : PollResult} (before : List PollResult)
    (hread : res.read = some resp) {after : List PollResult}
    (hafter : ∀ r ∈ after, r.read = none) : lastRead (before ++ res :: after) = some resp := by
  have hnone : after.filterMap PollResult.read = [] := List.filterMap_eq_nil_iff.mpr hafter
  rw [lastRead, List.filterMap_append, List.filterMap_cons_some hread, hnone,
    List.getLast?_append, List.getLast?_singleton]
  rfl

section Merge
variable {lib : External} {kind : PollKind}

theorem pollLoop_start (h : firstTask lib kind arrivals = none) :
    ∃ text, pollLoop lib kind {} arrivals = ((lastRead arrivals).elim (.err text) .ok, none) := by
  obtain ⟨text, hloop⟩ := pollLoop_of_no_task h {}
  rw [Option.or_none] at hloop
  exact ⟨text, hloop⟩

theorem pollLoop_err_iff {arrivals : List PollResult} :
    (∃ text, (pollLoop lib kind {} arrivals).1 = .err text) ↔
      ∀ res ∈ arrivals, res.read = none := by
  cases hfirst : firstTask lib kind arrivals with
  | none =>
    obtain ⟨text, hloop⟩ := pollLoop_start hfirst
    rw [hloop, ← lastRead_eq_none_iff]
    cases lastRead arrivals with
    | none => exact iff_of_true ⟨text, rfl⟩ rfl
    | some resp =>
      refine iff_of_false ?_ (Option.some_ne_none resp)
      rintro ⟨text, htext⟩
      cases htext
  | some first =>
    obtain ⟨res, resp, task⟩ := first
    obtain ⟨before, after, rfl, _, htask⟩ := firstTask_eq_some_iff.mp hfirst
    rw [pollLoop_of_first hfirst]
    refine iff_of_false ?_ ?_
    · rintro ⟨text, htext⟩
      cases htext
    · intro hread
      have hres := hread res List.mem_append_cons_self
      rw [PollResult.read_of_task htask] at hres
      cases hres

end Merge

inductive PollVerdict where
  | task
  | empty
  | error
  deriving DecidableEq

def UpstreamResponse.carriesTask (lib : External) (kind : PollKind) (resp : UpstreamResponse) :
    Bool :=
  match resp.body with
  | .error _ => false
  | .ok respBodyBytes => (readTask lib kind resp.statusCode respBodyBytes).isSome

def pollVerdict (lib : External) (kind : PollKind) (arrivals : List PollResult) : PollVerdict :=
  match (pollLoop lib kind {} arrivals).1 with
  | .ok resp => if resp.carriesTask lib kind then .task else .empty
  | _ => .error

theorem PollResult.carriesTask_of_read {res : PollResult} {resp : UpstreamResponse}
    (h : res.read = some resp) : resp.carriesTask lib kind = (res.task lib kind).isSome := by
  obtain ⟨hr, bs, hb⟩ := read_eq_some_iff.mp h
  rw [task_eq hr hb, Option.isSome_map, UpstreamResponse.carriesTask, hb]

theorem pollVerdict_eq (lib : External) (kind : PollKind) (arrivals : List PollResult) :
    pollVerdict lib kind arrivals =
      if arrivals.any (fun res => (res.task lib kind).isSome) then .task
      else if arrivals.any (fun res => res.read.isSome) then .empty
      else .error := by
  rw [pollVerdict]
  cases hfirst : firstTask lib kind arrivals with
  | none =>
    have hnone := firstTask_eq_none_iff.mp hfirst
    have hany : arrivals.any (fun res => (res.task lib kind).isSome) = false := by
      rw [List.any_eq_false]
      intro res hres
      simp [hnone res hres]
    obtain ⟨text, hloop⟩ := pollLoop_start hfirst
    rw [hloop, hany]
    cases hlast : lastRead arrivals with
    | none =>
      have hread : arrivals.any (fun res => res.read.isSome) = false := by
        rw [List.any_eq_false]
        intro res hres
        simp [lastRead_eq_none_iff.mp hlast res hres]
      simp [hread]
    | some resp =>
      obtain ⟨res, hres, hread⟩ := List.mem_filterMap.mp (List.mem_of_getLast? hlast)
      have hany' : arrivals.any (fun res => res.read.isSome) = true :=
        List.any_eq_true.mpr ⟨res, hres, by rw [hread]; rfl⟩
      have hcarries : resp.carriesTask lib kind = false := by
        rw [PollResult.carriesTask_of_read hread, hnone res hres]
        rfl
      simp [hany', hcarries]
  | some first =>
    obtain ⟨res, resp, task⟩ := first
    obtain ⟨before, after, _, _, htask⟩ := firstTask_eq_some_iff.mp hfirst
    have hany : arrivals.any (fun res => (res.task lib kind).isSome) = true :=
      List.any_eq_true.mpr ⟨res, mem_of_firstTask hfirst, by rw [htask]; rfl⟩
    have hcarries : resp.carriesTask lib kind = true := by
      rw [PollResult.carriesTask_of_read (PollResult.read_of_task htask), htask]
      rfl
    rw [pollLoop_of_first hfirst, hany]
    simp [hcarries]

theorem Proxy.lookup_cache_task (s : Proxy) (physNs : GoString) (task : PollTaskQueueResponse)
    (key : GoString) :
    (s.cache (taskMapping physNs task)).db.lookup key =
      if key = getWorkflowId task.workflowExecution ∧ key ≠ [] then some physNs
      else s.db.lookup key := by
  rw [taskMapping_eq]
  by_cases hw : getWorkflowId task.workflowExecution = []
  · rw [if_pos hw, hw, if_neg (fun h => h.2 h.1)]
    rfl
  · rw [if_neg hw]
    simp only [cache, Mappings.put, FiniteMap.lookup_insert_ite]
    by_cases hk : key = getWorkflowId task.workflowExecution
    · rw [if_pos hk, if_pos ⟨hk, hk ▸ hw⟩]
    · rw [if_neg hk, if_neg (fun h => hk h.1)]

/-- A poll returns its first task and stores its mapping, or else the last response that was read,
or else an error. -/
theorem poll_merge (lib : External) (kind : PollKind) (s : Proxy) (arrivals : List PollResult) :
    let out := pollLoop lib kind {} arrivals
    let db := (s.cache out.2).db
    (∀ before res after resp task, arrivals = before ++ res :: after →
      (∀ r ∈ before, r.task lib kind = none) → res.task lib kind = some (resp, task) →
      res.resp = .ok resp ∧ out.1 = .ok resp ∧
        ∀ key, db.lookup key =
          if key = getWorkflowId task.workflowExecution ∧ key ≠ [] then some res.physNs
          else s.db.lookup key) ∧
    ((∀ res ∈ arrivals, res.task lib kind = none) → db = s.db ∧
      ∀ before res after resp, arrivals = before ++ res :: after → res.read = some resp →
        (∀ r ∈ after, r.read = none) → res.resp = .ok resp ∧ out.1 = .ok resp) ∧
    ((∃ text, out.1 = .err text) ↔ ∀ res ∈ arrivals, res.read = none) ∧
    ∀ arrivals', arrivals'.Perm arrivals →
      pollVerdict lib kind arrivals' = pollVerdict lib kind arrivals := by
  intro out db
  refine ⟨?_, ?_, pollLoop_err_iff, ?_⟩
  · intro before res after resp task harr hbefore htask
    have hfirst := firstTask_eq_some_iff.mpr ⟨before, after, harr, hbefore, htask⟩
    have hloop : out = (.ok resp, taskMapping res.physNs task) := pollLoop_of_first hfirst {}
    obtain ⟨hresp, _⟩ := PollResult.read_eq_some_iff.mp (PollResult.read_of_task htask)
    refine ⟨hresp, by rw [hloop], ?_⟩
    intro key
    simp only [db, hloop]
    exact s.lookup_cache_task res.physNs task key
  · intro hnone
    obtain ⟨text, hloop⟩ := pollLoop_start (firstTask_eq_none_iff.mpr hnone)
    constructor
    · simp only [db, out, hloop]
      rfl
    · rintro before res after resp rfl hread hafter
      rw [lastRead_append_cons before hread hafter] at hloop
      obtain ⟨hresp, _⟩ := PollResult.read_eq_some_iff.mp hread
      exact ⟨hresp, by simp only [out, hloop, Option.elim_some]⟩
  · intro arrivals' hperm
    rw [pollVerdict_eq, pollVerdict_eq, hperm.any_eq, hperm.any_eq]

theorem poll_merge_task :
    let out := pollLoop sampleExternal .workflow {}
      [⟨orders2, .error (lit "timeout")⟩, ⟨orders1, .ok sampleResponse⟩]
    out.1 = .ok sampleResponse ∧
      ((singleSlot (lit "orders") (lit "c1.local:7233")).cache out.2).db.lookup (lit "w1") =
        some orders1 := by
  have h := (poll_merge sampleExternal .workflow (singleSlot (lit "orders") (lit "c1.local:7233"))
    [⟨orders2, .error (lit "timeout")⟩, ⟨orders1, .ok sampleResponse⟩]).1
    [⟨orders2, .error (lit "timeout")⟩] ⟨orders1, .ok sampleResponse⟩ [] sampleResponse
    (taskOf sampleToken) rfl (by simp [PollResult.task]) rfl
  exact ⟨h.2.1, h.2.2 (lit "w1")⟩

end Tempura
