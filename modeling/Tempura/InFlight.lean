import Tempura.Traffic

namespace Tempura
open Base
set_option autoImplicit true

/-! Requests and polls that are in progress when a rule for the slots comes into force. -/

def Method.Writes (m : Method) (req : m.Message) : Access → Prop
  | .put key _ => m.kind.workflowID req = .ok key
  | .delete key => m.kind.workflowID req = .ok key ∧
      ∃ command ∈ Traffic.commands m req, command.commandType = .completeWorkflowExecution
  | _ => True

/-- A poll puts a mapping right after it has collected the results, and deletes none. -/
def Access.Calls (lib : External) : (a : Access) → a.Answer → Access → Prop
  | .collect kind _ _, arrivals, .put w slot => (pollLoop lib kind {} arrivals).2 = some (w, slot)
  | _, _, .put _ _ => False
  | _, _, .delete _ => False
  | _, _, _ => True

/-- A call that has come to `p` may still map the workflow to the slot. -/
def TrafficCall.MayPut (lib : External) :
    TrafficCall → Routine TrafficAnswer → GoString → GoString → Prop
  | .request m req, p, w, _ => m.kind.workflowID req = .ok w ∧
      p ≠ (TrafficCall.request m req).routine lib ∧ ∀ answer, p ≠ .ret answer
  | .poll _ _, p, w, slot => ∃ rest, p = .op (.put w slot) rest

section Left
variable {lib : External}

theorem resolve_chained {m : Method} {req : m.Message} (hw : m.kind.workflowID req = .ok w) :
    (Traffic.resolve ⟨w, m.kind.ns req⟩).Chained (fun _ _ => m.Writes req) (m.Writes req) := by
  refine .perform trivial fun physNs => ?_
  split
  · exact .pure
  · refine .perform trivial fun found => ?_
    cases found with
    | none => exact .pure
    | some ref =>
      exact .perform trivial fun slot => .perform trivial fun _ => .perform hw fun _ => .pure

theorem complete_chained {m : Method} {req : m.Message} (hw : m.kind.workflowID req = .ok w)
    {commands : List Command} (hsub : commands ⊆ Traffic.commands m req) :
    (Traffic.complete w commands).Chained (fun _ _ => m.Writes req) (m.Writes req) := by
  induction commands with
  | nil => exact .pure
  | cons command commands ih =>
    obtain ⟨hmem, hsub⟩ := List.cons_subset.mp hsub
    rw [Traffic.complete]
    split
    next hcomplete => exact .perform ⟨hw, command, hmem, hcomplete⟩ fun _ => ih hsub
    next => exact ih hsub

theorem request_chained (m : Method) (req : m.Message) :
    ((TrafficCall.request m req).routine lib).Chained (fun _ _ => m.Writes req)
      (m.Writes req) := by
  refine Program.Chained.map ?_ TrafficAnswer.routed
  rw [Traffic.request]
  cases hw : m.kind.workflowID req with
  | ok w =>
    refine (resolve_chained hw).bind fun answer => ?_
    exact (complete_chained hw (List.Subset.refl _)).bind fun _ => .pure
  | err e => exact .pure
  | panic => exact .pure
  | hang => exact .pure

theorem poll_chained (kind : PollKind) (virtual : GoString) :
    ((TrafficCall.poll kind virtual).routine lib).Chained (Access.Calls lib) (fun _ => True) := by
  refine Program.Chained.map ?_ TrafficAnswer.polled
  refine .perform trivial fun found => ?_
  cases found with
  | none => exact .pure
  | some ref =>
    refine .perform trivial fun slots => ?_
    split
    · exact .pure
    · refine .perform trivial fun arrivals => ?_
      dsimp only
      cases hmapping : (pollLoop lib kind {} arrivals).2 with
      | none =>
        split
        · exact .pure
        · exact .pure
      | some pair =>
        refine .perform hmapping fun _ => ?_
        split
        · exact .pure
        · exact .pure

end Left

namespace Placement
variable {lib : External} {faults : StoreFaults}
  {handsOut : GoString → GoString → GoString → Prop} {P : Placement lib handsOut} {s : Shared}
  {p : Routine TrafficAnswer}

theorem request_inFlight {m : Method} {req : m.Message}
    (hadmits : ∀ w, m.kind.workflowID req = .ok w → P.Admits faults m req w)
    (hfree : ∀ w slot, m.kind.workflowID req = .ok w → w ≠ registryKey → P.Fits s.heap w slot)
    (h : p.Chained (fun _ _ => m.Writes req) (m.Writes req)) :
    P.rules.Meets (Access.Does lib faults handsOut) (fun _ _ => True) p s := by
  have hallowed {a : Access} {s' : Shared} (hwrites : m.Writes req a)
      (hlater : P.later s.heap s'.heap) : P.rules.allowed a s' := by
    cases a with
    | put key slot => exact fun hne => (hfree key slot hwrites hne).later hlater
    | delete key =>
      obtain ⟨hw, command, hmem, hcomplete⟩ := hwrites
      exact (hadmits key hw).completes command hmem hcomplete
    | _ => trivial
  refine .of_chained h ?_ ?_
  · rintro a rest s' rfl hlater _
    exact hallowed h.1 hlater
  · intro a s₁ x s₂ a' s' hlater₁ _ hlater₂ hwrites hlater _
    exact hallowed hwrites (P.trans (P.trans hlater₁ hlater₂) hlater)

theorem poll_inFlight
    (htasks : ∀ {heap name w slot}, handsOut name slot w → P.Fits heap w slot)
    (hnext : ∀ w slot rest, p = .op (.put w slot) rest → w ≠ registryKey → P.Fits s.heap w slot)
    {a : Access} {x : a.Answer} (h : p.Chained (Access.Calls lib) (a.Calls lib x)) :
    P.rules.Meets (Access.Does lib faults handsOut) (fun _ _ => True) p s := by
  refine .of_chained h ?_ ?_
  · rintro o rest s' rfl hlater _
    cases o with
    | put w slot => exact fun hne => (hnext w slot rest rfl hne).later hlater
    | delete key =>
      have hcalls := h.1
      cases a <;> exact hcalls.elim
    | _ => trivial
  · intro o s₁ y s₂ o' s' _ hdoes _ hcalls _ _
    cases o' with
    | put w slot =>
      cases o with
      | collect kind virtual slots =>
        obtain ⟨-, -, hhanded⟩ := hdoes
        obtain ⟨res, hres, resp, task, htask, rfl, rfl⟩ := pollLoop_mapping hcalls
        exact fun _ => htasks (hhanded res hres resp task htask)
      | _ => exact hcalls.elim
    | delete key => cases o <;> exact hcalls.elim
    | _ => trivial

variable {call : TrafficCall}

theorem meets_inFlight (hl : (call.routine lib).Leads p)
    (hadmits : ∀ m req w, call = .request m req → m.kind.workflowID req = .ok w →
      P.Admits faults m req w)
    (htasks : ∀ {heap name w slot}, handsOut name slot w → P.Fits heap w slot)
    (hflight : ∀ w slot, call.MayPut lib p w slot → w ≠ registryKey → P.Fits s.heap w slot)
    (hkept : P.Kept s) :
    P.rules.Meets (Access.Does lib faults handsOut)
      (fun answer s' => ∀ m req, call = .request m req → (∀ answer, p ≠ .ret answer) →
        P.Settled call answer s') p s := by
  cases call with
  | request m req =>
    by_cases hfresh : p = (TrafficCall.request m req).routine lib
    · subst hfresh
      refine (request_meets (fun w => hadmits m req w rfl) s hkept).mono ?_
      exact fun answer s' _ _ hsettled _ _ _ _ => hsettled
    · obtain ⟨o, x, hq⟩ := ((request_chained m req).leads hl).resolve_left hfresh
      cases p with
      | ret a => exact fun _ _ _ _ _ _ hret => absurd rfl (hret a)
      | op o rest =>
        have hfree : ∀ w slot, m.kind.workflowID req = .ok w → w ≠ registryKey →
            P.Fits s.heap w slot :=
          fun w slot hw => hflight w slot ⟨hw, hfresh, fun answer h => by cases h⟩
        refine (request_inFlight (fun w => hadmits m req w rfl) hfree hq).mono ?_
        intro answer s' hlater _ _ _ _ _ _
        rcases answer with (slot | _ | _ | _) | _
        · exact fun w hw hne => (hfree w slot hw hne).later hlater
        all_goals trivial
  | poll kind virtual =>
    by_cases hfresh : p = (TrafficCall.poll kind virtual).routine lib
    · subst hfresh
      refine (poll_meets kind virtual s hkept).mono ?_
      exact fun answer s' _ _ hsettled _ _ _ _ => hsettled
    · obtain ⟨o, x, hq⟩ := ((poll_chained kind virtual).leads hl).resolve_left hfresh
      refine (poll_inFlight htasks (fun w slot rest hp => hflight w slot ⟨rest, hp⟩) hq).mono ?_
      intro answer s' _ _ _ m req hcall
      cases hcall

/-- From a moment with requests and polls in progress, all mappings and later answers fit. -/
theorem run_inFlight {ι : Type} [DecidableEq ι] {around : Shared → Shared → Prop}
    (haround : P.Around around) {calls : ι → TrafficCall}
    (hcalls : ∀ i m req w, calls i = .request m req → m.kind.workflowID req = .ok w →
      P.Admits faults m req w)
    (htasks : ∀ {heap name w slot}, handsOut name slot w → P.Fits heap w slot)
    {s₀ s : Threads ι Shared Access Access.Answer TrafficAnswer} {turns : List (Option ι)}
    (hstart : ∀ i, ((calls i).routine lib).Leads (s₀.thread i))
    (hflight : ∀ i w slot, (calls i).MayPut lib (s₀.thread i) w slot → w ≠ registryKey →
      P.Fits s₀.shared.heap w slot)
    (hkept : P.Kept s₀.shared)
    (hrun : Run (Threads.Step (Access.Does lib faults handsOut) around) s₀ turns s) :
    P.Kept s.shared ∧
      ∀ i m req w slot, calls i = .request m req → m.kind.workflowID req = .ok w →
        w ≠ registryKey → (∀ answer, s₀.thread i ≠ .ret answer) →
        s.thread i = .ret (.routed (.ok slot)) → P.Fits s.shared.heap w slot := by
  obtain ⟨hinv, hanswers⟩ := (rules_kept haround).run hrun hkept fun i =>
    meets_inFlight (hstart i) (hcalls i) htasks (hflight i) hkept
  refine ⟨hinv, fun i m req w slot hc hw hne hopen hret => ?_⟩
  have hsettled := hanswers i _ hret m req hc hopen
  rw [hc] at hsettled
  exact hsettled w hw hne

end Placement
end Tempura
