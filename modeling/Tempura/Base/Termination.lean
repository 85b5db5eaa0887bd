import Mathlib.Data.DFinsupp.WellFounded
import Tempura.Base.Locking

namespace Base
set_option autoImplicit true

section Termination
variable {ι κ : Type} {V : κ → Type} {α : Type}

inductive Code.Next : Code κ V α → Code κ V α → Prop
  | acquire (x : κ) (m : Mode) (rest : Code κ V α) : Next rest (.acquire x m rest)
  | look (x : κ) (rest : V x → Code κ V α) (v : V x) : Next (rest v) (.look x rest)
  | update (x : κ) (f : V x → V x) (rest : Code κ V α) : Next rest (.update x f rest)
  | release (x : κ) (rest : Code κ V α) : Next rest (.release x rest)

theorem Code.wellFounded_next : WellFounded (Next (κ := κ) (V := V) (α := α)) := by
  constructor
  intro p
  induction p with
  | ret a => exact ⟨_, nofun⟩
  | acquire x m rest ih =>
    refine ⟨_, fun q hq => ?_⟩
    cases hq
    exact ih
  | look x rest ih =>
    refine ⟨_, fun q hq => ?_⟩
    cases hq
    exact ih _
  | update x f rest ih =>
    refine ⟨_, fun q hq => ?_⟩
    cases hq
    exact ih
  | release x rest ih =>
    refine ⟨_, fun q hq => ?_⟩
    cases hq
    exact ih

/-- A thread after a step of its own: it has less to do, or it has begun to wait. -/
def Thread.After (t' t : Thread κ V α) : Prop :=
  Prod.Lex Code.Next (· > ·) (t'.code, t'.waiting) (t.code, t.waiting)

theorem Thread.wellFounded_after : WellFounded (After (κ := κ) (V := V) (α := α)) :=
  InvImage.wf (fun t : Thread κ V α => (t.code, t.waiting))
    (WellFounded.prod_lex Code.wellFounded_next wellFounded_gt)

namespace Locked
variable [DecidableEq ι] [DecidableEq κ]

theorem Step.after {s s' : Locked ι κ V α} (h : Step s turn s') :
    (s'.thread turn.who).After (s.thread turn.who) := by
  cases h with
  | await hi hw hfree =>
    rw [Turn.who, set_thread_self, Thread.After, hw]
    exact .right _ Bool.false_lt_true
  | write hi hw hfree =>
    rw [Turn.who, set_thread_self, Thread.After, hi]
    exact .left _ _ (.acquire _ _ _)
  | read hi hfree =>
    rw [Turn.who, set_thread_self, Thread.After, hi]
    exact .left _ _ (.acquire _ _ _)
  | look hi =>
    rw [Turn.who, set_thread_self, Thread.After, hi]
    exact .left _ _ (.look _ _ _)
  | @update i x f rest hi =>
    change ((s.set i ((s.thread i).goOn rest)).thread i).After (s.thread i)
    rw [set_thread_self, Thread.After, hi]
    exact .left _ _ (.update _ _ _)
  | commit hi hc =>
    rw [Turn.who, set_thread_self, Thread.After, hi]
    exact .left _ _ (.release _ _)
  | release hi hc =>
    rw [Turn.who, set_thread_self, Thread.After, hi]
    exact .left _ _ (.release _ _)

/-- Finitely many threads cannot go on forever. -/
theorem wellFounded_step [Finite ι] :
    WellFounded (fun s' s : Locked ι κ V α => ∃ turn, Step s turn s') := by
  have hlex := Pi.Lex.wellFounded (WellOrderingRel (α := ι))
    (fun _ => Thread.wellFounded_after (κ := κ) (V := V) (α := α))
  apply Subrelation.wf _ (InvImage.wf Locked.thread hlex)
  rintro s' s ⟨turn, hstep⟩
  refine ⟨turn.who, ?_, hstep.after⟩
  intro j hj
  apply hstep.thread_of_ne
  rintro rfl
  exact irrefl _ hj

end Locked
end Termination
end Base
