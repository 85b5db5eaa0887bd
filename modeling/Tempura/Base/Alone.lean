import Tempura.Base.Locking

namespace Base
set_option autoImplicit true

def Code.LocksIn (X : κ → Prop) : Code κ V α → Prop
  | .ret _ => True
  | .acquire x _ rest => X x ∧ rest.LocksIn X
  | .look _ rest => ∀ v, (rest v).LocksIn X
  | .update _ _ rest => rest.LocksIn X
  | .release _ rest => rest.LocksIn X

theorem Code.locksIn_bind {V : κ → Type} {p : Code κ V α} {k : α → Code κ V β}
    (hp : p.LocksIn X) (hk : ∀ a, (k a).LocksIn X) : (p >>= k).LocksIn X := by
  change (p.bind k).LocksIn X
  induction p with
  | ret a => exact hk a
  | acquire x m rest ih => exact ⟨hp.1, ih hp.2⟩
  | look x rest ih => exact fun v => ih v (hp v)
  | update x f rest ih => exact ih hp
  | release x rest ih => exact ih hp

theorem Code.LocksIn.withLock {V : κ → Type} {body : Code κ V α} (h : body.LocksIn X)
    (hx : X x) (m : Mode) : (withLock x m body).LocksIn X :=
  ⟨hx, locksIn_bind (k := fun a => do unlock x; return a) h (fun _ => trivial)⟩

theorem Code.locksIn_forM {V : κ → Type} {body : α → Code κ V PUnit}
    (h : ∀ a, (body a).LocksIn X) (l : List α) : (forM l body).LocksIn X := by
  induction l with
  | nil => exact trivial
  | cons a l ih =>
    rw [List.forM_cons]
    exact locksIn_bind (h a) (fun _ => ih)

theorem Code.locksIn_true {V : κ → Type} (p : Code κ V α) : p.LocksIn (fun _ => True) := by
  induction p with
  | ret a => exact trivial
  | acquire x m rest ih => exact ⟨trivial, ih⟩
  | look x rest ih => exact ih
  | update x f rest ih => exact ih
  | release x rest ih => exact ih

namespace Locked
variable {ι κ : Type} {V : κ → Type} {α : Type} {s s' : Locked ι κ V α} {i : ι}

/-- No other thread holds the lock or waits to write what it guards. -/
def FreeFor (s : Locked ι κ V α) (i : ι) (x : κ) : Prop :=
  ∀ j, j ≠ i → (s.thread j).held x = none ∧ ¬ s.Claims j x

theorem claims_iff_of_not_held (h : (s.thread j).held x = none) :
    s.Claims j x ↔
      (s.thread j).waiting = true ∧ ∃ rest, (s.thread j).code = .acquire x .write rest := by
  rw [Claims, h]
  exact or_iff_right (fun hw => by cases hw)

theorem freeFor_of_idle
    (h : ∀ j, j ≠ i → (s.thread j).held x = none ∧ (s.thread j).waiting = false) :
    s.FreeFor i x := by
  intro j hj
  obtain ⟨hheld, hwaiting⟩ := h j hj
  rw [claims_iff_of_not_held hheld, hwaiting]
  exact ⟨hheld, fun hclaims => Bool.false_ne_true hclaims.1⟩

theorem FreeFor.held_eq_none (h : s.FreeFor i x) (hi : (s.thread i).held x = none) (j : ι) :
    (s.thread j).held x = none := by
  by_cases hj : j = i
  · rw [hj, hi]
  · exact (h j hj).1

theorem FreeFor.not_claims (h : s.FreeFor i x) (hi : ¬ s.Claims i x) (j : ι) : ¬ s.Claims j x := by
  by_cases hj : j = i
  · rwa [hj]
  · exact (h j hj).2

theorem FreeFor.congr (h : s.FreeFor i x) (hsame : ∀ j, j ≠ i → s'.thread j = s.thread j) :
    s'.FreeFor i x := by
  intro j hj
  rw [Claims, hsame j hj]
  exact h j hj

variable [DecidableEq κ]

theorem Guarded.not_held (hg : s.Guarded rank) (hi : (s.thread i).code = .acquire x m rest) :
    (s.thread i).held x = none := by
  have hord := hg i
  rw [hi] at hord
  by_contra hne
  exact absurd (hord.1 x hne) (Nat.lt_irrefl _)

variable [DecidableEq ι]

theorem Guarded.run_take (hg : s.Guarded rank) (hi : (s.thread i).code = .acquire x m rest)
    (hx : s.FreeFor i x) : ∃ turns, Run Step s turns (s.set i ((s.thread i).take x m rest)) := by
  have hnone := hg.not_held hi
  cases m with
  | read =>
    refine ⟨_, .snoc .nil (.read hi (hx.not_claims ?_))⟩
    rw [claims_iff_of_not_held hnone, hi]
    rintro ⟨-, rest', hcode⟩
    cases hcode
  | write =>
    cases hw : (s.thread i).waiting with
    | true => exact ⟨_, .snoc .nil (.write hi hw (hx.held_eq_none hnone))⟩
    | false =>
      have hclaims : ¬ s.Claims i x := by
        rw [claims_iff_of_not_held hnone, hw]
        exact fun hclaims => Bool.false_ne_true hclaims.1
      have hawait : Step s _ _ := .await hi hw (hx.not_claims hclaims)
      have hfree : ∀ j, ((s.set i (s.thread i).await).thread j).held x = none := by
        apply (hx.congr (fun j hj => set_thread_of_ne s _ hj)).held_eq_none
        rw [set_thread_self]
        exact hnone
      have hcode : ((s.set i (s.thread i).await).thread i).code = .acquire x .write rest := by
        rwa [set_thread_self]
      have hwrite := Step.write hcode (by rw [set_thread_self]; rfl) hfree
      rw [set_thread_self, Locked.set, Locked.set, Function.update_idem] at hwrite
      exact ⟨_, (Run.snoc .nil hawait).snoc hwrite⟩

/-- The thread can go on to its end, with this result, while all others stay where they are. -/
def Finishes (s : Locked ι κ V α) (i : ι) (result : α × ((x : κ) → V x)) : Prop :=
  ∃ turns s', Run Step s turns s' ∧ (s'.thread i).code = .ret result.1 ∧
    (∀ x, (s'.thread i).held x = none) ∧ s'.cells = result.2 ∧
    ∀ j, j ≠ i → s'.thread j = s.thread j

theorem Finishes.of_run (hrun : Run Step s turns s')
    (hsame : ∀ j, j ≠ i → s'.thread j = s.thread j) (h : s'.Finishes i result) :
    s.Finishes i result := by
  obtain ⟨turns', t, hrun', hcode, hheld, hcells, hothers⟩ := h
  refine ⟨_, t, hrun.append hrun', hcode, hheld, hcells, fun j hj => ?_⟩
  rw [hothers j hj, hsame j hj]

/-- A thread whose locks no other has or wants does what it would do with nobody else around. -/
theorem Guarded.finishes (hg : s.Guarded rank) {X : κ → Prop} {p : Code κ V α}
    (hp : (s.thread i).code = p) (hin : p.LocksIn X) (hfree : ∀ x, X x → s.FreeFor i x) :
    s.Finishes i (p.run s.cells) := by
  induction p generalizing s with
  | ret a =>
    have hord := hg i
    rw [hp] at hord
    exact ⟨[], s, .nil, hp, hord, rfl, fun _ _ => rfl⟩
  | acquire x m rest ih =>
    obtain ⟨turns, hrun⟩ := hg.run_take hp (hfree x hin.1)
    have hsame : ∀ j, j ≠ i →
        (s.set i ((s.thread i).take x m rest)).thread j = s.thread j :=
      fun j hj => set_thread_of_ne s _ hj
    have hord := hg i
    rw [hp] at hord
    refine .of_run hrun hsame
      (ih (hg.set hord.2) ?_ hin.2 (fun y hy => (hfree y hy).congr hsame))
    rw [set_thread_self]
    rfl
  | look x rest ih =>
    have hstep := Step.look hp
    have hsame := fun j hj => hstep.thread_of_ne (i := j) hj
    refine .of_run (.snoc .nil hstep) hsame
      (ih _ (hstep.guarded hg) ?_ (hin _) (fun y hy => (hfree y hy).congr hsame))
    rw [set_thread_self]
    rfl
  | update x f rest ih =>
    have hstep := Step.update hp
    have hsame := fun j hj => hstep.thread_of_ne (i := j) hj
    refine .of_run (.snoc .nil hstep) hsame
      (ih (hstep.guarded hg) ?_ hin (fun y hy => (hfree y hy).congr hsame))
    exact congrArg Thread.code (set_thread_self s i _)
  | release x rest ih =>
    obtain ⟨turn, hstep⟩ : ∃ turn, Step s turn (s.set i ((s.thread i).give x rest)) := by
      cases hc : (s.thread i).committed with
      | true => exact ⟨_, .release hp hc⟩
      | false => exact ⟨_, .commit hp hc⟩
    have hsame : ∀ j, j ≠ i → (s.set i ((s.thread i).give x rest)).thread j = s.thread j :=
      fun j hj => set_thread_of_ne s _ hj
    refine .of_run (.snoc .nil hstep) hsame
      (ih (hstep.guarded hg) ?_ hin (fun y hy => (hfree y hy).congr hsame))
    rw [set_thread_self]
    rfl

theorem Guarded.finishes_last (hg : s.Guarded rank)
    (hothers : ∀ j, j ≠ i → ∃ a, (s.thread j).code = .ret a) :
    s.Finishes i ((s.thread i).code.run s.cells) := by
  apply hg.finishes rfl (Code.locksIn_true _)
  intro x _ j hj
  obtain ⟨a, hret⟩ := hothers j hj
  have hheld := hg j
  rw [hret] at hheld
  refine ⟨hheld x, ?_⟩
  rw [claims_iff_of_not_held (hheld x), hret]
  rintro ⟨-, rest, hcode⟩
  cases hcode

end Locked
end Base
