import Mathlib.Data.Finset.Card
import Mathlib.Logic.Relation

namespace Base
set_option autoImplicit true

section Loop
variable {σ ρ : Type} (next : σ → σ ⊕ ρ)

/-- At most `fuel` passes of a loop that goes on with a new state or ends with a result. -/
def iterate : Nat → σ → Option ρ
  | 0, _ => none
  | fuel + 1, s =>
    match next s with
    | .inl t => iterate fuel t
    | .inr r => some r

def Goes (s t : σ) : Prop := next s = .inl t

def Acyclic (s : σ) : Prop :=
  ∀ t, Relation.ReflTransGen (Goes next) s t → ¬ Relation.TransGen (Goes next) t t

end Loop

variable {σ ρ : Type} {next : σ → σ ⊕ ρ}

theorem iterate_of_goes (h : Goes next s t) (fuel : Nat) :
    iterate next (fuel + 1) s = iterate next fuel t := by
  rw [iterate, h]

theorem iterate_of_cycle (h : Relation.TransGen (Goes next) s s) (fuel : Nat) :
    iterate next fuel s = none := by
  induction fuel generalizing s with
  | zero => rfl
  | succ fuel ih =>
    obtain ⟨t, hst, hts⟩ := Relation.TransGen.head'_iff.mp h
    rw [iterate_of_goes hst]
    exact ih (Relation.TransGen.tail' hts hst)

theorem iterate_of_reaches (h : Relation.ReflTransGen (Goes next) s t)
    (ht : ∀ fuel, iterate next fuel t = none) (fuel : Nat) : iterate next fuel s = none := by
  induction h using Relation.ReflTransGen.head_induction_on generalizing fuel with
  | refl => exact ht fuel
  | head hstep _ ih =>
    cases fuel with
    | zero => rfl
    | succ fuel =>
      rw [iterate_of_goes hstep]
      exact ih fuel

theorem iterate_unique (h : iterate next fuel s = some r) (h' : iterate next fuel' s = some r') :
    r = r' := by
  induction fuel generalizing s fuel' with
  | zero => cases h
  | succ fuel ih =>
    cases fuel' with
    | zero => cases h'
    | succ fuel' =>
      cases hs : next s with
      | inl t =>
        rw [iterate_of_goes hs] at h h'
        exact ih h h'
      | inr u =>
        rw [iterate, hs] at h h'
        cases h
        cases h'
        rfl

theorem iterate_eq_some_iff :
    (∃ fuel, iterate next fuel s = some r) ↔
      ∃ t, Relation.ReflTransGen (Goes next) s t ∧ next t = .inr r := by
  constructor
  · intro ⟨fuel, h⟩
    induction fuel generalizing s with
    | zero => cases h
    | succ fuel ih =>
      cases hs : next s with
      | inl t =>
        rw [iterate_of_goes hs] at h
        obtain ⟨u, htu, hu⟩ := ih h
        exact ⟨u, .head hs htu, hu⟩
      | inr r' =>
        rw [iterate, hs] at h
        cases h
        exact ⟨s, .refl, hs⟩
  · intro ⟨t, hst, ht⟩
    induction hst using Relation.ReflTransGen.head_induction_on with
    | refl => exact ⟨1, by rw [iterate, ht]⟩
    | head hstep _ ih =>
      obtain ⟨fuel, h⟩ := ih
      exact ⟨fuel + 1, by rw [iterate_of_goes hstep, h]⟩

theorem Acyclic.goes (h : Acyclic next s) (hst : Goes next s t) : Acyclic next t := by
  intro u hu
  exact h u (.head hst hu)

theorem iterate_of_acyclic [DecidableEq σ] (F : Finset σ) (h : Acyclic next s)
    (hF : ∀ t u, Relation.ReflTransGen (Goes next) s t → Goes next t u → t ∈ F) :
    ∃ r, iterate next (F.card + 1) s = some r := by
  induction hn : F.card generalizing F s with
  | zero =>
    cases hs : next s with
    | inr r => exact ⟨r, by rw [iterate, hs]⟩
    | inl t =>
      rw [Finset.card_eq_zero.mp hn] at hF
      exact absurd (hF s t .refl hs) (Finset.notMem_empty s)
  | succ n ih =>
    cases hs : next s with
    | inr r => exact ⟨r, by rw [iterate, hs]⟩
    | inl t =>
      rw [iterate_of_goes hs]
      apply ih (F.erase s) (h.goes hs)
      · intro u v hu huv
        apply Finset.mem_erase.mpr
        refine ⟨?_, hF u v (.head hs hu) huv⟩
        intro heq
        subst u
        exact h s .refl (.head' hs hu)
      · rw [Finset.card_erase_of_mem (hF s t .refl hs), hn]
        rfl

/-- A loop over finitely many states ends exactly if it meets none of them twice. -/
theorem ends_iff_acyclic [DecidableEq σ] (F : Finset σ)
    (hF : ∀ t u, Relation.ReflTransGen (Goes next) s t → Goes next t u → t ∈ F) :
    (∃ fuel r, iterate next fuel s = some r) ↔ Acyclic next s := by
  constructor
  · intro ⟨fuel, r, hr⟩ t ht hcycle
    rw [iterate_of_reaches ht (iterate_of_cycle hcycle)] at hr
    cases hr
  · intro h
    exact ⟨F.card + 1, iterate_of_acyclic F h hF⟩

end Base
