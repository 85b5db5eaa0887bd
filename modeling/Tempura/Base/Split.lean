import Mathlib.Data.List.Infix

namespace Base
set_option autoImplicit true

section Split
variable {α : Type} [DecidableEq α]

def cut (sep : List α) : List α → Option (List α × List α)
  | [] => none
  | a :: s =>
    if sep <+: a :: s then some ([], (a :: s).drop sep.length)
    else (cut sep s).map (fun p => (a :: p.1, p.2))

/-- Leftmost non-overlapping splitting; the length of the input is fuel enough. -/
def splitLoop (sep : List α) : Nat → List α → List (List α)
  | 0, s => [s]
  | fuel + 1, s =>
    match cut sep s with
    | none => [s]
    | some (before, after) => before :: splitLoop sep fuel after

def split (sep s : List α) : List (List α) := splitLoop sep s.length s

theorem cut_eq_append {sep s x y : List α} (h : cut sep s = some (x, y)) :
    s = x ++ sep ++ y := by
  induction s generalizing x with
  | nil => cases h
  | cons a s ih =>
    rw [cut] at h
    by_cases hp : sep <+: a :: s
    · rw [if_pos hp, Option.some.injEq, Prod.mk.injEq] at h
      obtain ⟨rfl, rfl⟩ := h
      obtain ⟨t, ht⟩ := hp
      rw [← ht]
      simp
    · rw [if_neg hp] at h
      cases hc : cut sep s with
      | none => simp [hc] at h
      | some p =>
        obtain ⟨x', y'⟩ := p
        simp only [hc, Option.map_some, Option.some.injEq, Prod.mk.injEq] at h
        obtain ⟨rfl, rfl⟩ := h
        rw [ih hc]
        simp

theorem cut_le_of_append {sep : List α} (hsep : sep ≠ []) (x y : List α) :
    ∃ x' y', cut sep (x ++ sep ++ y) = some (x', y') ∧ x'.length ≤ x.length := by
  induction x with
  | nil =>
    obtain ⟨a, t, rfl⟩ := List.exists_cons_of_ne_nil hsep
    refine ⟨[], y, ?_, Nat.le_refl _⟩
    have hp : a :: t <+: a :: (t ++ y) := ⟨y, rfl⟩
    simp [cut, hp]
  | cons a x ih =>
    obtain ⟨x', y', hc, hle⟩ := ih
    by_cases hp : sep <+: a :: (x ++ sep ++ y)
    · refine ⟨[], (a :: (x ++ sep ++ y)).drop sep.length, ?_, Nat.zero_le _⟩
      simp only [List.cons_append, cut, if_pos hp]
    · refine ⟨a :: x', y', ?_, Nat.succ_le_succ hle⟩
      simp only [List.cons_append, cut, if_neg hp, hc, Option.map_some]

theorem cut_eq_none_iff {sep s : List α} (hsep : sep ≠ []) :
    cut sep s = none ↔ ¬ sep <:+: s := by
  constructor
  · rintro h ⟨x, y, rfl⟩
    obtain ⟨x', y', hc, _⟩ := cut_le_of_append hsep x y
    rw [hc] at h
    cases h
  · intro h
    cases hc : cut sep s with
    | none => rfl
    | some p => exact absurd ⟨p.1, p.2, (cut_eq_append hc).symm⟩ h

/-- At a doubled letter the cut falls right after `x` when no earlier pair is met first. -/
theorem cut_pair_append (d : α) (x y : List α) (hx : ¬ [d, d] <:+: x)
    (hlast : x.getLast? ≠ some d) : cut [d, d] (x ++ [d, d] ++ y) = some (x, y) := by
  induction x with
  | nil => simp [cut]
  | cons a x ih =>
    have hp : ¬ [d, d] <+: a :: (x ++ [d, d] ++ y) := by
      intro hp
      rw [List.cons_prefix_cons] at hp
      obtain ⟨rfl, hp⟩ := hp
      cases x with
      | nil => simp at hlast
      | cons b x =>
        rw [List.cons_append, List.cons_append, List.cons_prefix_cons] at hp
        obtain ⟨rfl, _⟩ := hp
        exact hx ⟨[], x, rfl⟩
    have hx' : ¬ [d, d] <:+: x := fun h => hx (h.trans (List.suffix_cons a x).isInfix)
    have hlast' : x.getLast? ≠ some d := by
      intro h
      apply hlast
      rw [List.getLast?_cons, h, Option.getD_some]
    simp only [List.cons_append, cut, if_neg hp, ih hx' hlast', Option.map_some]

theorem split_of_not_infix {sep s : List α} (hsep : sep ≠ []) (h : ¬ sep <:+: s) :
    split sep s = [s] := by
  rw [split]
  cases s with
  | nil => rfl
  | cons a s => simp only [List.length_cons, splitLoop, (cut_eq_none_iff hsep).mpr h]

theorem splitLoop_of_cut {sep s x y : List α} (hsep : sep ≠ []) (hc : cut sep s = some (x, y))
    {fuel : Nat} (hfuel : s.length ≤ fuel) :
    ∃ rest, splitLoop sep fuel s = x :: ((cut sep y).map Prod.fst).getD y :: rest := by
  have hlen := congrArg List.length (cut_eq_append hc)
  simp only [List.length_append] at hlen
  have hpos : 0 < sep.length := List.length_pos_iff.mpr hsep
  obtain ⟨fuel, rfl⟩ : ∃ k, fuel = k + 1 := ⟨fuel - 1, by omega⟩
  rw [splitLoop, hc]
  cases fuel with
  | zero =>
    have hy : y = [] := List.length_eq_zero_iff.mp (by omega)
    subst hy
    exact ⟨[], rfl⟩
  | succ fuel =>
    cases hcy : cut sep y with
    | none => exact ⟨[], by simp only [splitLoop, hcy]; rfl⟩
    | some p => exact ⟨splitLoop sep fuel p.2, by simp only [splitLoop, hcy]; rfl⟩

end Split

theorem infix_append_cons_iff {c : α} {sub p s : List α} (hc : c ∉ sub) :
    sub <:+: p ++ c :: s ↔ sub <:+: p ∨ sub <:+: s := by
  constructor
  · rintro ⟨x, y, h⟩
    obtain ⟨as, rfl, _⟩ | ⟨as, hx, hy⟩ := List.append_eq_append_iff.mp h
    · exact .inl ⟨x, as, rfl⟩
    · obtain ⟨rfl, rfl⟩ | ⟨as, rfl, rfl⟩ := List.cons_eq_append_iff.mp hy
      · exact .inl ⟨x, [], by simpa using hx⟩
      · obtain ⟨bs, _, rfl⟩ | ⟨bs, rfl, hs⟩ := List.append_eq_append_iff.mp hx
        · simp at hc
        · obtain ⟨rfl, rfl⟩ | ⟨bs, rfl, rfl⟩ := List.cons_eq_append_iff.mp hs
          · simp at hc
          · exact .inr ⟨bs, y, rfl⟩
  · rintro (h | h)
    · exact List.infix_append_of_infix_left h
    · exact List.infix_append_of_infix_right (List.infix_cons h)

end Base
