import Mathlib.Data.Finset.Range
import Tempura.Base.Loop
import Tempura.TaskToken

namespace Tempura
open Base
set_option autoImplicit true

/-- One pass of the loop of `extractWorkflowIDFromTaskToken`, its condition included. -/
def tokenNext (token : Bytes) (i : Int) : Int ⊕ Outcome GoString :=
  if i < token.length then
    match tokenStep token i with
    | .next j => .inl j
    | .done result => .inr result
  else .inr (.err (lit "workflow_id (field 2) not found in TaskToken"))

theorem extractLoop_eq_iterate (token : Bytes) (fuel : Nat) (i : Int) :
    extractLoop token fuel i = (iterate (tokenNext token) fuel i).getD .hang := by
  induction fuel generalizing i with
  | zero => rfl
  | succ fuel ih =>
    rw [extractLoop, iterate, tokenNext]
    by_cases hi : i < token.length
    · rw [if_pos hi, if_pos hi]
      cases tokenStep token i with
      | next j => exact ih j
      | done result => rfl
    · rw [if_neg hi, if_neg hi]
      rfl

theorem tokenStep_ne_hang (token : Bytes) (i : Int) : tokenStep token i ≠ .done .hang := by
  simp only [tokenStep]
  repeat' split
  all_goals
    intro h
    cases h

theorem tokenNext_ne_hang (token : Bytes) (i : Int) : tokenNext token i ≠ .inr .hang := by
  rw [tokenNext]
  split
  · cases h : tokenStep token i with
    | next j => nofun
    | done result =>
      intro he
      cases he
      exact tokenStep_ne_hang token i h
  · nofun

/-- The field at index `i` of the token is passed over, and the next one is looked for at `j`. -/
inductive Skips (token : Bytes) (i : Int) : Int → Prop
  | varint {buf rest : Bytes} {tag v : Nat} {n k : Int} (hi : i < token.length)
      (hbuf : sliceFrom token i = some buf) (htag : uvarint buf = (tag, n)) (hn : 0 < n)
      (hwire : tag &&& 7 = 0) (hrest : sliceFrom token (wrap64 (i + n)) = some rest)
      (hv : uvarint rest = (v, k)) (hk : 0 < k) : Skips token i (wrap64 (wrap64 (i + n) + k))
  | fixed64 {buf : Bytes} {tag : Nat} {n : Int} (hi : i < token.length)
      (hbuf : sliceFrom token i = some buf) (htag : uvarint buf = (tag, n)) (hn : 0 < n)
      (hwire : tag &&& 7 = 1) : Skips token i (wrap64 (wrap64 (i + n) + 8))
  | bytes {buf rest : Bytes} {tag length : Nat} {n k : Int} (hi : i < token.length)
      (hbuf : sliceFrom token i = some buf) (htag : uvarint buf = (tag, n)) (hn : 0 < n)
      (hwire : tag &&& 7 = 2) (hnum : tag >>> 3 ≠ 2)
      (hrest : sliceFrom token (wrap64 (i + n)) = some rest) (hlen : uvarint rest = (length, k))
      (hk : 0 < k) : Skips token i (wrap64 (wrap64 (wrap64 (i + n) + k) + wrap64 length))
  | fixed32 {buf : Bytes} {tag : Nat} {n : Int} (hi : i < token.length)
      (hbuf : sliceFrom token i = some buf) (htag : uvarint buf = (tag, n)) (hn : 0 < n)
      (hwire : tag &&& 7 = 5) : Skips token i (wrap64 (wrap64 (i + n) + 4))

theorem goes_of_skips (h : Skips token i j) : Goes (tokenNext token) i j := by
  cases h with
  | varint hi hbuf htag hn hwire hrest hv hk =>
    simp only [Goes, tokenNext, if_pos hi, tokenStep, hbuf, htag, if_neg (Int.not_le.mpr hn),
      if_pos hwire, hrest, hv, if_neg (Int.not_le.mpr hk)]
  | fixed64 hi hbuf htag hn hwire =>
    simp [Goes, tokenNext, hi, tokenStep, hbuf, htag, Int.not_le.mpr hn, hwire]
  | bytes hi hbuf htag hn hwire hnum hrest hlen hk =>
    simp [Goes, tokenNext, hi, tokenStep, hbuf, htag, Int.not_le.mpr hn, hwire, hnum, hrest,
      hlen, Int.not_le.mpr hk]
  | fixed32 hi hbuf htag hn hwire =>
    simp [Goes, tokenNext, hi, tokenStep, hbuf, htag, Int.not_le.mpr hn, hwire]

theorem skips_of_tokenStep (hi : i < token.length) (h : tokenStep token i = .next j) :
    Skips token i j := by
  rw [tokenStep] at h
  cases hbuf : sliceFrom token i with
  | none => simp [hbuf] at h
  | some buf =>
    cases htag : uvarint buf with
    | mk tag n =>
      simp only [hbuf, htag] at h
      split at h
      · cases h
      next hn =>
      replace hn := Int.not_le.mp hn
      split at h
      next hwire =>
        cases hrest : sliceFrom token (wrap64 (i + n)) with
        | none => simp [hrest] at h
        | some rest =>
          cases hv : uvarint rest with
          | mk v k =>
            simp only [hrest, hv] at h
            split at h
            · cases h
            · next hk =>
              cases h
              exact .varint hi hbuf htag hn hwire hrest hv (Int.not_le.mp hk)
      split at h
      next _ hwire =>
        cases h
        exact .fixed64 hi hbuf htag hn hwire
      split at h
      next _ _ hwire =>
        cases hrest : sliceFrom token (wrap64 (i + n)) with
        | none => simp [hrest] at h
        | some rest =>
          cases hlen : uvarint rest with
          | mk length k =>
            simp only [hrest, hlen] at h
            split at h
            · cases h
            next hk =>
            split at h
            · split at h
              · cases h
              · split at h <;> cases h
            · next hnum =>
              cases h
              exact .bytes hi hbuf htag hn hwire hnum hrest hlen (Int.not_le.mp hk)
      split at h
      next _ _ _ hwire =>
        cases h
        exact .fixed32 hi hbuf htag hn hwire
      cases h

theorem goes_eq_skips (token : Bytes) : Goes (tokenNext token) = Skips token := by
  ext i j
  constructor
  · intro h
    rw [Goes, tokenNext] at h
    split at h
    · next hi =>
      apply skips_of_tokenStep hi
      cases hs : tokenStep token i with
      | next j' =>
        rw [hs] at h
        cases h
        rfl
      | done result =>
        rw [hs] at h
        cases h
    · cases h
  · exact goes_of_skips

def indices (token : Bytes) : Finset Int :=
  (Finset.range token.length).map ⟨Int.ofNat, fun _ _ => Int.ofNat.inj⟩

theorem card_indices (token : Bytes) : (indices token).card = token.length := by
  rw [indices, Finset.card_map, Finset.card_range]

theorem mem_of_goes (h : Goes (tokenNext token) i j) : i ∈ indices token := by
  rw [Goes, tokenNext] at h
  split at h
  · next hi =>
    have hpos : 0 ≤ i := by
      apply Int.not_lt.mp
      intro hneg
      have hslice : sliceFrom token i = none := if_neg (fun hb => Int.not_le.mpr hneg hb.1)
      rw [tokenStep, hslice] at h
      cases h
    have hlt : i.toNat < token.length := by omega
    exact Finset.mem_map.mpr ⟨i.toNat, Finset.mem_range.mpr hlt, Int.toNat_of_nonneg hpos⟩
  · cases h

theorem iterate_ne_hang (token : Bytes) (fuel : Nat) (i : Int) :
    iterate (tokenNext token) fuel i ≠ some .hang := by
  induction fuel generalizing i with
  | zero => nofun
  | succ fuel ih =>
    rw [iterate]
    cases h : tokenNext token i with
    | inl j => exact ih j
    | inr result =>
      intro he
      cases he
      exact tokenNext_ne_hang token i h

theorem extractLoop_eq_iff (token : Bytes) (fuel : Nat) (i : Int) (hr : r ≠ .hang) :
    extractLoop token fuel i = r ↔ iterate (tokenNext token) fuel i = some r := by
  rw [extractLoop_eq_iterate]
  cases iterate (tokenNext token) fuel i with
  | none => simp [hr.symm]
  | some r' => simp

theorem extractLoop_ne_hang_iff (token : Bytes) (fuel : Nat) (i : Int) :
    extractLoop token fuel i ≠ .hang ↔ ∃ r, iterate (tokenNext token) fuel i = some r := by
  rw [extractLoop_eq_iterate]
  cases h : iterate (tokenNext token) fuel i with
  | none => simp
  | some r =>
    have hr : r ≠ .hang := fun he => iterate_ne_hang token fuel i (he ▸ h)
    simp [hr]

/-- The model reports an endless loop only where there is one. -/
theorem extract_hang_iff (token : Bytes) :
    extractWorkflowIDFromTaskToken token = .hang ↔ ∀ fuel, extractLoop token fuel 0 = .hang := by
  constructor
  · intro h fuel
    by_contra hne
    obtain ⟨r, hr⟩ := (extractLoop_ne_hang_iff token fuel 0).mp hne
    have hac := (ends_iff_acyclic _ (fun _ _ _ => mem_of_goes)).mp ⟨fuel, r, hr⟩
    have hend := iterate_of_acyclic _ hac (fun _ _ _ => mem_of_goes)
    rw [card_indices] at hend
    exact (extractLoop_ne_hang_iff token _ 0).mpr hend h
  · intro h
    exact h _

theorem extract_eq_iff (token : Bytes) (hr : r ≠ .hang) :
    extractWorkflowIDFromTaskToken token = r ↔ ∃ fuel, extractLoop token fuel 0 = r := by
  constructor
  · intro h
    exact ⟨_, h⟩
  · intro ⟨fuel, h⟩
    have hends : extractWorkflowIDFromTaskToken token ≠ .hang := by
      intro hhang
      exact hr (h.symm.trans ((extract_hang_iff token).mp hhang fuel))
    obtain ⟨r', hr'⟩ := (extractLoop_ne_hang_iff token _ 0).mp hends
    rw [extractWorkflowIDFromTaskToken, extractLoop_eq_iff token _ 0 hr, hr',
      iterate_unique hr' ((extractLoop_eq_iff token fuel 0 hr).mp h)]

theorem extract_ne_hang_iff (token : Bytes) :
    extractWorkflowIDFromTaskToken token ≠ .hang ↔
      ∀ i, Relation.ReflTransGen (Skips token) 0 i → ¬ Relation.TransGen (Skips token) i i := by
  have hends := @ends_iff_acyclic _ _ (tokenNext token) 0 _ _ (fun _ _ _ => mem_of_goes)
  rw [← goes_eq_skips]
  constructor
  · intro h
    obtain ⟨r, hr⟩ := (extractLoop_ne_hang_iff token _ 0).mp h
    exact hends.mp ⟨_, r, hr⟩
  · intro h hhang
    obtain ⟨fuel, hr⟩ := hends.mpr h
    exact (extractLoop_ne_hang_iff token fuel 0).mpr hr ((extract_hang_iff token).mp hhang fuel)

end Tempura
