import Tempura.Base.FiniteMap

namespace Base
set_option autoImplicit true

/-- Objects reached through names; a name may lead to another object later. -/
structure ObjectTable (κ α : Type) where
  names : FiniteMap κ Nat
  objects : List α

namespace ObjectTable
variable {κ α : Type} [DecidableEq κ]

def find (t : ObjectTable κ α) (k : κ) : Option Nat := t.names.lookup k

def register (t : ObjectTable κ α) (k : κ) (a : α) : ObjectTable κ α :=
  ⟨t.names.insert k t.objects.length, t.objects ++ [a]⟩

def set (t : ObjectTable κ α) (ref : Nat) (a : α) : ObjectTable κ α :=
  { t with objects := t.objects.set ref a }

def view (t : ObjectTable κ α) (k : κ) : Option α := (t.find k).bind (t.objects[·]?)

def Valid (t : ObjectTable κ α) : Prop := ∀ k ref, t.find k = some ref → ref < t.objects.length

def Apart (t : ObjectTable κ α) : Prop :=
  ∀ k k' ref, t.find k = some ref → t.find k' = some ref → k = k'

/-- Every name leads where it led, and every object has only changed as `R` permits. -/
structure Extends (R : α → α → Prop) (t t' : ObjectTable κ α) : Prop where
  find : ∀ {k ref}, t.find k = some ref → t'.find k = some ref
  objects : ∀ {ref : Nat} {a}, t.objects[ref]? = some a →
    ∃ a', t'.objects[ref]? = some a' ∧ R a a'

theorem find_register (t : ObjectTable κ α) (k : κ) (a : α) (k' : κ) :
    (t.register k a).find k' = if k' = k then some t.objects.length else t.find k' :=
  FiniteMap.lookup_insert_ite _ _ _ _

theorem view_of_find {t : ObjectTable κ α} (h : t.find k = some ref) :
    t.view k = t.objects[ref]? := by
  rw [view, h, Option.bind_some]

theorem view_of_none {t : ObjectTable κ α} (h : t.find k = none) : t.view k = none := by
  rw [view, h, Option.bind_none]

theorem Valid.register {t : ObjectTable κ α} (h : t.Valid) (k : κ) (a : α) :
    (t.register k a).Valid := by
  intro k' ref hr
  rw [find_register] at hr
  change ref < (t.objects ++ [a]).length
  rw [List.length_append]
  by_cases hk : k' = k
  · rw [if_pos hk, Option.some.injEq] at hr
    simp [← hr]
  · rw [if_neg hk] at hr
    exact Nat.lt_add_right _ (h k' ref hr)

theorem Valid.set {t : ObjectTable κ α} (h : t.Valid) (ref : Nat) (a : α) :
    (t.set ref a).Valid := by
  intro k ref' hr
  change ref' < (t.objects.set ref a).length
  rw [List.length_set]
  exact h k ref' hr

theorem Apart.register {t : ObjectTable κ α} (h : t.Apart) (hv : t.Valid) (k : κ) (a : α) :
    (t.register k a).Apart := by
  intro k1 k2 ref h1 h2
  rw [find_register] at h1 h2
  by_cases hk1 : k1 = k <;> by_cases hk2 : k2 = k
  · rw [hk1, hk2]
  · rw [if_pos hk1, Option.some.injEq] at h1
    rw [if_neg hk2, ← h1] at h2
    exact absurd (hv k2 _ h2) (Nat.lt_irrefl _)
  · rw [if_pos hk2, Option.some.injEq] at h2
    rw [if_neg hk1, ← h2] at h1
    exact absurd (hv k1 _ h1) (Nat.lt_irrefl _)
  · rw [if_neg hk1] at h1
    rw [if_neg hk2] at h2
    exact h k1 k2 ref h1 h2

theorem view_register {t : ObjectTable κ α} (h : t.Valid) (k : κ) (a : α) (k' : κ) :
    (t.register k a).view k' = if k' = k then some a else t.view k' := by
  have hf := find_register t k a k'
  by_cases hk : k' = k
  · rw [if_pos hk] at hf ⊢
    rw [view_of_find hf]
    exact List.getElem?_concat_length
  · rw [if_neg hk] at hf ⊢
    cases ht : t.find k' with
    | none => rw [view_of_none ht, view_of_none (hf.trans ht)]
    | some ref =>
      rw [view_of_find ht, view_of_find (hf.trans ht)]
      exact List.getElem?_append_left (h k' ref ht)

theorem view_set {t : ObjectTable κ α} (hv : t.Valid) (ha : t.Apart) (hk : t.find k = some ref)
    (a : α) (k' : κ) : (t.set ref a).view k' = if k' = k then some a else t.view k' := by
  by_cases he : k' = k
  · subst k'
    rw [if_pos rfl, view_of_find (t := t.set ref a) hk]
    exact List.getElem?_set_self (hv k ref hk)
  · rw [if_neg he]
    cases ht : t.find k' with
    | none => rw [view_of_none ht, view_of_none (t := t.set ref a) ht]
    | some ref' =>
      rw [view_of_find ht, view_of_find (t := t.set ref a) ht]
      apply List.getElem?_set_ne
      rintro rfl
      exact he (ha k' k ref ht hk)

variable {R : α → α → Prop}

theorem Extends.refl (hR : ∀ a, R a a) (t : ObjectTable κ α) : Extends R t t :=
  ⟨fun h => h, fun h => ⟨_, h, hR _⟩⟩

theorem Extends.register (hR : ∀ a, R a a) {t : ObjectTable κ α} (hk : t.find k = none) (a : α) :
    Extends R t (t.register k a) := by
  constructor
  · intro k' ref h
    rw [find_register, if_neg, h]
    rintro rfl
    rw [hk] at h
    cases h
  · intro ref b h
    refine ⟨b, ?_, hR b⟩
    obtain ⟨hlt, -⟩ := List.getElem?_eq_some_iff.mp h
    exact (List.getElem?_append_left hlt).trans h

theorem Extends.set (hR : ∀ a, R a a) {t : ObjectTable κ α} (h : t.objects[ref]? = some a)
    (ha : R a a') : Extends R t (t.set ref a') := by
  refine ⟨fun hk => hk, ?_⟩
  intro ref' b hb
  by_cases he : ref = ref'
  · subst ref'
    rw [h, Option.some.injEq] at hb
    subst b
    obtain ⟨hlt, -⟩ := List.getElem?_eq_some_iff.mp h
    exact ⟨a', List.getElem?_set_self hlt, ha⟩
  · exact ⟨b, (List.getElem?_set_ne he).trans hb, hR b⟩

theorem Extends.view {t t' : ObjectTable κ α} (h : Extends R t t') (hk : t.view k = some a) :
    ∃ a', t'.view k = some a' ∧ R a a' := by
  obtain ⟨ref, hf, ha⟩ := Option.bind_eq_some_iff.mp hk
  rw [view_of_find (h.find hf)]
  exact h.objects ha

end ObjectTable

end Base
