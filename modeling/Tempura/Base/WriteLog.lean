import Mathlib.Data.List.Induction
import Tempura.Base.FiniteMap

namespace Base
set_option autoImplicit true

/-- A write to a key-value store; a put carries a tag that the store does not keep. -/
inductive Write (τ κ β : Type) where
  | put (tag : τ) (key : κ) (value : β)
  | delete (key : κ)

namespace Write

def key : Write τ κ β → κ
  | .put _ key _ => key
  | .delete key => key

def left : Write τ κ β → Option (τ × β)
  | .put tag _ value => some (tag, value)
  | .delete _ => none

def apply [DecidableEq κ] (m : FiniteMap κ β) : Write τ κ β → FiniteMap κ β
  | .put _ key value => m.insert key value
  | .delete key => m.erase key

theorem lookup_apply [DecidableEq κ] (m : FiniteMap κ β) (w : Write τ κ β) (k : κ) :
    (w.apply m).lookup k = if k = w.key then w.left.map (·.2) else m.lookup k := by
  cases w with
  | put tag key value => exact FiniteMap.lookup_insert_ite _ _ _ _
  | delete key => exact FiniteMap.lookup_erase_ite _ _ _

end Write

def replay [DecidableEq κ] (m : FiniteMap κ β) (log : List (Write τ κ β)) : FiniteMap κ β :=
  log.foldl Write.apply m

/-- What the last write to `k` in the log left there. -/
def latest [DecidableEq κ] (k : κ) (log : List (Write τ κ β)) : Option (τ × β) :=
  log.foldl (fun acc w => if k = w.key then w.left else acc) none

section Laws
variable [DecidableEq κ]

@[simp] theorem replay_nil (m : FiniteMap κ β) : replay m ([] : List (Write τ κ β)) = m := rfl

theorem replay_append (m : FiniteMap κ β) (log log' : List (Write τ κ β)) :
    replay m (log ++ log') = replay (replay m log) log' :=
  List.foldl_append

theorem latest_snoc (k : κ) (log : List (Write τ κ β)) (w : Write τ κ β) :
    latest k (log ++ [w]) = if k = w.key then w.left else latest k log := by
  rw [latest, List.foldl_append]
  rfl

theorem lookup_replay_empty (log : List (Write τ κ β)) (k : κ) :
    (replay ∅ log).lookup k = (latest k log).map (·.2) := by
  induction log using List.reverseRecOn with
  | nil => rfl
  | append_singleton log w ih =>
    rw [replay_append, latest_snoc]
    change (w.apply (replay ∅ log)).lookup k = _
    rw [Write.lookup_apply, ih]
    by_cases hk : k = w.key
    · rw [if_pos hk, if_pos hk]
    · rw [if_neg hk, if_neg hk]

theorem lookup_replay_invariant {I : Option β → Prop} {m : FiniteMap κ β} {k : κ}
    (hm : I (m.lookup k)) (log : List (Write τ κ β))
    (h : ∀ w ∈ log, k = w.key → I (w.left.map (·.2))) : I ((replay m log).lookup k) := by
  induction log generalizing m with
  | nil => exact hm
  | cons w log ih =>
    have hw : I ((w.apply m).lookup k) := by
      rw [Write.lookup_apply]
      by_cases hk : k = w.key
      · rw [if_pos hk]
        exact h w List.mem_cons_self hk
      · rw [if_neg hk]
        exact hm
    exact ih hw (fun w' hw' => h w' (List.mem_cons_of_mem _ hw'))

theorem lookup_replay_of_forall_ne (m : FiniteMap κ β) (log : List (Write τ κ β)) {k : κ}
    (h : ∀ w ∈ log, k ≠ w.key) : (replay m log).lookup k = m.lookup k :=
  lookup_replay_invariant (I := (· = m.lookup k)) rfl log (fun w hw hk => absurd hk (h w hw))

theorem lookup_replay_of_same {m : FiniteMap κ β} {k : κ} {value : β}
    (hm : m.lookup k = some value) (log : List (Write τ κ β))
    (h : ∀ w ∈ log, k = w.key → ∃ tag, w = .put tag k value) :
    (replay m log).lookup k = some value := by
  apply lookup_replay_invariant (I := (· = some value)) hm
  intro w hw hk
  obtain ⟨tag, rfl⟩ := h w hw hk
  rfl

theorem lookup_replay_deletes (m : FiniteMap κ β) (k : κ) {n : Nat} (hn : 0 < n) :
    (replay m (List.replicate n (.delete k : Write τ κ β))).lookup k = none := by
  obtain ⟨n, rfl⟩ := Nat.exists_eq_add_of_lt hn
  rw [Nat.zero_add, List.replicate_succ]
  apply lookup_replay_invariant (I := (· = none)) (m := m.erase k) (AList.lookup_erase k m)
  intro w hw _
  rw [(List.mem_replicate.mp hw).2]
  rfl

theorem latest_append_cases {k : κ} {log log' : List (Write τ κ β)} {t : τ × β}
    (h : latest k (log ++ log') = some t) : latest k log = some t ∨ latest k log' = some t := by
  induction log' using List.reverseRecOn with
  | nil => exact .inl (by simpa only [List.append_nil] using h)
  | append_singleton log' w ih =>
    rw [← List.append_assoc, latest_snoc] at h
    rw [latest_snoc]
    by_cases hk : k = w.key
    · rw [if_pos hk] at h ⊢
      exact .inr h
    · rw [if_neg hk] at h ⊢
      exact ih h

theorem latest_append_of_latest {k : κ} {log' : List (Write τ κ β)} {t : τ × β}
    (h : latest k log' = some t) (log : List (Write τ κ β)) :
    latest k (log ++ log') = some t := by
  induction log' using List.reverseRecOn with
  | nil => cases h
  | append_singleton log' w ih =>
    rw [latest_snoc] at h
    rw [← List.append_assoc, latest_snoc]
    by_cases hk : k = w.key
    · rw [if_pos hk] at h ⊢
      exact h
    · rw [if_neg hk] at h ⊢
      exact ih h

theorem mem_of_latest {k : κ} {log : List (Write τ κ β)} (h : latest k log = some (tag, value)) :
    .put tag k value ∈ log := by
  induction log using List.reverseRecOn with
  | nil => cases h
  | append_singleton log w ih =>
    rw [latest_snoc] at h
    by_cases hk : k = w.key
    · rw [if_pos hk] at h
      cases w with
      | put tag key value =>
        cases h
        subst hk
        exact List.mem_append_right _ List.mem_cons_self
      | delete key => cases h
    · rw [if_neg hk] at h
      exact List.mem_append_left _ (ih h)

end Laws

end Base
