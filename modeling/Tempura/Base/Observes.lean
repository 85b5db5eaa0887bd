import Tempura.Base.Serial

namespace Base
set_option autoImplicit true

section Grows
variable {ι κ : Type} {V : κ → Type}

/-- The log has grown, and the cells that are locked have stayed as they were. -/
structure Grows (view : List ι → (x : κ) → V x) (held : Code.Held κ) (l l' : List ι) : Prop where
  isPrefix : l <+: l'
  stable : ∀ x, held x ≠ none → view l' x = view l x

theorem Grows.refl (view : List ι → (x : κ) → V x) (held : Code.Held κ) (l : List ι) :
    Grows view held l l :=
  ⟨List.prefix_refl l, fun _ _ => rfl⟩

theorem Grows.trans {view : List ι → (x : κ) → V x} (h : Grows view held l l₁)
    (h' : Grows view held l₁ l₂) : Grows view held l l₂ :=
  ⟨h.isPrefix.trans h'.isPrefix, fun x hx => (h'.stable x hx).trans (h.stable x hx)⟩

theorem Grows.mono {view : List ι → (x : κ) → V x} (h : Grows view held l l₁)
    (hle : ∀ x, held' x ≠ none → held x ≠ none) : Grows view held' l l₁ :=
  ⟨h.isPrefix, fun x hx => h.stable x (hle x hx)⟩

theorem Grows.later {view : List ι → (x : κ) → V x}
    (hstable : ∀ x, held x ≠ none → view (l ++ [i]) x = view l x)
    (h : Grows view held (l ++ [i]) l') : Grows view held l l' :=
  .trans ⟨List.prefix_append l [i], hstable⟩ h

end Grows

section Observes
variable {ι κ : Type} {V : κ → Type} {α : Type} [DecidableEq κ]

/-- What code that only reads can find while others commit and the cells it has locked stay. -/
inductive Observes (view : List ι → (x : κ) → V x) :
    Code.Held κ → List ι → Code κ V α → List ι → α → Prop
  | ret {held : Code.Held κ} {l : List ι} {a : α} : Observes view held l (.ret a) l a
  | later {held : Code.Held κ} {l l' : List ι} {p : Code κ V α} {a : α} {i : ι}
      (hstable : ∀ x, held x ≠ none → view (l ++ [i]) x = view l x)
      (h : Observes view held (l ++ [i]) p l' a) : Observes view held l p l' a
  | acquire {held : Code.Held κ} {l l' : List ι} {x : κ} {m : Mode} {rest : Code κ V α} {a : α}
      (h : Observes view (Function.update held x (some m)) l rest l' a) :
      Observes view held l (.acquire x m rest) l' a
  | look {held : Code.Held κ} {l l' : List ι} {x : κ} {rest : V x → Code κ V α} {a : α}
      (h : Observes view held l (rest (view l x)) l' a) :
      Observes view held l (.look x rest) l' a
  | release {held : Code.Held κ} {l l' : List ι} {x : κ} {rest : Code κ V α} {a : α}
      (h : Observes view (Function.update held x none) l rest l' a) :
      Observes view held l (.release x rest) l' a

theorem Observes.of_ret {view : List ι → (x : κ) → V x}
    (h : Observes view held l (.ret a) l' b) : Grows view held l l' ∧ b = a := by
  generalize hp : Code.ret a = p at h
  induction h with
  | ret =>
    cases hp
    exact ⟨.refl _ _ _, rfl⟩
  | later hstable h ih => exact ⟨.later hstable (ih hp).1, (ih hp).2⟩
  | _ => cases hp

theorem Observes.of_acquire {view : List ι → (x : κ) → V x}
    (h : Observes view held l (.acquire x m rest) l' a) :
    ∃ l₁, Grows view held l l₁ ∧
      Observes view (Function.update held x (some m)) l₁ rest l' a := by
  generalize hp : Code.acquire x m rest = p at h
  induction h with
  | acquire h =>
    cases hp
    exact ⟨_, .refl _ _ _, h⟩
  | later hstable h ih =>
    obtain ⟨l₁, hgrow, hrest⟩ := ih hp
    exact ⟨l₁, .later hstable hgrow, hrest⟩
  | _ => cases hp

theorem Observes.of_look {view : List ι → (x : κ) → V x}
    (h : Observes view held l (.look x rest) l' a) :
    ∃ l₁, Grows view held l l₁ ∧ Observes view held l₁ (rest (view l₁ x)) l' a := by
  generalize hp : Code.look x rest = p at h
  induction h with
  | look h =>
    cases hp
    exact ⟨_, .refl _ _ _, h⟩
  | later hstable h ih =>
    obtain ⟨l₁, hgrow, hrest⟩ := ih hp
    exact ⟨l₁, .later hstable hgrow, hrest⟩
  | _ => cases hp

theorem Observes.of_release {view : List ι → (x : κ) → V x}
    (h : Observes view held l (.release x rest) l' a) :
    ∃ l₁, Grows view held l l₁ ∧ Observes view (Function.update held x none) l₁ rest l' a := by
  generalize hp : Code.release x rest = p at h
  induction h with
  | release h =>
    cases hp
    exact ⟨_, .refl _ _ _, h⟩
  | later hstable h ih =>
    obtain ⟨l₁, hgrow, hrest⟩ := ih hp
    exact ⟨l₁, .later hstable hgrow, hrest⟩
  | _ => cases hp

variable {strict : ι → Prop} {code : ι → Code κ V α} {c : (x : κ) → V x} {log : List ι}

/-- Whatever a thread that only reads finds from here on, it can have found from the beginning. -/
def Serial.Seen (code : ι → Code κ V α) (c : (x : κ) → V x) (log₀ log : List ι) (i : ι)
    (t : Thread κ V α) : Prop :=
  ∀ l' a, Observes (serial code c) t.held log t.code l' a →
    Observes (serial code c) (fun _ => none) log₀ (code i) l' a

variable [DecidableEq ι]

theorem Serial.seen_step {s s' : Locked ι κ V α} (h : Serial strict code c log s)
    (hg : s.Guarded rank) (hs : ¬ strict i) (hstep : Locked.Step s turn s')
    (hseen : Serial.Seen code c log₀ log i (s.thread i)) :
    Serial.Seen code c log₀ (log ++ turn.commit?.toList) i (s'.thread i) := by
  by_cases hi : i = turn.who
  · have hread := (h.readers i hs).1
    have hord := hg i
    intro l' a hobs
    apply hseen l' a
    cases hstep with
    | @await i x rest hi' hw hfree =>
      obtain rfl : _ = i := hi
      simp only [Turn.commit?, Option.toList_none, List.append_nil, Locked.set,
        Function.update_self] at hobs
      exact hobs
    | @write i x rest hi' hw hfree =>
      obtain rfl : _ = i := hi
      rw [hi'] at hread
      exact absurd hread.1 (by decide)
    | @read i x rest hi' hfree =>
      obtain rfl : _ = i := hi
      simp only [Turn.commit?, Option.toList_none, List.append_nil, Locked.set,
        Function.update_self] at hobs
      rw [hi']
      exact .acquire hobs
    | @look i x rest hi' =>
      obtain rfl : _ = i := hi
      rw [hi'] at hord
      simp only [Turn.commit?, Option.toList_none, List.append_nil, Locked.set,
        Function.update_self] at hobs
      rw [hi']
      apply Observes.look
      rw [← h.cell_of_held hord.1 ((h.readers _ hs).2 x)]
      exact hobs
    | @update i x f rest hi' =>
      obtain rfl : _ = i := hi
      rw [hi'] at hread
      exact hread.elim
    | @commit i x rest hi' hc =>
      obtain rfl : _ = i := hi
      simp only [Turn.commit?, Option.toList_some, Locked.set, Function.update_self] at hobs
      rw [hi']
      refine .later ?_ (.release hobs)
      intro y _
      rw [serial_snoc, (h.readOnly _ hs).run_cells]
    | @release i x rest hi' hc =>
      obtain rfl : _ = i := hi
      simp only [Turn.commit?, Option.toList_none, List.append_nil, Locked.set,
        Function.update_self] at hobs
      rw [hi']
      exact .release hobs
  · -- a step of another thread can only make the log longer
    rw [hstep.thread_of_ne hi]
    cases turn with
    | step j =>
      rw [Turn.commit?, Option.toList_none, List.append_nil]
      exact hseen
    | commit j =>
      obtain ⟨x, rest, hj, hc⟩ := hstep.of_commit
      intro l' a hobs
      exact hseen l' a (.later (fun y hy => h.held_of_commit hj hc hi hy) hobs)

/-- A thread that only reads, from a moment at which it has not begun to its end. -/
theorem Serial.observes {s s' : Locked ι κ V α} (h : Serial strict code c log s)
    (hg : s.Guarded rank) (hs : ¬ strict i) (hstart : s.thread i = { code := code i })
    (hrun : Run Locked.Step s turns s') (hi : (s'.thread i).code = .ret a) :
    Observes (serial code c) (fun _ => none) log (code i) (log ++ commits turns) a := by
  have hseen : Serial.Seen code c log (log ++ commits turns) i (s'.thread i) := by
    clear hi
    induction hrun with
    | nil =>
      rw [commits, List.filterMap_nil, List.append_nil, hstart]
      exact fun _ _ hobs => hobs
    | @snoc turns s' turn s'' hr hstep ih =>
      obtain ⟨hser, hg'⟩ := h.run hg hr
      rw [commits_snoc, ← List.append_assoc]
      exact hser.seen_step hg' hs hstep ih
  apply hseen
  rw [hi]
  exact .ret

end Observes
end Base
