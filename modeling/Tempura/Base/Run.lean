import Mathlib.Data.List.Induction

namespace Base
set_option autoImplicit true

/-- Finite runs of a labelled step relation, with the labels in order. -/
inductive Run (step : σ → ε → σ → Prop) (s₀ : σ) : List ε → σ → Prop
  | nil : Run step s₀ [] s₀
  | snoc : Run step s₀ es s → step s e s' → Run step s₀ (es ++ [e]) s'

theorem Run.append {step : σ → ε → σ → Prop} (h : Run step s es t) (h' : Run step t es' u) :
    Run step s (es ++ es') u := by
  induction h' with
  | nil =>
    rw [List.append_nil]
    exact h
  | snoc hr hs ih =>
    rw [← List.append_assoc]
    exact .snoc ih hs

theorem Run.mono {step step' : σ → ε → σ → Prop} (h : Run step s₀ es s)
    (hstep : ∀ {s e s'}, step s e s' → step' s e s') : Run step' s₀ es s := by
  induction h with
  | nil => exact .nil
  | snoc hr hs ih => exact .snoc ih (hstep hs)

/-- A property that permitted steps keep holds at the end of every run of permitted steps. -/
theorem Run.invariant {step : σ → ε → σ → Prop} {I : σ → Prop} {P : ε → Prop}
    (h : Run step s₀ es s) (h0 : I s₀) (hP : ∀ e ∈ es, P e)
    (hstep : ∀ {s e s'}, I s → P e → step s e s' → I s') : I s := by
  induction h with
  | nil => exact h0
  | @snoc es s e s' hr hs ih =>
    apply hstep (ih _) (hP e _) hs
    · intro e' he'
      exact hP e' (List.mem_append_left _ he')
    · exact List.mem_append_right _ List.mem_cons_self

theorem Run.of_concat {step : σ → ε → σ → Prop} (h : Run step s₀ (es ++ [e]) s') :
    ∃ s, Run step s₀ es s ∧ step s e s' := by
  generalize hl : es ++ [e] = l at h
  cases h with
  | nil => exact absurd hl (List.append_ne_nil_of_right_ne_nil es (List.cons_ne_nil e []))
  | snoc hr hs =>
    obtain ⟨rfl, he⟩ := List.append_inj' hl rfl
    cases he
    exact ⟨_, hr, hs⟩

section Log
variable {step : σ → ε → σ → Prop} {s₀ : σ} {R : List ε → σ → List ν → Prop}

open Classical in
noncomputable def grown (step : σ → ε → σ → Prop) (s₀ : σ) (R : List ε → σ → List ν → Prop)
    (es : List ε) (e : ε) (log : List ν) : List ν :=
  if h : ∃ new s, Run step s₀ (es ++ [e]) s ∧ R (es ++ [e]) s (log ++ new) then log ++ h.choose
  else log

/-- One log for all runs, which grows with the labels. -/
noncomputable def logOf (step : σ → ε → σ → Prop) (s₀ : σ) (R : List ε → σ → List ν → Prop)
    (es : List ε) : List ν :=
  es.reverseRecOn [] (grown step s₀ R)

theorem logOf_concat (es : List ε) (e : ε) :
    logOf step s₀ R (es ++ [e]) = grown step s₀ R es e (logOf step s₀ R es) := by
  rw [logOf, List.reverseRecOn_concat]
  rfl

theorem logOf_isPrefix (es es' : List ε) : logOf step s₀ R es <+: logOf step s₀ R (es ++ es') := by
  induction es' using List.reverseRecOn with
  | nil => simp only [List.append_nil, List.prefix_rfl]
  | append_singleton es' e ih =>
    refine ih.trans ?_
    rw [← List.append_assoc, logOf_concat, grown]
    split
    · exact List.prefix_append _ _
    · exact List.prefix_refl _

theorem Run.logged (h : Run step s₀ es s) (h0 : R [] s₀ [])
    (hdet : ∀ {es s log e s' s''}, R es s log → step s e s' → step s e s'' → s' = s'')
    (hstep : ∀ {es s log e s'}, R es s log → step s e s' → ∃ new, R (es ++ [e]) s' (log ++ new)) :
    R es s (logOf step s₀ R es) := by
  -- the labels determine the state, so the log is not about some other run
  suffices hall : R es s (logOf step s₀ R es) ∧ ∀ t, Run step s₀ es t → t = s from hall.1
  induction h with
  | nil =>
    refine ⟨?_, fun t ht => ?_⟩
    · rw [logOf, List.reverseRecOn_nil]
      exact h0
    · generalize hl : ([] : List ε) = l at ht
      cases ht with
      | nil => rfl
      | snoc hr hs => exact absurd hl.symm (List.append_ne_nil_of_right_ne_nil _ (by simp))
  | @snoc es s e s' hr hs ih =>
    obtain ⟨hlog, hunique⟩ := ih
    have hunique' : ∀ t, Run step s₀ (es ++ [e]) t → t = s' := by
      intro t ht
      obtain ⟨u, hu, hstep'⟩ := ht.of_concat
      rw [hunique u hu] at hstep'
      exact hdet hlog hstep' hs
    refine ⟨?_, hunique'⟩
    obtain ⟨new, hnew⟩ := hstep hlog hs
    have hex : ∃ new t, Run step s₀ (es ++ [e]) t ∧
        R (es ++ [e]) t (logOf step s₀ R es ++ new) := ⟨new, s', hr.snoc hs, hnew⟩
    rw [logOf_concat, grown, dif_pos hex]
    obtain ⟨t, ht, hlogged⟩ := hex.choose_spec
    rw [← hunique' t ht]
    exact hlogged

/-- If labels determine the steps and every step can add to the log, one log serves all runs. -/
theorem exists_log (step : σ → ε → σ → Prop) {s₀ : σ} (h0 : R [] s₀ [])
    (hdet : ∀ {es s log e s' s''}, R es s log → step s e s' → step s e s'' → s' = s'')
    (hstep : ∀ {es s log e s'}, R es s log → step s e s' → ∃ new, R (es ++ [e]) s' (log ++ new)) :
    ∃ log : List ε → List ν, (∀ es es', log es <+: log (es ++ es')) ∧
      ∀ es s, Run step s₀ es s → R es s (log es) :=
  ⟨logOf step s₀ R, logOf_isPrefix, fun _ _ h => h.logged h0 hdet hstep⟩

end Log

theorem run_foldl {step : σ → ε → σ → Prop} {next : σ → ε → σ} (s : σ) (es : List ε)
    (h : ∀ e ∈ es, ∀ s, step s e (next s e)) : Run step s es (es.foldl next s) := by
  induction es using List.reverseRecOn with
  | nil => exact .nil
  | append_singleton es e ih =>
    rw [List.foldl_append]
    have hes := ih (fun e' he' => h e' (List.mem_append_left _ he'))
    exact .snoc hes (h e (List.mem_append_right _ List.mem_cons_self) _)

theorem forall_split_concat {P : List ε → ε → Prop} {es : List ε} {last : ε} :
    (∀ before e after, es ++ [last] = before ++ e :: after → P before e) ↔
      (∀ before e after, es = before ++ e :: after → P before e) ∧ P es last := by
  constructor
  · intro h
    constructor
    · intro before e after heq
      apply h before e (after ++ [last])
      rw [heq, List.append_assoc, List.cons_append]
    · exact h es last [] rfl
  · rintro ⟨hinit, hlast⟩ before e after heq
    cases after using List.reverseRecOn with
    | nil =>
      obtain ⟨rfl, he⟩ := List.append_inj' heq rfl
      cases he
      exact hlast
    | append_singleton after x =>
      rw [← List.cons_append, ← List.append_assoc] at heq
      exact hinit before e after (List.append_inj' heq rfl).1

/-- `P` holds of every step that the events of a list take from `s`. -/
def Along (next : σ → ε → σ) (P : σ → ε → Prop) : σ → List ε → Prop
  | _, [] => True
  | s, e :: es => P s e ∧ Along next P (next s e) es

theorem Along.invariant {next : σ → ε → σ} {I : σ → Prop} {P : σ → ε → Prop}
    (h : Along next P s es) (h0 : I s) (hstep : ∀ {s e}, I s → P s e → I (next s e)) :
    I (es.foldl next s) := by
  induction es generalizing s with
  | nil => exact h0
  | cons e es ih =>
    obtain ⟨hP, hes⟩ := h
    exact ih hes (hstep h0 hP)

/-- Two properties of steps that agree under an invariant agree on whole runs. -/
theorem along_iff {next : σ → ε → σ} {I : σ → Prop} {P Q : σ → ε → Prop}
    (hPQ : ∀ {s} e, I s → (P s e ↔ Q s e)) (hI : ∀ {s} e, I s → P s e → I (next s e)) (h0 : I s)
    (es : List ε) : Along next P s es ↔ Along next Q s es := by
  induction es generalizing s with
  | nil => exact Iff.rfl
  | cons e es ih =>
    constructor
    · rintro ⟨hP, hes⟩
      exact ⟨(hPQ e h0).mp hP, (ih (hI e h0 hP)).mp hes⟩
    · rintro ⟨hQ, hes⟩
      have hP := (hPQ e h0).mpr hQ
      exact ⟨hP, (ih (hI e h0 hP)).mpr hes⟩

end Base
