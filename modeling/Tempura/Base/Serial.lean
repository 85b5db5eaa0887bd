import Tempura.Base.Locking

namespace Base
set_option autoImplicit true

/-- The code takes locks for reading only and updates nothing. -/
def Code.ReadOnly : Code κ V α → Prop
  | .ret _ => True
  | .acquire _ m rest => m = .read ∧ rest.ReadOnly
  | .look _ rest => ∀ v, (rest v).ReadOnly
  | .update _ _ _ => False
  | .release _ rest => rest.ReadOnly

theorem Code.readOnly_bind {V : κ → Type} {p : Code κ V α} {k : α → Code κ V β} (hp : p.ReadOnly)
    (hk : ∀ a, (k a).ReadOnly) : (p >>= k).ReadOnly := by
  change (p.bind k).ReadOnly
  induction p with
  | ret a => exact hk a
  | acquire x m rest ih => exact ⟨hp.1, ih hp.2⟩
  | look x rest ih => exact fun v => ih v (hp v)
  | update x f rest ih => exact hp.elim
  | release x rest ih => exact ih hp

theorem Code.ReadOnly.withLock {V : κ → Type} {body : Code κ V α} (h : body.ReadOnly) (x : κ) :
    (Code.withLock x .read body).ReadOnly :=
  ⟨rfl, Code.readOnly_bind (p := body) h (fun _ => trivial)⟩

section Serial
variable {ι κ : Type} {V : κ → Type} {α : Type} [DecidableEq κ]

theorem Code.ReadOnly.run_cells {p : Code κ V α} (h : p.ReadOnly) (c : (x : κ) → V x) :
    (p.run c).2 = c := by
  induction p with
  | ret a => rfl
  | acquire x m rest ih => exact ih h.2
  | look x rest ih => exact ih (c x) (h (c x))
  | update x f rest ih => exact h.elim
  | release x rest ih => exact ih h

def serial (code : ι → Code κ V α) (c : (x : κ) → V x) (log : List ι) : (x : κ) → V x :=
  log.foldl (fun c i => ((code i).run c).2) c

theorem serial_snoc (code : ι → Code κ V α) (c : (x : κ) → V x) (log : List ι) (i : ι) :
    serial code c (log ++ [i]) = ((code i).run (serial code c log)).2 := by
  rw [serial, List.foldl_append]
  rfl

/-- The cells as a thread sees them: those it has locked as they are, the others as in `B`. -/
def Thread.over (t : Thread κ V α) (cells B : (x : κ) → V x) : (x : κ) → V x :=
  fun x => if t.held x = none then B x else cells x

/-- The threads look as if those that have committed had run one after another, and the others had
not changed anything yet. Threads that are not strict only read. -/
structure Serial (strict : ι → Prop) (code : ι → Code κ V α) (c : (x : κ) → V x) (log : List ι)
    (s : Locked ι κ V α) : Prop where
  exclusive : s.Exclusive
  phases : ∀ i, strict i → (s.thread i).code.TwoPhase (!(s.thread i).committed) (fun _ _ => True)
  readOnly : ∀ i, ¬ strict i → (code i).ReadOnly
  readers : ∀ i, ¬ strict i →
    (s.thread i).code.ReadOnly ∧ ∀ x, (s.thread i).held x ≠ some .write
  clean : ∀ x, (∀ i, (s.thread i).held x = some .write → (s.thread i).committed = true) →
    s.cells x = serial code c log x
  begun : ∀ i, (s.thread i).committed = false →
    (s.thread i).code = code i ∨ ∃ x, (s.thread i).held x ≠ none
  running : ∀ i, strict i → (s.thread i).committed = false →
    ∀ B, (∀ x, (s.thread i).held x ≠ none → B x = serial code c log x) →
      (code i).run B = (s.thread i).code.run ((s.thread i).over s.cells B)
  settled : ∀ i, strict i → (s.thread i).committed = true →
    ∃ before after, log = before ++ i :: after ∧
      ∀ B, ((s.thread i).code.run B).1 = ((code i).run (serial code c before)).1
  logged : ∀ i ∈ log, (s.thread i).committed = true
  once : log.Nodup

variable {strict : ι → Prop} {code : ι → Code κ V α} {c : (x : κ) → V x} {log : List ι}

theorem serial_start (hstrict : ∀ i, strict i → (code i).TwoPhase true (fun _ _ => True))
    (hread : ∀ i, ¬ strict i → (code i).ReadOnly) :
    Serial strict code c [] (Locked.start code c) where
  exclusive := nofun
  phases := hstrict
  readOnly := hread
  readers i hi := ⟨hread i hi, nofun⟩
  clean _ _ := rfl
  begun _ _ := .inl rfl
  running _ _ _ _ _ := rfl
  settled := nofun
  logged := nofun
  once := .nil

theorem Serial.cell_of_held {s : Locked ι κ V α} (h : Serial strict code c log s)
    (hi : (s.thread i).held x ≠ none) (hr : (s.thread i).held x ≠ some .write) :
    s.cells x = serial code c log x := by
  apply h.clean
  intro j hj
  rw [h.exclusive j i x hj hi] at hj
  exact absurd hj hr

theorem Serial.cells_of_commit {s : Locked ι κ V α} (h : Serial strict code c log s)
    (hi : (s.thread i).code = .release x rest) (hc : (s.thread i).committed = false) :
    serial code c (log ++ [i]) = (s.thread i).over s.cells (serial code c log) := by
  rw [serial_snoc]
  by_cases hs : strict i
  · have hphase := h.phases i hs
    rw [hi] at hphase
    obtain ⟨a, ha⟩ := Code.TwoPhase.run_settled (p := rest) hphase
    rw [h.running i hs hc _ (fun _ _ => rfl), hi]
    change (rest.run _).2 = _
    rw [ha]
  · rw [(h.readOnly i hs).run_cells]
    funext y
    by_cases hy : (s.thread i).held y = none
    · rw [Thread.over, if_pos hy]
    · rw [Thread.over, if_neg hy]
      exact (h.cell_of_held hy ((h.readers i hs).2 y)).symm

theorem Serial.held_of_commit {s : Locked ι κ V α} (h : Serial strict code c log s)
    (hi : (s.thread i).code = .release x rest) (hc : (s.thread i).committed = false)
    (hji : j ≠ i) (hj : (s.thread j).held y ≠ none) :
    serial code c (log ++ [i]) y = serial code c log y := by
  rw [h.cells_of_commit hi hc]
  by_cases hy : (s.thread i).held y = none
  · rw [Thread.over, if_pos hy]
  · rw [Thread.over, if_neg hy]
    apply h.cell_of_held hj
    intro hw
    exact hji (h.exclusive j i y hw hy)

/-- A strict thread has the result it has when it runs alone at its place in the log. -/
theorem Serial.result {s : Locked ι κ V α} (h : Serial strict code c log s) (hg : s.Guarded rank)
    (hs : strict i) (hne : code i ≠ .ret a) (hi : (s.thread i).code = .ret a) :
    ∃ before after, log = before ++ i :: after ∧ a = ((code i).run (serial code c before)).1 := by
  cases hc : (s.thread i).committed with
  | true =>
    obtain ⟨before, after, hlog, hres⟩ := h.settled i hs hc
    refine ⟨before, after, hlog, ?_⟩
    rw [← hres (serial code c before), hi]
    rfl
  | false =>
    have hord := hg i
    rw [hi] at hord
    cases h.begun i hc with
    | inl hcode => exact absurd (hcode.symm.trans hi) hne
    | inr hheld =>
      obtain ⟨x, hx⟩ := hheld
      exact absurd (hord x) hx

theorem Serial.cells_of_rest {s : Locked ι κ V α} (h : Serial strict code c log s)
    (hrest : ∀ i x, (s.thread i).held x = none) : s.cells = serial code c log := by
  funext x
  apply h.clean
  intro i hi
  rw [hrest i x] at hi
  cases hi

variable [DecidableEq ι]

theorem Serial.set {s : Locked ι κ V α} (h : Serial strict code c log s) {i : ι}
    {t : Thread κ V α} (cells : (x : κ) → V x) (hexcl : (s.set i t).Exclusive)
    (hcommit : t.committed = (s.thread i).committed)
    (hphase : strict i → t.code.TwoPhase (!t.committed) (fun _ _ => True))
    (hread : ¬ strict i → t.code.ReadOnly ∧ ∀ x, t.held x ≠ some .write)
    (hkeep : ∀ x, (s.thread i).held x = some .write → t.held x = some .write ∨ t.committed = true)
    (hcells : ∀ x, cells x ≠ s.cells x → t.held x = some .write ∧ t.committed = false)
    (hbegun : t.committed = false → t.code = code i ∨ ∃ x, t.held x ≠ none)
    (hrun : strict i → t.committed = false →
      ∀ B, (∀ x, t.held x ≠ none → B x = serial code c log x) →
        (code i).run B = t.code.run (t.over cells B))
    (hsettled : strict i → t.committed = true →
      ∀ B, (t.code.run B).1 = ((s.thread i).code.run B).1) :
    Serial strict code c log { s.set i t with cells := cells } where
  exclusive := hexcl
  phases := by
    intro j hj
    by_cases hji : j = i
    · subst j
      simpa only [Locked.set, Function.update_self] using hphase hj
    · simpa only [Locked.set, Function.update_of_ne hji] using h.phases j hj
  readOnly := h.readOnly
  readers := by
    intro j hj
    by_cases hji : j = i
    · subst j
      simpa only [Locked.set, Function.update_self] using hread hj
    · simpa only [Locked.set, Function.update_of_ne hji] using h.readers j hj
  clean := by
    intro x hx
    have hself := hx i
    simp only [Locked.set, Function.update_self] at hself
    have hsame : cells x = s.cells x := by
      by_contra hne
      obtain ⟨hw, hc⟩ := hcells x hne
      rw [hself hw] at hc
      cases hc
    refine hsame.trans (h.clean x ?_)
    intro j hj
    by_cases hji : j = i
    · subst j
      rw [← hcommit]
      exact (hkeep x hj).elim hself id
    · have hother := hx j
      simp only [Locked.set, Function.update_of_ne hji] at hother
      exact hother hj
  begun := by
    intro j hj
    by_cases hji : j = i
    · subst j
      simp only [Locked.set, Function.update_self] at hj ⊢
      exact hbegun hj
    · simp only [Locked.set, Function.update_of_ne hji] at hj ⊢
      exact h.begun j hj
  running := by
    intro j hs hj B hB
    by_cases hji : j = i
    · subst j
      simp only [Locked.set, Function.update_self] at hj hB ⊢
      exact hrun hs hj B hB
    · simp only [Locked.set, Function.update_of_ne hji] at hj hB ⊢
      rw [h.running j hs hj B hB]
      congr 1
      funext x
      by_cases hx : (s.thread j).held x = none
      · simp only [Thread.over, if_pos hx]
      · simp only [Thread.over, if_neg hx]
        by_contra hne
        -- a cell that changes is written by the thread that goes on, so nobody else has it
        apply hji
        refine (hexcl i j x ?_ ?_).symm
        · simp only [Locked.set, Function.update_self]
          exact (hcells x (Ne.symm hne)).1
        · simpa only [Locked.set, Function.update_of_ne hji] using hx
  settled := by
    intro j hs hj
    by_cases hji : j = i
    · subst j
      simp only [Locked.set, Function.update_self] at hj ⊢
      obtain ⟨before, after, hlog, hres⟩ := h.settled i hs (hcommit ▸ hj)
      refine ⟨before, after, hlog, ?_⟩
      intro B
      rw [hsettled hs hj B, hres B]
    · simp only [Locked.set, Function.update_of_ne hji] at hj ⊢
      exact h.settled j hs hj
  logged := by
    intro j hj
    by_cases hji : j = i
    · subst j
      simp only [Locked.set, Function.update_self]
      rw [hcommit]
      exact h.logged i hj
    · simp only [Locked.set, Function.update_of_ne hji]
      exact h.logged j hj
  once := h.once

theorem Serial.take {s : Locked ι κ V α} (h : Serial strict code c log s)
    (hi : (s.thread i).code = .acquire x m rest) (hfree : ∀ j, (s.thread j).held x ≠ some .write)
    (hself : (s.thread i).held x = none)
    (hexcl : (s.set i ((s.thread i).take x m rest)).Exclusive) :
    Serial strict code c log (s.set i ((s.thread i).take x m rest)) := by
  have htaken : ((s.thread i).take x m rest).held x ≠ none := by
    simp only [Thread.take, Function.update_self]
    exact Option.some_ne_none m
  have hothers : ∀ y, y ≠ x → ((s.thread i).take x m rest).held y = (s.thread i).held y :=
    fun y hy => Function.update_of_ne hy _ _
  refine h.set s.cells hexcl rfl ?_ ?_ ?_ (fun y hy => absurd rfl hy)
    (fun _ => .inr ⟨x, htaken⟩) ?_ ?_
  · intro hs
    have hphase := h.phases i hs
    rw [hi] at hphase
    exact hphase.2
  · intro hs
    obtain ⟨hread, hheld⟩ := h.readers i hs
    rw [hi] at hread
    refine ⟨hread.2, ?_⟩
    intro y hy
    by_cases hyx : y = x
    · subst y
      simp only [Thread.take, Function.update_self, hread.1, Option.some.injEq, reduceCtorEq] at hy
    · exact hheld y ((hothers y hyx).symm.trans hy)
  · intro y hy
    refine .inl ((hothers y ?_).trans hy)
    rintro rfl
    exact hfree i hy
  · intro hs hc B hB
    have hold : ∀ y, (s.thread i).held y ≠ none → B y = serial code c log y := by
      intro y hy
      apply hB
      rwa [hothers]
      rintro rfl
      exact hy hself
    rw [h.running i hs hc B hold, hi]
    change rest.run _ = rest.run _
    congr 1
    funext y
    by_cases hyx : y = x
    · subst y
      rw [Thread.over, Thread.over, if_pos hself, if_neg htaken, hB _ htaken]
      exact (h.clean _ (fun j hj => absurd hj (hfree j))).symm
    · rw [Thread.over, Thread.over, hothers y hyx]
  · intro hs hc B
    rw [hi]
    rfl

theorem Serial.commit {s : Locked ι κ V α} (h : Serial strict code c log s)
    (hi : (s.thread i).code = .release x rest) (hc : (s.thread i).committed = false) :
    Serial strict code c (log ++ [i]) (s.set i ((s.thread i).give x rest)) where
  exclusive := h.exclusive.give i x rest
  phases := by
    intro j hs
    by_cases hji : j = i
    · subst j
      have hphase := h.phases i hs
      rw [hi] at hphase
      simp only [Locked.set, Function.update_self]
      exact hphase
    · simpa only [Locked.set, Function.update_of_ne hji] using h.phases j hs
  readOnly := h.readOnly
  readers := by
    intro j hs
    by_cases hji : j = i
    · subst j
      obtain ⟨hread, hheld⟩ := h.readers i hs
      rw [hi] at hread
      simp only [Locked.set, Function.update_self]
      refine ⟨hread, ?_⟩
      intro y hy
      by_cases hyx : y = x
      · subst y
        simp only [Thread.give, Function.update_self, reduceCtorEq] at hy
      · simp only [Thread.give, Function.update_of_ne hyx] at hy
        exact hheld y hy
    · simpa only [Locked.set, Function.update_of_ne hji] using h.readers j hs
  clean := by
    intro y hy
    rw [h.cells_of_commit hi hc]
    by_cases hown : (s.thread i).held y = none
    · rw [Thread.over, if_pos hown]
      apply h.clean
      intro j hj
      have hji : j ≠ i := by
        rintro rfl
        rw [hown] at hj
        cases hj
      have hother := hy j
      simp only [Locked.set, Function.update_of_ne hji] at hother
      exact hother hj
    · rw [Thread.over, if_neg hown]
      rfl
  begun := by
    intro j hj
    by_cases hji : j = i
    · subst j
      simp only [Locked.set, Function.update_self, Thread.give, reduceCtorEq] at hj
    · simp only [Locked.set, Function.update_of_ne hji] at hj ⊢
      exact h.begun j hj
  running := by
    intro j hs hj B hB
    by_cases hji : j = i
    · subst j
      simp only [Locked.set, Function.update_self, Thread.give, reduceCtorEq] at hj
    · simp only [Locked.set, Function.update_of_ne hji] at hj hB ⊢
      apply h.running j hs hj
      intro y hy
      rw [hB y hy, h.held_of_commit hi hc hji hy]
  settled := by
    intro j hs hj
    by_cases hji : j = i
    · subst j
      simp only [Locked.set, Function.update_self]
      have hphase := h.phases i hs
      rw [hi] at hphase
      obtain ⟨a, ha⟩ := Code.TwoPhase.run_settled (p := rest) hphase
      refine ⟨log, [], rfl, ?_⟩
      intro B
      rw [h.running i hs hc _ (fun _ _ => rfl), hi]
      change (rest.run B).1 = (rest.run _).1
      rw [ha, ha]
    · simp only [Locked.set, Function.update_of_ne hji] at hj ⊢
      obtain ⟨before, after, hlog, hres⟩ := h.settled j hs hj
      exact ⟨before, after ++ [i], by rw [hlog, List.append_assoc, List.cons_append], hres⟩
  logged := by
    intro j hj
    by_cases hji : j = i
    · subst j
      simp only [Locked.set, Function.update_self, Thread.give]
    · simp only [Locked.set, Function.update_of_ne hji]
      cases List.mem_append.mp hj with
      | inl hold => exact h.logged j hold
      | inr hnew => exact absurd (List.mem_singleton.mp hnew) hji
  once := by
    refine List.nodup_append.mpr ⟨h.once, List.pairwise_singleton _ i, ?_⟩
    rintro j hj _ hself rfl
    rw [List.mem_singleton.mp hself] at hj
    rw [h.logged i hj] at hc
    cases hc

theorem Serial.step {s s' : Locked ι κ V α} (h : Serial strict code c log s)
    (hg : s.Guarded rank) (hstep : Locked.Step s turn s') :
    Serial strict code c (log ++ turn.commit?.toList) s' := by
  have hexcl := hstep.exclusive h.exclusive
  cases hstep with
  | @await i x rest hi hw hfree =>
    rw [Turn.commit?, Option.toList_none, List.append_nil]
    exact h.set s.cells hexcl rfl (h.phases i) (h.readers i) (fun y hy => .inl hy)
      (fun y hy => absurd rfl hy) (h.begun i) (h.running i) (fun _ _ _ => rfl)
  | @write i x rest hi hw hfree =>
    rw [Turn.commit?, Option.toList_none, List.append_nil]
    refine h.take hi ?_ (hfree i) hexcl
    intro j hj
    rw [hfree j] at hj
    cases hj
  | @read i x rest hi hfree =>
    rw [Turn.commit?, Option.toList_none, List.append_nil]
    refine h.take hi (fun j hj => hfree j (.inl hj)) ?_ hexcl
    have hord := hg i
    rw [hi] at hord
    by_contra hne
    exact absurd (hord.1 x hne) (Nat.lt_irrefl _)
  | @look i x rest hi =>
    rw [Turn.commit?, Option.toList_none, List.append_nil]
    have hord := hg i
    rw [hi] at hord
    refine h.set s.cells hexcl rfl ?_ ?_ (fun y hy => .inl hy)
      (fun y hy => absurd rfl hy) (fun _ => .inr ⟨x, hord.1⟩) ?_ ?_
    · intro hs
      have hphase := h.phases i hs
      rw [hi] at hphase
      exact hphase.2 _
    · intro hs
      obtain ⟨hread, hheld⟩ := h.readers i hs
      rw [hi] at hread
      exact ⟨hread _, hheld⟩
    · intro hs hc B hB
      rw [h.running i hs hc B hB, hi]
      change (rest (Thread.over _ _ _ x)).run _ = _
      rw [Thread.over, if_neg hord.1]
      rfl
    · intro hs hc
      have hphase := h.phases i hs
      change (s.thread i).committed = true at hc
      rw [hi, hc] at hphase
      exact absurd hphase.1 (by decide)
  | @update i x f rest hi =>
    rw [Turn.commit?, Option.toList_none, List.append_nil]
    have hord := hg i
    rw [hi] at hord
    have hwrite : strict i := by
      by_contra hs
      have hread := (h.readers i hs).1
      rw [hi] at hread
      exact hread
    have hphase := h.phases i hwrite
    rw [hi] at hphase
    have huncommitted : (s.thread i).committed = false := Bool.not_eq_true' _ ▸ hphase.1
    refine h.set _ hexcl rfl (fun _ => hphase.2) (fun hs => absurd hwrite hs) (fun y hy => .inl hy)
      ?_ (fun _ => .inr ⟨x, ?_⟩) ?_ ?_
    · intro y hy
      by_cases hyx : y = x
      · subst y
        exact ⟨hord.1, huncommitted⟩
      · exact absurd (Function.update_of_ne hyx _ _) hy
    · change (s.thread i).held x ≠ none
      rw [hord.1]
      exact Option.some_ne_none _
    · intro hs hc B hB
      rw [h.running i hs huncommitted B hB, hi]
      change rest.run _ = rest.run _
      congr 1
      funext y
      by_cases hyx : y = x
      · subst y
        simp only [Thread.over, Thread.goOn, hord.1, Function.update_self, reduceCtorEq, if_false]
      · simp only [Thread.over, Thread.goOn, Function.update_of_ne hyx]
    · intro hs hc
      change (s.thread i).committed = true at hc
      rw [huncommitted] at hc
      cases hc
  | @commit i x rest hi hc => exact h.commit hi hc
  | @release i x rest hi hc =>
    rw [Turn.commit?, Option.toList_none, List.append_nil]
    refine h.set s.cells hexcl hc.symm ?_ ?_ (fun y hy => .inr rfl)
      (fun y hy => absurd rfl hy) nofun nofun ?_
    · intro hs
      have hphase := h.phases i hs
      rw [hi] at hphase
      exact hphase
    · intro hs
      obtain ⟨hread, hheld⟩ := h.readers i hs
      rw [hi] at hread
      refine ⟨hread, ?_⟩
      intro y hy
      by_cases hyx : y = x
      · subst y
        simp only [Thread.give, Function.update_self, reduceCtorEq] at hy
      · simp only [Thread.give, Function.update_of_ne hyx] at hy
        exact hheld y hy
    · intro hs _ B
      rw [hi]
      rfl

theorem Serial.run {s s' : Locked ι κ V α} (h : Serial strict code c log s) (hg : s.Guarded rank)
    (hrun : Run Locked.Step s turns s') :
    Serial strict code c (log ++ commits turns) s' ∧ s'.Guarded rank := by
  induction hrun with
  | nil =>
    rw [commits, List.filterMap_nil, List.append_nil]
    exact ⟨h, hg⟩
  | @snoc turns s' turn s'' hr hstep ih =>
    refine ⟨?_, hstep.guarded ih.2⟩
    rw [commits_snoc, ← List.append_assoc]
    exact ih.1.step ih.2 hstep

end Serial
end Base
