import Mathlib.Logic.Function.Basic
import Tempura.Base.Run

namespace Base
set_option autoImplicit true

inductive Mode where
  | read
  | write
  deriving DecidableEq

/-- What a thread has left to do. Every cell is guarded by a lock of its own. -/
inductive Code (κ : Type) (V : κ → Type) (α : Type) where
  | ret (a : α)
  | acquire (x : κ) (m : Mode) (rest : Code κ V α)
  | look (x : κ) (rest : V x → Code κ V α)
  | update (x : κ) (f : V x → V x) (rest : Code κ V α)
  | release (x : κ) (rest : Code κ V α)

namespace Code
variable {κ : Type} {V : κ → Type}

def bind : Code κ V α → (α → Code κ V β) → Code κ V β
  | .ret a, k => k a
  | .acquire x m rest, k => .acquire x m (rest.bind k)
  | .look x rest, k => .look x (fun v => (rest v).bind k)
  | .update x f rest, k => .update x f (rest.bind k)
  | .release x rest, k => .release x (rest.bind k)

theorem bind_assoc (p : Code κ V α) (k : α → Code κ V β) (k' : β → Code κ V γ) :
    (p.bind k).bind k' = p.bind (fun a => (k a).bind k') := by
  induction p with
  | ret a => rfl
  | acquire x m rest ih => exact congrArg (Code.acquire x m) ih
  | look x rest ih => exact congrArg (Code.look x) (funext ih)
  | update x f rest ih => exact congrArg (Code.update x f) ih
  | release x rest ih => exact congrArg (Code.release x) ih

instance codeMonad : Monad (Code κ V) where
  pure := .ret
  bind := bind

def lock (x : κ) (m : Mode) : Code κ V Unit := .acquire x m (.ret ())

def get (x : κ) : Code κ V (V x) := .look x .ret

def modify (x : κ) (f : V x → V x) : Code κ V Unit := .update x f (.ret ())

def unlock (x : κ) : Code κ V Unit := .release x (.ret ())

/-- A lock that is taken first and given back when all is done. -/
def withLock (x : κ) (m : Mode) (body : Code κ V α) : Code κ V α := do
  lock x m
  let a ← body
  unlock x
  return a

abbrev Held (κ : Type) := κ → Option Mode

section Meaning
variable [DecidableEq κ]

def run : Code κ V α → ((x : κ) → V x) → α × ((x : κ) → V x)
  | .ret a, c => (a, c)
  | .acquire _ _ rest, c => rest.run c
  | .look x rest, c => (rest (c x)).run c
  | .update x f rest, c => rest.run (Function.update c x (f (c x)))
  | .release _ rest, c => rest.run c

/-- Locks are taken in the order of their ranks, and cells are used under their locks. -/
def Ordered (rank : κ → Nat) : Held κ → Code κ V α → (α → Held κ → Prop) → Prop
  | held, .ret a, post => post a held
  | held, .acquire x m rest, post =>
    (∀ y, held y ≠ none → rank y < rank x) ∧
      Ordered rank (Function.update held x (some m)) rest post
  | held, .look x rest, post => held x ≠ none ∧ ∀ v, Ordered rank held (rest v) post
  | held, .update x _ rest, post => held x = some .write ∧ Ordered rank held rest post
  | held, .release x rest, post =>
    held x ≠ none ∧ Ordered rank (Function.update held x none) rest post

end Meaning

/-- Once a lock is given back, as the flag says, all that follows is giving back locks. -/
def TwoPhase : Bool → Code κ V α → (α → Bool → Prop) → Prop
  | growing, .ret a, post => post a growing
  | growing, .acquire _ _ rest, post => growing = true ∧ TwoPhase growing rest post
  | growing, .look _ rest, post => growing = true ∧ ∀ v, TwoPhase growing (rest v) post
  | growing, .update _ _ rest, post => growing = true ∧ TwoPhase growing rest post
  | _, .release _ rest, post => TwoPhase false rest post

theorem twoPhase_bind (p : Code κ V α) (k : α → Code κ V β) (growing : Bool)
    (post : β → Bool → Prop) :
    (p >>= k).TwoPhase growing post ↔
      p.TwoPhase growing (fun a growing' => (k a).TwoPhase growing' post) := by
  change (p.bind k).TwoPhase growing post ↔ _
  induction p generalizing growing with
  | ret a => rfl
  | acquire x m rest ih => exact and_congr_right (fun _ => ih _)
  | look x rest ih => exact and_congr_right (fun _ => forall_congr' (fun v => ih v _))
  | update x f rest ih => exact and_congr_right (fun _ => ih _)
  | release x rest ih => exact ih _

@[simp] theorem twoPhase_pure (a : α) (growing : Bool) (post : α → Bool → Prop) :
    (pure a : Code κ V α).TwoPhase growing post ↔ post a growing := Iff.rfl

@[simp] theorem twoPhase_get (x : κ) (growing : Bool) (post : V x → Bool → Prop) :
    (get x).TwoPhase growing post ↔ growing = true ∧ ∀ v, post v growing := Iff.rfl

@[simp] theorem twoPhase_modify (x : κ) (f : V x → V x) (growing : Bool)
    (post : Unit → Bool → Prop) :
    (modify x f).TwoPhase growing post ↔ growing = true ∧ post () growing := Iff.rfl

theorem TwoPhase.mono {p : Code κ V α} {post post' : α → Bool → Prop}
    (h : p.TwoPhase growing post) (hpost : ∀ a growing', post a growing' → post' a growing') :
    p.TwoPhase growing post' := by
  induction p generalizing growing with
  | ret a => exact hpost a growing h
  | acquire x m rest ih => exact ⟨h.1, ih h.2⟩
  | look x rest ih => exact ⟨h.1, fun v => ih v (h.2 v)⟩
  | update x f rest ih => exact ⟨h.1, ih h.2⟩
  | release x rest ih => exact ih h

theorem TwoPhase.withLock {body : Code κ V α} (post : α → Bool → Prop)
    (h : body.TwoPhase true post) (x : κ) (m : Mode) :
    (withLock x m body).TwoPhase true (fun _ growing => growing = false) := by
  refine ⟨rfl, (twoPhase_bind body _ _ _).mpr (h.mono ?_)⟩
  intro a growing _
  exact rfl

theorem twoPhase_forM {body : α → Code κ V PUnit}
    (h : ∀ a, (body a).TwoPhase true (fun _ growing => growing = true)) (l : List α) :
    (forM l body).TwoPhase true (fun _ growing => growing = true) := by
  induction l with
  | nil => rfl
  | cons a l ih =>
    rw [List.forM_cons, twoPhase_bind]
    apply (h a).mono
    rintro _ _ rfl
    exact ih

section Rules
variable [DecidableEq κ] {rank : κ → Nat}

@[simp] theorem run_bind (p : Code κ V α) (k : α → Code κ V β) (c : (x : κ) → V x) :
    (p >>= k).run c = (k (p.run c).1).run (p.run c).2 := by
  change (p.bind k).run c = _
  induction p generalizing c with
  | ret a => rfl
  | acquire x m rest ih => exact ih c
  | look x rest ih => exact ih (c x) c
  | update x f rest ih => exact ih _
  | release x rest ih => exact ih c

@[simp] theorem run_pure (a : α) (c : (x : κ) → V x) :
    (pure a : Code κ V α).run c = (a, c) := rfl

@[simp] theorem run_lock (x : κ) (m : Mode) (c : (x : κ) → V x) :
    (lock x m : Code κ V Unit).run c = ((), c) := rfl

@[simp] theorem run_get (x : κ) (c : (x : κ) → V x) : (get x).run c = (c x, c) := rfl

@[simp] theorem run_modify (x : κ) (f : V x → V x) (c : (x : κ) → V x) :
    (modify x f).run c = ((), Function.update c x (f (c x))) := rfl

@[simp] theorem run_unlock (x : κ) (c : (x : κ) → V x) :
    (unlock x : Code κ V Unit).run c = ((), c) := rfl

@[simp] theorem run_withLock (x : κ) (m : Mode) (body : Code κ V α) (c : (x : κ) → V x) :
    (withLock x m body).run c = body.run c := by
  simp only [withLock, run_bind, run_lock, run_unlock, run_pure]

theorem run_forM (x : κ) (body : α → Code κ V PUnit) (f : V x → α → V x)
    (h : ∀ a c, (body a).run c = ((), Function.update c x (f (c x) a))) (l : List α)
    (c : (x : κ) → V x) :
    (forM l body).run c = ((), Function.update c x (l.foldl f (c x))) := by
  induction l generalizing c with
  | nil => simp
  | cons a l ih =>
    rw [List.forM_cons, run_bind, h, ih]
    simp

theorem ordered_bind (p : Code κ V α) (k : α → Code κ V β) (held : Held κ)
    (post : β → Held κ → Prop) :
    (p >>= k).Ordered rank held post ↔
      p.Ordered rank held (fun a held' => (k a).Ordered rank held' post) := by
  change (p.bind k).Ordered rank held post ↔ _
  induction p generalizing held with
  | ret a => rfl
  | acquire x m rest ih => exact and_congr_right (fun _ => ih _)
  | look x rest ih => exact and_congr_right (fun _ => forall_congr' (fun v => ih v _))
  | update x f rest ih => exact and_congr_right (fun _ => ih _)
  | release x rest ih => exact and_congr_right (fun _ => ih _)

@[simp] theorem ordered_pure (a : α) (held : Held κ) (post : α → Held κ → Prop) :
    (pure a : Code κ V α).Ordered rank held post ↔ post a held := Iff.rfl

@[simp] theorem ordered_get (x : κ) (held : Held κ) (post : V x → Held κ → Prop) :
    (get x).Ordered rank held post ↔ held x ≠ none ∧ ∀ v, post v held := Iff.rfl

@[simp] theorem ordered_modify (x : κ) (f : V x → V x) (held : Held κ)
    (post : Unit → Held κ → Prop) :
    (modify x f).Ordered rank held post ↔ held x = some .write ∧ post () held := Iff.rfl

theorem Ordered.mono {p : Code κ V α} {held : Held κ} {post post' : α → Held κ → Prop}
    (h : p.Ordered rank held post) (hpost : ∀ a held', post a held' → post' a held') :
    p.Ordered rank held post' := by
  induction p generalizing held with
  | ret a => exact hpost a held h
  | acquire x m rest ih => exact ⟨h.1, ih h.2⟩
  | look x rest ih => exact ⟨h.1, fun v => ih v (h.2 v)⟩
  | update x f rest ih => exact ⟨h.1, ih h.2⟩
  | release x rest ih => exact ⟨h.1, ih h.2⟩

theorem held_back {held : Held κ} (hx : held x = none) (m : Mode) :
    Function.update (Function.update held x (some m)) x none = held := by
  rw [Function.update_idem, ← hx, Function.update_eq_self]

theorem Ordered.withLock {body : Code κ V α} (hrank : ∀ y, held y ≠ none → rank y < rank x)
    (h : body.Ordered rank (Function.update held x (some m))
      (fun _ held' => held' = Function.update held x (some m))) :
    (withLock x m body).Ordered rank held (fun _ held' => held' = held) := by
  have hx : held x = none := by
    by_contra hne
    exact absurd (hrank x hne) (Nat.lt_irrefl _)
  refine ⟨hrank, (ordered_bind body _ _ _).mpr (h.mono ?_)⟩
  rintro a _ rfl
  refine ⟨?_, ?_⟩
  · rw [Function.update_self]
    exact Option.some_ne_none m
  · exact held_back hx m

theorem ordered_forM {body : α → Code κ V PUnit} {held : Held κ}
    (h : ∀ a, (body a).Ordered rank held (fun _ held' => held' = held)) (l : List α) :
    (forM l body).Ordered rank held (fun _ held' => held' = held) := by
  induction l with
  | nil => rfl
  | cons a l ih =>
    rw [List.forM_cons, ordered_bind]
    apply (h a).mono
    rintro _ _ rfl
    exact ih

theorem TwoPhase.run_settled {p : Code κ V α} (h : p.TwoPhase false post) :
    ∃ a, ∀ c, p.run c = (a, c) := by
  induction p with
  | ret a => exact ⟨a, fun _ => rfl⟩
  | acquire x m rest ih => exact absurd h.1 (by decide)
  | look x rest ih => exact absurd h.1 (by decide)
  | update x f rest ih => exact absurd h.1 (by decide)
  | release x rest ih => exact ih h

end Rules

end Code

/-- A thread that waits for the lock it writes next, or has begun to give back locks. -/
structure Thread (κ : Type) (V : κ → Type) (α : Type) where
  code : Code κ V α
  held : Code.Held κ := fun _ => none
  waiting : Bool := false
  committed : Bool := false

namespace Thread
variable {κ : Type} {V : κ → Type} {α : Type}

def await (t : Thread κ V α) : Thread κ V α := { t with waiting := true }

def goOn (t : Thread κ V α) (rest : Code κ V α) : Thread κ V α := { t with code := rest }

variable [DecidableEq κ]

def take (t : Thread κ V α) (x : κ) (m : Mode) (rest : Code κ V α) : Thread κ V α :=
  { t with code := rest, held := Function.update t.held x (some m), waiting := false }

def give (t : Thread κ V α) (x : κ) (rest : Code κ V α) : Thread κ V α :=
  { t with code := rest, held := Function.update t.held x none, committed := true }

end Thread

structure Locked (ι κ : Type) (V : κ → Type) (α : Type) where
  cells : (x : κ) → V x
  thread : ι → Thread κ V α

/-- Whose turn it was; a thread commits when it gives back its first lock. -/
inductive Turn (ι : Type) where
  | step (i : ι)
  | commit (i : ι)
  deriving DecidableEq

def Turn.commit? : Turn ι → Option ι
  | .step _ => none
  | .commit i => some i

def Turn.who : Turn ι → ι
  | .step i => i
  | .commit i => i

/-- The threads that have committed, in the order in which they did. -/
def commits (turns : List (Turn ι)) : List ι := turns.filterMap Turn.commit?

theorem commits_snoc (turns : List (Turn ι)) (turn : Turn ι) :
    commits (turns ++ [turn]) = commits turns ++ turn.commit?.toList := by
  rw [commits, List.filterMap_append, List.filterMap_cons, List.filterMap_nil]
  cases turn.commit? <;> rfl

namespace Locked
variable {ι κ : Type} {V : κ → Type} {α : Type}

/-- The thread holds the lock as a writer or waits for it as one. -/
def Claims (s : Locked ι κ V α) (i : ι) (x : κ) : Prop :=
  (s.thread i).held x = some .write ∨
    (s.thread i).waiting = true ∧ ∃ rest, (s.thread i).code = .acquire x .write rest

def start (code : ι → Code κ V α) (c : (x : κ) → V x) : Locked ι κ V α :=
  ⟨c, fun i => { code := code i }⟩

section Steps
variable [DecidableEq ι]

def set (s : Locked ι κ V α) (i : ι) (t : Thread κ V α) : Locked ι κ V α :=
  { s with thread := Function.update s.thread i t }

@[simp] theorem set_thread_self (s : Locked ι κ V α) (i : ι) (t : Thread κ V α) :
    (s.set i t).thread i = t := Function.update_self _ _ _

theorem set_thread_of_ne (s : Locked ι κ V α) (t : Thread κ V α) (h : j ≠ i) :
    (s.set i t).thread j = s.thread j := Function.update_of_ne h _ _

variable [DecidableEq κ]

inductive Step : Locked ι κ V α → Turn ι → Locked ι κ V α → Prop
  /-- A writer that waits keeps new readers out. -/
  | await {s : Locked ι κ V α} {i : ι} {x : κ} {rest : Code κ V α}
      (hi : (s.thread i).code = .acquire x .write rest) (hw : (s.thread i).waiting = false)
      (hfree : ∀ j, ¬ s.Claims j x) : Step s (.step i) (s.set i (s.thread i).await)
  | write {s : Locked ι κ V α} {i : ι} {x : κ} {rest : Code κ V α}
      (hi : (s.thread i).code = .acquire x .write rest) (hw : (s.thread i).waiting = true)
      (hfree : ∀ j, (s.thread j).held x = none) :
      Step s (.step i) (s.set i ((s.thread i).take x .write rest))
  | read {s : Locked ι κ V α} {i : ι} {x : κ} {rest : Code κ V α}
      (hi : (s.thread i).code = .acquire x .read rest) (hfree : ∀ j, ¬ s.Claims j x) :
      Step s (.step i) (s.set i ((s.thread i).take x .read rest))
  | look {s : Locked ι κ V α} {i : ι} {x : κ} {rest : V x → Code κ V α}
      (hi : (s.thread i).code = .look x rest) :
      Step s (.step i) (s.set i ((s.thread i).goOn (rest (s.cells x))))
  | update {s : Locked ι κ V α} {i : ι} {x : κ} {f : V x → V x} {rest : Code κ V α}
      (hi : (s.thread i).code = .update x f rest) :
      Step s (.step i)
        { s.set i ((s.thread i).goOn rest) with
          cells := Function.update s.cells x (f (s.cells x)) }
  | commit {s : Locked ι κ V α} {i : ι} {x : κ} {rest : Code κ V α}
      (hi : (s.thread i).code = .release x rest) (hc : (s.thread i).committed = false) :
      Step s (.commit i) (s.set i ((s.thread i).give x rest))
  | release {s : Locked ι κ V α} {i : ι} {x : κ} {rest : Code κ V α}
      (hi : (s.thread i).code = .release x rest) (hc : (s.thread i).committed = true) :
      Step s (.step i) (s.set i ((s.thread i).give x rest))

end Steps

/-- Who holds a lock as a writer holds it alone. -/
def Exclusive (s : Locked ι κ V α) : Prop :=
  ∀ i j x, (s.thread i).held x = some .write → (s.thread j).held x ≠ none → i = j

/-- Every thread keeps to the order of the locks and gives all of them back. -/
def Guarded [DecidableEq κ] (rank : κ → Nat) (s : Locked ι κ V α) : Prop :=
  ∀ i, (s.thread i).code.Ordered rank (s.thread i).held (fun _ held => ∀ x, held x = none)

variable [DecidableEq ι]

theorem Step.thread_of_ne [DecidableEq κ] {s s' : Locked ι κ V α} (h : Step s turn s')
    (hi : i ≠ turn.who) : s'.thread i = s.thread i := by
  cases h <;> exact Function.update_of_ne hi _ _

theorem Step.of_commit [DecidableEq κ] {s s' : Locked ι κ V α} (h : Step s (.commit i) s') :
    ∃ x rest, (s.thread i).code = .release x rest ∧ (s.thread i).committed = false := by
  cases h with
  | commit hi hc => exact ⟨_, _, hi, hc⟩

theorem Exclusive.set {s : Locked ι κ V α} (h : s.Exclusive) {i : ι} {t : Thread κ V α}
    (hw : ∀ x, t.held x = some .write → ∀ j, j ≠ i → (s.thread j).held x = none)
    (hr : ∀ x, t.held x ≠ none → ∀ j, j ≠ i → (s.thread j).held x ≠ some .write) :
    (s.set i t).Exclusive := by
  intro j k x hj hk
  by_cases hji : j = i <;> by_cases hki : k = i
  · rw [hji, hki]
  · subst j
    rw [set_thread_self] at hj
    rw [set_thread_of_ne s t hki] at hk
    exact absurd (hw x hj k hki) hk
  · subst k
    rw [set_thread_self] at hk
    rw [set_thread_of_ne s t hji] at hj
    exact absurd hj (hr x hk j hji)
  · rw [set_thread_of_ne s t hji] at hj
    rw [set_thread_of_ne s t hki] at hk
    exact h j k x hj hk

theorem Exclusive.set_of_le {s : Locked ι κ V α} (h : s.Exclusive) {i : ι} {t : Thread κ V α}
    (ht : ∀ x, t.held x ≠ none → t.held x = (s.thread i).held x) : (s.set i t).Exclusive := by
  apply h.set
  · intro x hx j hj
    by_contra hne
    rw [ht x (by rw [hx]; exact Option.some_ne_none _)] at hx
    exact hj (h i j x hx hne).symm
  · intro x hx j hj hw
    rw [ht x hx] at hx
    exact hj (h j i x hw hx)

variable [DecidableEq κ]

theorem Exclusive.take {s : Locked ι κ V α} (h : s.Exclusive) (i : ι)
    (hfree : ∀ j, (s.thread j).held x ≠ some .write)
    (hw : m = .write → ∀ j, (s.thread j).held x = none) (rest : Code κ V α) :
    (s.set i ((s.thread i).take x m rest)).Exclusive := by
  apply h.set
  · intro y hy j hj
    by_cases hyx : y = x
    · subst y
      simp only [Thread.take, Function.update_self, Option.some.injEq] at hy
      exact hw hy j
    · simp only [Thread.take, Function.update_of_ne hyx] at hy
      by_contra hne
      exact hj (h i j y hy hne).symm
  · intro y hy j hj hwrite
    by_cases hyx : y = x
    · subst y
      exact hfree j hwrite
    · simp only [Thread.take, Function.update_of_ne hyx] at hy
      exact hj (h j i y hwrite hy)

theorem Exclusive.give {s : Locked ι κ V α} (h : s.Exclusive) (i : ι) (x : κ)
    (rest : Code κ V α) : (s.set i ((s.thread i).give x rest)).Exclusive := by
  apply h.set_of_le
  intro y hy
  apply Function.update_of_ne
  rintro rfl
  exact hy (Function.update_self _ _ _)

theorem Step.exclusive {s s' : Locked ι κ V α} (h : Step s turn s') (he : s.Exclusive) :
    s'.Exclusive := by
  cases h with
  | await hi hw hfree => exact he.set_of_le (fun x _ => rfl)
  | @write i x rest hi hw hfree =>
    apply he.take i _ (fun _ => hfree)
    intro j hj
    rw [hfree j] at hj
    cases hj
  | @read i x rest hi hfree =>
    apply he.take i (fun j hj => hfree j (.inl hj))
    intro hm
    cases hm
  | look hi => exact he.set_of_le (fun x _ => rfl)
  | update hi => exact he.set_of_le (fun x _ => rfl)
  | commit hi hc => exact he.give _ _ _
  | release hi hc => exact he.give _ _ _

theorem Guarded.set {s : Locked ι κ V α} (h : s.Guarded rank) {i : ι} {t : Thread κ V α}
    (ht : t.code.Ordered rank t.held (fun _ held => ∀ x, held x = none)) :
    (s.set i t).Guarded rank :=
  (Function.forall_update_iff s.thread (fun _ (t : Thread κ V α) =>
    t.code.Ordered rank t.held (fun _ held => ∀ x, held x = none))).mpr ⟨ht, fun j _ => h j⟩

theorem Step.guarded {s s' : Locked ι κ V α} (h : Step s turn s') (hg : s.Guarded rank) :
    s'.Guarded rank := by
  cases h with
  | await hi hw hfree => exact hg.set (hg _)
  | @write i x rest hi hw hfree =>
    have hord := hg i
    rw [hi] at hord
    exact hg.set hord.2
  | @read i x rest hi hfree =>
    have hord := hg i
    rw [hi] at hord
    exact hg.set hord.2
  | @look i x rest hi =>
    have hord := hg i
    rw [hi] at hord
    exact hg.set (hord.2 _)
  | @update i x f rest hi =>
    have hord := hg i
    rw [hi] at hord
    exact hg.set hord.2
  | @commit i x rest hi hc =>
    have hord := hg i
    rw [hi] at hord
    exact hg.set hord.2
  | @release i x rest hi hc =>
    have hord := hg i
    rw [hi] at hord
    exact hg.set hord.2

theorem Guarded.step_or_acquire {s : Locked ι κ V α} (hg : s.Guarded rank)
    (hx : (s.thread i).held x ≠ none) :
    (∃ turn s', Step s turn s') ∨
      ∃ y m rest, (s.thread i).code = .acquire y m rest ∧ rank x < rank y := by
  have hord := hg i
  cases hi : (s.thread i).code with
  | ret a =>
    rw [hi] at hord
    exact absurd (hord x) hx
  | acquire y m rest =>
    rw [hi] at hord
    exact .inr ⟨y, m, rest, rfl, hord.1 x hx⟩
  | look y rest => exact .inl ⟨_, _, .look hi⟩
  | update y f rest => exact .inl ⟨_, _, .update hi⟩
  | release y rest =>
    cases hc : (s.thread i).committed with
    | true => exact .inl ⟨_, _, .release hi hc⟩
    | false => exact .inl ⟨_, _, .commit hi hc⟩

theorem Guarded.step_of_acquire {s : Locked ι κ V α} (hg : s.Guarded rank)
    (hR : ∀ x, rank x ≤ R) (hi : (s.thread i).code = .acquire x m rest) :
    ∃ turn s', Step s turn s' := by
  -- whoever keeps the thread from its lock wants a lock of higher rank, and ranks are bounded
  induction hn : R - rank x using Nat.strongRecOn generalizing i x m rest with
  | _ n ih =>
    by_cases hheld : ∃ j, (s.thread j).held x ≠ none
    · obtain ⟨j, hj⟩ := hheld
      cases hg.step_or_acquire hj with
      | inl hstep => exact hstep
      | inr hnext =>
        obtain ⟨y, m', rest', hcode, hlt⟩ := hnext
        refine ih (R - rank y) ?_ hcode rfl
        have := hR y
        omega
    · simp only [not_exists, not_not] at hheld
      by_cases hclaim : ∃ j, s.Claims j x
      · obtain ⟨j, hwrite | ⟨hwait, rest', hcode⟩⟩ := hclaim
        · rw [hheld j] at hwrite
          cases hwrite
        · exact ⟨_, _, .write hcode hwait hheld⟩
      · simp only [not_exists] at hclaim
        cases m with
        | read => exact ⟨_, _, .read hi hclaim⟩
        | write =>
          cases hw : (s.thread i).waiting with
          | true => exact absurd (.inr ⟨hw, rest, hi⟩) (hclaim i)
          | false => exact ⟨_, _, .await hi hw hclaim⟩

/-- Threads that keep to the order of the locks never block each other for good. -/
theorem Guarded.progress {s : Locked ι κ V α} (hg : s.Guarded rank) (hR : ∀ x, rank x ≤ R)
    (hi : ∀ a, (s.thread i).code ≠ .ret a) : ∃ turn s', Step s turn s' := by
  cases hcode : (s.thread i).code with
  | ret a => exact absurd hcode (hi a)
  | acquire x m rest => exact hg.step_of_acquire hR hcode
  | look x rest => exact ⟨_, _, .look hcode⟩
  | update x f rest => exact ⟨_, _, .update hcode⟩
  | release x rest =>
    cases hc : (s.thread i).committed with
    | true => exact ⟨_, _, .release hcode hc⟩
    | false => exact ⟨_, _, .commit hcode hc⟩

end Locked
end Base
