import Mathlib.Logic.Function.Basic
import Tempura.Base.Run

namespace Base
set_option autoImplicit true

/-- What a thread has left to do, as a tree of atomic operations and their answers. -/
inductive Program (ω : Type) (Ans : ω → Type) (α : Type) where
  | ret (a : α)
  | op (o : ω) (rest : Ans o → Program ω Ans α)

namespace Program
variable {ω : Type} {Ans : ω → Type}

def bind : Program ω Ans α → (α → Program ω Ans β) → Program ω Ans β
  | .ret a, k => k a
  | .op o rest, k => .op o (fun x => (rest x).bind k)

instance programMonad : Monad (Program ω Ans) where
  pure := .ret
  bind := bind

def perform (o : ω) : Program ω Ans (Ans o) := .op o .ret

def Within : Nat → Program ω Ans α → Prop
  | _, .ret _ => True
  | 0, .op _ _ => False
  | n + 1, .op _ rest => ∀ x, (rest x).Within n

theorem Within.pure {a : α} (n : Nat) : (Pure.pure a : Program ω Ans α).Within n := by
  cases n <;> trivial

theorem Within.perform {o : ω} {k : Ans o → Program ω Ans α} (h : ∀ x, (k x).Within n) :
    (Program.perform o >>= k).Within (n + 1) := h

theorem Within.mono {p : Program ω Ans α} (h : p.Within n) (hn : n ≤ m) : p.Within m := by
  induction p generalizing n m with
  | ret a => exact .pure m
  | op o rest ih =>
    cases n with
    | zero => exact h.elim
    | succ n =>
      cases m with
      | zero => omega
      | succ m => exact fun x => ih x (h x) (by omega)

theorem Within.bind {p : Program ω Ans α} {k : α → Program ω Ans β} (h : p.Within n)
    (hk : ∀ a, (k a).Within m) : (p >>= k).Within (n + m) := by
  induction p generalizing n with
  | ret a => exact (hk a).mono (by omega)
  | op o rest ih =>
    cases n with
    | zero => exact h.elim
    | succ n =>
      rw [Nat.succ_add]
      exact fun x => ih x (h x)

/-- What may be left of a program after some of its operations. -/
inductive Leads : Program ω Ans α → Program ω Ans α → Prop
  | refl {p : Program ω Ans α} : Leads p p
  | op {p : Program ω Ans α} {o : ω} {rest : Ans o → Program ω Ans α} (h : Leads p (.op o rest))
      (x : Ans o) : Leads p (rest x)

/-- Every operation is one that the operation before it calls for, given its answer. -/
def Chained (calls : (o : ω) → Ans o → ω → Prop) : (ω → Prop) → Program ω Ans α → Prop
  | _, .ret _ => True
  | first, .op o rest => first o ∧ ∀ x, (rest x).Chained calls (calls o x)

section Chained
variable {calls : (o : ω) → Ans o → ω → Prop} {first : ω → Prop}

theorem Chained.pure {a : α} : (Pure.pure a : Program ω Ans α).Chained calls first := trivial

theorem Chained.perform {o : ω} {k : Ans o → Program ω Ans α} (ho : first o)
    (h : ∀ x, (k x).Chained calls (calls o x)) :
    (Program.perform o >>= k).Chained calls first := ⟨ho, h⟩

theorem Chained.map {p : Program ω Ans α} (h : p.Chained calls first) (f : α → β) :
    (p >>= fun a => Pure.pure (f a)).Chained calls first := by
  induction p generalizing first with
  | ret a => trivial
  | op o rest ih => exact ⟨h.1, fun x => ih x (h.2 x)⟩

theorem Chained.bind {P : ω → Prop} {p : Program ω Ans α} {k : α → Program ω Ans β}
    (h : p.Chained (fun _ _ => P) P) (hk : ∀ a, (k a).Chained (fun _ _ => P) P) :
    (p >>= k).Chained (fun _ _ => P) P := by
  induction p with
  | ret a => exact hk a
  | op o rest ih => exact ⟨h.1, fun x => ih x (h.2 x)⟩

theorem Chained.leads {p q : Program ω Ans α} (h : p.Chained calls first) (hl : p.Leads q) :
    q = p ∨ ∃ o x, q.Chained calls (calls o x) := by
  induction hl with
  | refl => exact .inl rfl
  | @op o rest hl x ih =>
    rcases ih with rfl | ⟨o', x', hq⟩
    · exact .inr ⟨o, x, h.2 x⟩
    · exact .inr ⟨o, x, hq.2 x⟩

end Chained

def Alone (does : (o : ω) → σ → Ans o → σ → Prop) : Program ω Ans α → σ → α → σ → Prop
  | .ret a, s, answer, s' => answer = a ∧ s' = s
  | .op o rest, s, answer, s' => ∃ x s₁, does o s x s₁ ∧ (rest x).Alone does s₁ answer s'

theorem alone_perform {does : (o : ω) → σ → Ans o → σ → Prop} {o : ω}
    {k : Ans o → Program ω Ans α} :
    (perform o >>= k).Alone does s answer s' ↔
      ∃ x s₁, does o s x s₁ ∧ (k x).Alone does s₁ answer s' := Iff.rfl

theorem alone_bind {does : (o : ω) → σ → Ans o → σ → Prop} {p : Program ω Ans α}
    {k : α → Program ω Ans β} :
    (p >>= k).Alone does s answer s' ↔
      ∃ a s₁, p.Alone does s a s₁ ∧ (k a).Alone does s₁ answer s' := by
  induction p generalizing s with
  | ret a =>
    constructor
    · exact fun h => ⟨a, s, ⟨rfl, rfl⟩, h⟩
    · rintro ⟨a', s₁, ⟨rfl, rfl⟩, h⟩
      exact h
  | op o rest ih =>
    constructor
    · rintro ⟨x, s₁, hdoes, hrest⟩
      obtain ⟨a, s₂, ha, hk⟩ := (ih x).mp hrest
      exact ⟨a, s₂, ⟨x, s₁, hdoes, ha⟩, hk⟩
    · rintro ⟨a, s₂, ⟨x, s₁, hdoes, ha⟩, hk⟩
      exact ⟨x, s₁, hdoes, (ih x).mpr ⟨a, s₂, ha, hk⟩⟩

end Program

structure Threads (ι σ ω : Type) (Ans : ω → Type) (α : Type) where
  shared : σ
  thread : ι → Program ω Ans α

section Steps
variable {ι σ ω : Type} {Ans : ω → Type} {α : Type} [DecidableEq ι]

/-- A thread performs its next operation, or the surroundings change the shared state. -/
inductive Threads.Step (does : (o : ω) → σ → Ans o → σ → Prop) (around : σ → σ → Prop) :
    Threads ι σ ω Ans α → Option ι → Threads ι σ ω Ans α → Prop
  | op {s : Threads ι σ ω Ans α} {i : ι} {o : ω} {rest : Ans o → Program ω Ans α} {x : Ans o}
      {shared : σ} (hi : s.thread i = .op o rest) (hdoes : does o s.shared x shared) :
      Step does around s (some i) ⟨shared, Function.update s.thread i (rest x)⟩
  | around {s : Threads ι σ ω Ans α} {shared : σ} (h : around s.shared shared) :
      Step does around s none { s with shared := shared }

end Steps

/-- An invariant, what may happen as time goes by, and what a thread must know for an operation. -/
structure Rules (σ ω : Type) (Ans : ω → Type) where
  inv : σ → Prop
  later : σ → σ → Prop
  allowed : ω → σ → Prop
  refl : ∀ s, later s s
  trans : ∀ {s s' s''}, later s s' → later s' s'' → later s s''

namespace Rules
variable {ι σ ω : Type} {Ans : ω → Type} {α β : Type} (R : Rules σ ω Ans)

/-- The operations keep to the rules, and so do the surroundings. -/
structure KeptBy (does : (o : ω) → σ → Ans o → σ → Prop) (around : σ → σ → Prop) : Prop where
  op : ∀ {o s x s'}, R.inv s → R.allowed o s → does o s x s' → R.inv s' ∧ R.later s s'
  around : ∀ {s s'}, R.inv s → around s s' → R.inv s' ∧ R.later s s'

/-- Whatever the others do, the program performs allowed operations and returns as `post` says. -/
def Meets (does : (o : ω) → σ → Ans o → σ → Prop) (post : α → σ → Prop) :
    Program ω Ans α → σ → Prop
  | .ret a, s => ∀ s', R.later s s' → R.inv s' → post a s'
  | .op o rest, s => ∀ s', R.later s s' → R.inv s' → R.allowed o s' ∧
      ∀ x s'', does o s' x s'' → R.inv s'' → R.later s' s'' → Meets does post (rest x) s''

variable {R} {does : (o : ω) → σ → Ans o → σ → Prop} {around : σ → σ → Prop}

theorem Meets.of_later {p : Program ω Ans α} (h : R.Meets does post p s) (hs : R.later s s') :
    R.Meets does post p s' := by
  cases p with
  | ret a => exact fun s'' hlater hinv => h s'' (R.trans hs hlater) hinv
  | op o rest => exact fun s'' hlater hinv => h s'' (R.trans hs hlater) hinv

theorem Meets.pure {a : α} {post : α → σ → Prop}
    (h : ∀ s', R.later s s' → R.inv s' → post a s') :
    R.Meets does post (Pure.pure a : Program ω Ans α) s := h

theorem Meets.perform {o : ω} {k : Ans o → Program ω Ans α} {post : α → σ → Prop}
    (h : ∀ s', R.later s s' → R.inv s' → R.allowed o s' ∧
      ∀ x s'', does o s' x s'' → R.inv s'' → R.later s' s'' → R.Meets does post (k x) s'') :
    R.Meets does post (Program.perform o >>= k) s := h

theorem Meets.bind {p : Program ω Ans α} {k : α → Program ω Ans β} {post : β → σ → Prop}
    (h : R.Meets does (fun a s => R.Meets does post (k a) s) p s) (hinv : R.inv s) :
    R.Meets does post (p >>= k) s := by
  induction p generalizing s with
  | ret a => exact h s (R.refl s) hinv
  | op o rest ih =>
    intro s' hlater hinv'
    obtain ⟨hallowed, hrest⟩ := h s' hlater hinv'
    refine ⟨hallowed, fun x s'' hdoes hinv'' hlater' => ?_⟩
    exact ih x (hrest x s'' hdoes hinv'' hlater') hinv''

theorem Meets.mono {p : Program ω Ans α} {post post' : α → σ → Prop}
    (h : R.Meets does post p s)
    (hpost : ∀ a s', R.later s s' → R.inv s' → post a s' → post' a s') :
    R.Meets does post' p s := by
  induction p generalizing s with
  | ret a => exact fun s' hlater hinv => hpost a s' hlater hinv (h s' hlater hinv)
  | op o rest ih =>
    intro s' hlater hinv
    obtain ⟨hallowed, hrest⟩ := h s' hlater hinv
    refine ⟨hallowed, fun x s'' hdoes hinv'' hlater' => ?_⟩
    apply ih x (hrest x s'' hdoes hinv'' hlater')
    intro a t ht
    exact hpost a t (R.trans (R.trans hlater hlater') ht)

/-- A program keeps to the rules if its next operation does and all that are called for. -/
theorem Meets.of_chained {calls : (o : ω) → Ans o → ω → Prop} {p : Program ω Ans α}
    (h : p.Chained calls first)
    (hfirst : ∀ o rest s', p = .op o rest → R.later s s' → R.inv s' → R.allowed o s')
    (hcalls : ∀ {o s₁ x s₂ o' s'}, R.later s s₁ → does o s₁ x s₂ → R.later s₁ s₂ → calls o x o' →
      R.later s₂ s' → R.inv s' → R.allowed o' s') :
    R.Meets does (fun _ _ => True) p s := by
  induction p generalizing first s with
  | ret a => exact fun _ _ _ => trivial
  | op o rest ih =>
    intro s₁ hlater₁ hinv₁
    refine ⟨hfirst o rest s₁ rfl hlater₁ hinv₁, fun x s₂ hdoes _ hlater₂ => ?_⟩
    apply ih x (h.2 x)
    · intro o' rest' s' hp hlater hinv
      have hnext := h.2 x
      rw [hp] at hnext
      exact hcalls hlater₁ hdoes hlater₂ hnext.1 hlater hinv
    · intro o₁ t₁ y t₂ o' s' hlater
      exact hcalls (R.trans (R.trans hlater₁ hlater₂) hlater)

theorem KeptBy.step [DecidableEq ι] (hkept : R.KeptBy does around)
    {post : ι → α → σ → Prop} {s s' : Threads ι σ ω Ans α}
    (hstep : Threads.Step does around s turn s') (hinv : R.inv s.shared)
    (hmeets : ∀ i, R.Meets does (post i) (s.thread i) s.shared) :
    R.inv s'.shared ∧ ∀ i, R.Meets does (post i) (s'.thread i) s'.shared := by
  cases hstep with
  | @op i o rest x shared hi hdoes =>
    have hmeet := hmeets i
    rw [hi] at hmeet
    obtain ⟨hallowed, hrest⟩ := hmeet s.shared (R.refl _) hinv
    obtain ⟨hinv', hlater⟩ := hkept.op hinv hallowed hdoes
    refine ⟨hinv', fun j => ?_⟩
    by_cases hj : j = i
    · subst hj
      dsimp only
      rw [Function.update_self]
      exact hrest x shared hdoes hinv' hlater
    · dsimp only
      rw [Function.update_of_ne hj]
      exact (hmeets j).of_later hlater
  | around h =>
    obtain ⟨hinv', hlater⟩ := hkept.around hinv h
    exact ⟨hinv', fun j => (hmeets j).of_later hlater⟩

theorem KeptBy.run_meets [DecidableEq ι] (hkept : R.KeptBy does around)
    {post : ι → α → σ → Prop} {s₀ s : Threads ι σ ω Ans α}
    (hrun : Run (Threads.Step does around) s₀ turns s) (hinv : R.inv s₀.shared)
    (hmeets : ∀ i, R.Meets does (post i) (s₀.thread i) s₀.shared) :
    R.inv s.shared ∧ ∀ i, R.Meets does (post i) (s.thread i) s.shared := by
  induction hrun with
  | nil => exact ⟨hinv, hmeets⟩
  | snoc hr hstep ih => exact hkept.step hstep ih.1 ih.2

theorem KeptBy.allowed [DecidableEq ι] (hkept : R.KeptBy does around)
    {post : ι → α → σ → Prop} {s₀ s : Threads ι σ ω Ans α}
    (hrun : Run (Threads.Step does around) s₀ turns s) (hinv : R.inv s₀.shared)
    (hmeets : ∀ i, R.Meets does (post i) (s₀.thread i) s₀.shared)
    (hi : s.thread i = .op o rest) : R.allowed o s.shared := by
  obtain ⟨hinv', hall⟩ := hkept.run_meets hrun hinv hmeets
  have hmeet := hall i
  rw [hi] at hmeet
  exact (hmeet s.shared (R.refl _) hinv').1

/-- In every interleaving the invariant holds, and threads have returned as they should. -/
theorem KeptBy.run [DecidableEq ι] (hkept : R.KeptBy does around)
    {post : ι → α → σ → Prop} {s₀ s : Threads ι σ ω Ans α}
    (hrun : Run (Threads.Step does around) s₀ turns s) (hinv : R.inv s₀.shared)
    (hmeets : ∀ i, R.Meets does (post i) (s₀.thread i) s₀.shared) :
    R.inv s.shared ∧ ∀ i a, s.thread i = .ret a → post i a s.shared := by
  obtain ⟨hinv', hall⟩ := hkept.run_meets hrun hinv hmeets
  refine ⟨hinv', fun i a hi => ?_⟩
  have hmeet := hall i
  rw [hi] at hmeet
  exact hmeet s.shared (R.refl _) hinv'

theorem KeptBy.alone (hkept : R.KeptBy does around) {p : Program ω Ans α}
    (hmeets : R.Meets does post p s) (hinv : R.inv s) (h : p.Alone does s answer s') :
    post answer s' := by
  induction p generalizing s with
  | ret a =>
    obtain ⟨rfl, rfl⟩ := h
    exact hmeets _ (R.refl _) hinv
  | op o rest ih =>
    obtain ⟨x, s₁, hx, hrest⟩ := h
    obtain ⟨hallowed, hnext⟩ := hmeets s (R.refl s) hinv
    obtain ⟨hinv₁, hlater⟩ := hkept.op hinv hallowed hx
    exact ih x (hnext x s₁ hx hinv₁ hlater) hinv₁ hrest

end Rules
end Base
