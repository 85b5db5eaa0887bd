namespace Base
set_option autoImplicit true

/-- What an operation on an object that goroutines share does to the one that calls it. -/
inductive Effect (σ : Type) where
  | ok (s : σ)
  | blocks
  | panics

structure Chan (β : Type) where
  capacity : Nat
  buffer : List β := []
  closed : Bool := false

inductive Received (β : Type) where
  | item (b : β) (ch : Chan β)
  | ended
  | blocks

namespace Chan

def send (ch : Chan β) (b : β) : Effect (Chan β) :=
  if ch.closed then .panics
  else if ch.buffer.length < ch.capacity then .ok { ch with buffer := ch.buffer ++ [b] }
  else .blocks

/-- What a closed channel still has in its buffer is received first. -/
def receive (ch : Chan β) : Received β :=
  match ch.buffer with
  | b :: rest => .item b { ch with buffer := rest }
  | [] => if ch.closed then .ended else .blocks

def close (ch : Chan β) : Effect (Chan β) :=
  if ch.closed then .panics else .ok { ch with closed := true }

variable {ch ch' : Chan β}

theorem send_eq_ok_iff : ch.send b = .ok ch' ↔ ch.closed = false ∧
    ch.buffer.length < ch.capacity ∧ ch' = { ch with buffer := ch.buffer ++ [b] } := by
  rw [send]
  cases ch.closed with
  | true => simp
  | false =>
    by_cases h : ch.buffer.length < ch.capacity
    · simp [h, eq_comm]
    · simp [h]

theorem send_eq_panics_iff : ch.send b = .panics ↔ ch.closed = true := by
  rw [send]
  cases ch.closed with
  | true => simp
  | false => by_cases h : ch.buffer.length < ch.capacity <;> simp [h]

theorem receive_eq_item_iff : ch.receive = .item b ch' ↔
    ∃ rest, ch.buffer = b :: rest ∧ ch' = { ch with buffer := rest } := by
  rw [receive]
  cases ch.buffer with
  | nil => cases ch.closed <;> simp
  | cons c rest =>
    constructor
    · intro h
      cases h
      exact ⟨rest, rfl, rfl⟩
    · rintro ⟨rest', h, rfl⟩
      cases h
      rfl

theorem receive_eq_ended_iff : ch.receive = .ended ↔ ch.buffer = [] ∧ ch.closed = true := by
  rw [receive]
  cases ch.buffer with
  | nil => cases ch.closed <;> simp
  | cons c rest => simp

theorem close_eq_ok_iff : ch.close = .ok ch' ↔
    ch.closed = false ∧ ch' = { ch with closed := true } := by
  rw [close]
  cases ch.closed <;> simp [eq_comm]

theorem close_eq_panics_iff : ch.close = .panics ↔ ch.closed = true := by
  rw [close]
  cases ch.closed <;> simp

end Chan

structure WaitGroup where
  counter : Int := 0

def WaitGroup.add (group : WaitGroup) (delta : Int) : Effect WaitGroup :=
  if group.counter + delta < 0 then .panics else .ok ⟨group.counter + delta⟩

theorem WaitGroup.add_eq_ok_iff {group group' : WaitGroup} : group.add delta = .ok group' ↔
    0 ≤ group.counter + delta ∧ group' = ⟨group.counter + delta⟩ := by
  rw [add]
  split
  · next h => simp [Int.not_le.mpr h]
  · next h => simp [Int.not_lt.mp h, eq_comm]

theorem WaitGroup.add_eq_panics_iff {group : WaitGroup} :
    group.add delta = .panics ↔ group.counter + delta < 0 := by
  rw [add]
  split <;> simp [*]

end Base
