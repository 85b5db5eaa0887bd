import Mathlib.Tactic.Ring
import Tempura.Base.Go

namespace Base
set_option autoImplicit true

/-- The loop of `binary.Uvarint`: count zero means the input ended, a negative one an overflow. -/
def uvarintLoop (x s i : Nat) : Bytes → Nat × Int
  | [] => (0, 0)
  | b :: buf =>
    if i = 10 then (0, -(i + 1))
    else if b.toNat < 0x80 then
      if i = 9 ∧ 1 < b.toNat then (0, -(i + 1)) else (x ||| (b.toNat <<< s), i + 1)
    else uvarintLoop (x ||| ((b.toNat &&& 0x7f) <<< s)) (s + 7) (i + 1) buf

def uvarint (buf : Bytes) : Nat × Int := uvarintLoop 0 0 0 buf

theorem uvarintLoop_count_le_length (x s i : Nat) (buf : Bytes) :
    (uvarintLoop x s i buf).2 ≤ i + buf.length := by
  induction buf generalizing x s i with
  | nil =>
    rw [uvarintLoop]
    simp only [List.length_nil]
    omega
  | cons b buf ih =>
    have hrest := ih (x ||| ((b.toNat &&& 0x7f) <<< s)) (s + 7) (i + 1)
    rw [uvarintLoop, List.length_cons]
    split
    · simp only
      omega
    · split
      · split <;> simp only <;> omega
      · omega

theorem uvarint_count_le_length (buf : Bytes) : (uvarint buf).2 ≤ buf.length := by
  have h := uvarintLoop_count_le_length 0 0 0 buf
  rw [uvarint]
  omega

/-- Base 128, low digits first, not necessarily the shortest encoding. -/
inductive Varint : Bytes → Nat → Prop where
  | last (b : UInt8) : b.toNat < 128 → Varint [b] b.toNat
  | more (b : UInt8) : 128 ≤ b.toNat → Varint bs v → Varint (b :: bs) (b.toNat - 128 + 128 * v)

theorem Varint.length_pos (h : Varint bs v) : 0 < bs.length := by
  cases h with
  | last b hb => exact Nat.one_pos
  | more b hb h => exact Nat.succ_pos _

theorem or_shiftLeft_eq {x s : Nat} (hx : x < 2 ^ s) (b : Nat) :
    x ||| (b <<< s) = x + b * 2 ^ s := by
  rw [Nat.or_comm, Nat.shiftLeft_eq, Nat.mul_comm b, ← Nat.two_pow_add_eq_or_of_lt hx]
  omega

theorem and_low_bits (b : UInt8) (hb : 128 ≤ b.toNat) : b.toNat &&& 0x7f = b.toNat - 128 := by
  have h7 : (0x7f : Nat) = 2 ^ 7 - 1 := rfl
  have hlt := b.toNat_lt
  rw [h7, Nat.and_two_pow_sub_one_eq_mod]
  omega

theorem uvarintLoop_value_lt (x i : Nat) (buf : Bytes) (hx : x < 2 ^ (7 * i)) (hi : i ≤ 10) :
    (uvarintLoop x (7 * i) i buf).1 < 2 ^ 64 := by
  induction buf generalizing x i with
  | nil =>
    rw [uvarintLoop]
    decide
  | cons b buf ih =>
    have hlt := b.toNat_lt
    have hpow : 2 ^ (7 * (i + 1)) = 128 * 2 ^ (7 * i) := by
      rw [Nat.mul_add, Nat.pow_add, Nat.mul_comm]
    rw [uvarintLoop]
    split
    · exact Nat.two_pow_pos 64
    next hne =>
    split
    next hb =>
      split
      · exact Nat.two_pow_pos 64
      next hlast =>
      rw [or_shiftLeft_eq hx]
      by_cases h9 : i = 9
      · subst h9
        omega
      · have hle : 2 ^ (7 * i) ≤ 2 ^ 56 := Nat.pow_le_pow_right (by decide) (by omega)
        have hmul : b.toNat * 2 ^ (7 * i) ≤ 127 * 2 ^ 56 := Nat.mul_le_mul (by omega) hle
        simp only
        omega
    next hb =>
      have hshift : 7 * i + 7 = 7 * (i + 1) := by omega
      rw [and_low_bits b (by omega), or_shiftLeft_eq hx, hshift]
      apply ih _ _ _ (by omega)
      have hmul : (b.toNat - 128) * 2 ^ (7 * i) ≤ 127 * 2 ^ (7 * i) :=
        Nat.mul_le_mul_right _ (by omega)
      omega

theorem uvarint_value_lt (buf : Bytes) : (uvarint buf).1 < 2 ^ 64 :=
  uvarintLoop_value_lt 0 0 buf Nat.one_pos (by decide)

theorem uvarintLoop_varint (h : Varint bs v) (x i : Nat) (hx : x < 2 ^ (7 * i))
    (hlen : i + bs.length ≤ 10) (hv : x + v * 2 ^ (7 * i) < 2 ^ 64) (rest : Bytes) :
    uvarintLoop x (7 * i) i (bs ++ rest) =
      (x + v * 2 ^ (7 * i), ((i + bs.length : Nat) : Int)) := by
  induction h generalizing x i with
  | last b hb =>
    simp only [List.length_singleton] at hlen
    rw [List.singleton_append, uvarintLoop, if_neg (by omega), if_pos hb, if_neg,
      or_shiftLeft_eq hx]
    · rfl
    · rintro ⟨rfl, hb'⟩
      omega
  | @more bs v b hb h ih =>
    have hpos := h.length_pos
    simp only [List.length_cons] at hlen
    have hpow : 2 ^ (7 * (i + 1)) = 128 * 2 ^ (7 * i) := by
      rw [Nat.mul_add, Nat.pow_add, Nat.mul_comm]
    have hlt := b.toNat_lt
    have hstep : x + (b.toNat - 128) * 2 ^ (7 * i) + v * 2 ^ (7 * (i + 1)) =
        x + (b.toNat - 128 + 128 * v) * 2 ^ (7 * i) := by
      rw [hpow, Nat.add_mul]
      ring
    have hshift : 7 * i + 7 = 7 * (i + 1) := by omega
    rw [List.cons_append, uvarintLoop, if_neg (by omega), if_neg (by omega), and_low_bits b hb,
      or_shiftLeft_eq hx, hshift,
      ih (x + (b.toNat - 128) * 2 ^ (7 * i)) (i + 1) ?_ (by omega) ?_, hstep]
    · simp only [List.length_cons]
      congr 2
      omega
    · rw [hpow]
      have hle : (b.toNat - 128) * 2 ^ (7 * i) ≤ 127 * 2 ^ (7 * i) :=
        Nat.mul_le_mul_right _ (by omega)
      omega
    · rw [hstep]
      exact hv

/-- Reading back any encoding of a 64-bit value, with any bytes after it. -/
theorem uvarint_varint (h : Varint bs v) (hlen : bs.length ≤ 10) (hv : v < 2 ^ 64)
    (rest : Bytes) : uvarint (bs ++ rest) = (v, (bs.length : Int)) := by
  have hloop := uvarintLoop_varint h 0 0 Nat.one_pos (by omega) (by simpa using hv) rest
  simpa [uvarint] using hloop

inductive WireValue where
  | varint (v : Nat)
  | fixed64 (bs : Bytes)
  | bytes (bs : Bytes)
  | fixed32 (bs : Bytes)
  deriving DecidableEq

def WireValue.wireType : WireValue → Nat
  | .varint _ => 0
  | .fixed64 _ => 1
  | .bytes _ => 2
  | .fixed32 _ => 5

theorem wireType_lt (v : WireValue) : v.wireType < 8 := by
  cases v <;> simp only [WireValue.wireType] <;> omega

inductive WireValue.Encodes : WireValue → Bytes → Prop where
  | varint : Varint bs v → bs.length ≤ 10 → v < 2 ^ 64 → Encodes (.varint v) bs
  | fixed64 : bs.length = 8 → Encodes (.fixed64 bs) bs
  | bytes : Varint len bs.length → len.length ≤ 10 → Encodes (.bytes bs) (len ++ bs)
  | fixed32 : bs.length = 4 → Encodes (.fixed32 bs) bs

structure WireField where
  num : Nat
  value : WireValue
  deriving DecidableEq

/-- `bs` is an encoding of the fields in this order. -/
inductive Encodes : List WireField → Bytes → Prop where
  | nil : Encodes [] []
  | cons {f : WireField} {fs : List WireField} {tag body rest : Bytes} :
      1 ≤ f.num → f.num < 2 ^ 29 → Varint tag (f.num * 8 + f.value.wireType) →
      tag.length ≤ 10 → f.value.Encodes body → Encodes fs rest →
      Encodes (f :: fs) (tag ++ body ++ rest)

theorem Encodes.length_le (h : Encodes fs bs) : fs.length ≤ bs.length := by
  induction h with
  | nil => exact Nat.le_refl 0
  | cons _ _ htag _ _ _ ih =>
    have hpos := htag.length_pos
    simp only [List.length_cons, List.length_append]
    omega

def firstBytes (num : Nat) : List WireField → Option Bytes
  | [] => none
  | ⟨n, .bytes bs⟩ :: fs => if n = num then some bs else firstBytes num fs
  | _ :: fs => firstBytes num fs

theorem firstBytes_cons (num : Nat) (f : WireField) (fs : List WireField) :
    firstBytes num (f :: fs) = (firstBytes num [f]).or (firstBytes num fs) := by
  obtain ⟨n, value⟩ := f
  cases value with
  | bytes b => by_cases hn : n = num <;> simp [firstBytes, hn]
  | varint v => rfl
  | fixed64 b => rfl
  | fixed32 b => rfl

theorem firstBytes_of_first (before : List WireField) (hfirst : ∀ bs, ⟨num, .bytes bs⟩ ∉ before)
    (bs : Bytes) (after : List WireField) :
    firstBytes num (before ++ ⟨num, .bytes bs⟩ :: after) = some bs := by
  induction before with
  | nil => simp only [List.nil_append, firstBytes, if_true]
  | cons f before ih =>
    have htail := ih (fun bs hbs => hfirst bs (List.mem_cons_of_mem f hbs))
    obtain ⟨n, value⟩ := f
    cases value with
    | varint v => exact htail
    | fixed64 b => exact htail
    | fixed32 b => exact htail
    | bytes b =>
      have hne : n ≠ num := by
        rintro rfl
        exact hfirst b List.mem_cons_self
      rw [List.cons_append, firstBytes, if_neg hne, htail]

theorem firstBytes_of_none (h : ∀ bs, ⟨num, .bytes bs⟩ ∉ fs) : firstBytes num fs = none := by
  induction fs with
  | nil => rfl
  | cons f fs ih =>
    have htail := ih (fun bs hbs => h bs (List.mem_cons_of_mem f hbs))
    obtain ⟨n, value⟩ := f
    cases value with
    | varint v => exact htail
    | fixed64 b => exact htail
    | fixed32 b => exact htail
    | bytes b =>
      have hne : n ≠ num := by
        rintro rfl
        exact h b List.mem_cons_self
      rw [firstBytes, if_neg hne, htail]

theorem firstBytes_of_nodup {num : Nat} {bs : Bytes} {fs : List WireField}
    (hmem : ⟨num, .bytes bs⟩ ∈ fs) (hnd : (fs.map WireField.num).Nodup) :
    firstBytes num fs = some bs := by
  obtain ⟨before, after, rfl⟩ := List.append_of_mem hmem
  rw [List.map_append, List.map_cons, List.nodup_append] at hnd
  apply firstBytes_of_first
  intro bs' hbs'
  exact hnd.2.2 num (List.mem_map_of_mem hbs') num List.mem_cons_self rfl

theorem firstBytes_of_not_mem {num : Nat} {fs : List WireField}
    (h : num ∉ fs.map WireField.num) : firstBytes num fs = none :=
  firstBytes_of_none (fun _ hbs => h (List.mem_map_of_mem hbs))

end Base
