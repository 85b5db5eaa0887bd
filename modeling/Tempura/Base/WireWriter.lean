import Tempura.Base.Wire

namespace Base
set_option autoImplicit true

def varintDigits : Nat → Nat → Bytes
  | 0, _ => []
  | n + 1, v =>
    if v < 128 then [v.toUInt8] else (v % 128 + 128).toUInt8 :: varintDigits n (v / 128)

/-- `binary.PutUvarint`. -/
def putUvarint (v : Nat) : Bytes := varintDigits 10 v

theorem varint_varintDigits (n v : Nat) (hn : 0 < n) (hv : v < 128 ^ n) :
    Varint (varintDigits n v) v := by
  induction n generalizing v with
  | zero => cases hn
  | succ n ih =>
    rw [varintDigits]
    split
    next hlt =>
      have hval : v.toUInt8.toNat = v := Nat.mod_eq_of_lt (by omega)
      have hlast := Varint.last v.toUInt8 (by omega)
      rwa [hval] at hlast
    next hge =>
      have hdiv : v / 128 < 128 ^ n := by
        rw [Nat.pow_succ, Nat.mul_comm] at hv
        exact Nat.div_lt_of_lt_mul hv
      have hn : 0 < n := by
        apply Nat.pos_of_ne_zero
        rintro rfl
        omega
      have hval : (v % 128 + 128).toUInt8.toNat = v % 128 + 128 :=
        Nat.mod_eq_of_lt (by omega)
      have hmore := Varint.more (v % 128 + 128).toUInt8 (by omega) (ih (v / 128) hn hdiv)
      have hsum : v % 128 + 128 - 128 + 128 * (v / 128) = v := by omega
      rwa [hval, hsum] at hmore

theorem length_varintDigits_le (n v : Nat) : (varintDigits n v).length ≤ n := by
  induction n generalizing v with
  | zero => exact Nat.le_refl 0
  | succ n ih =>
    rw [varintDigits]
    split
    · exact Nat.succ_pos n
    · exact Nat.succ_le_succ (ih (v / 128))

theorem varint_putUvarint {v : Nat} (hv : v < 2 ^ 64) : Varint (putUvarint v) v :=
  varint_varintDigits 10 v (by decide) (hv.trans (by decide))

theorem length_putUvarint_le (v : Nat) : (putUvarint v).length ≤ 10 :=
  length_varintDigits_le 10 v

def WireValue.encode : WireValue → Bytes
  | .varint v => putUvarint v
  | .fixed64 bs => bs
  | .bytes bs => putUvarint bs.length ++ bs
  | .fixed32 bs => bs

def WireValue.WellFormed : WireValue → Prop
  | .varint v => v < 2 ^ 64
  | .fixed64 bs => bs.length = 8
  | .bytes _ => True
  | .fixed32 bs => bs.length = 4

@[mk_iff]
structure WireField.WellFormed (f : WireField) : Prop where
  one_le : 1 ≤ f.num
  num_lt : f.num < 2 ^ 29
  value : f.value.WellFormed

def WireField.encode (f : WireField) : Bytes :=
  putUvarint (f.num * 8 + f.value.wireType) ++ f.value.encode

def encodeFields (fs : List WireField) : Bytes := fs.flatMap WireField.encode

theorem WireValue.encodes_encode {value : WireValue} (h : value.WellFormed)
    (hlen : value.encode.length < 2 ^ 64) : value.Encodes value.encode := by
  cases value with
  | varint v => exact .varint (varint_putUvarint h) (length_putUvarint_le v) h
  | fixed64 bs => exact .fixed64 h
  | bytes bs =>
    rw [encode, List.length_append] at hlen
    exact .bytes (varint_putUvarint (by omega)) (length_putUvarint_le bs.length)
  | fixed32 bs => exact .fixed32 h

theorem encodes_encodeFields (h : ∀ f ∈ fs, WireField.WellFormed f)
    (hlen : (encodeFields fs).length < 2 ^ 64) : Encodes fs (encodeFields fs) := by
  induction fs with
  | nil => exact .nil
  | cons f fs ih =>
    obtain ⟨hone, hnum, hvalue⟩ := h f List.mem_cons_self
    have hwire := wireType_lt f.value
    rw [encodeFields, List.flatMap_cons, WireField.encode] at hlen ⊢
    simp only [List.length_append] at hlen
    apply Encodes.cons hone hnum (varint_putUvarint (by omega)) (length_putUvarint_le _)
    · exact WireValue.encodes_encode hvalue (by omega)
    · exact ih (fun g hg => h g (List.mem_cons_of_mem f hg)) (by rw [encodeFields]; omega)

end Base
