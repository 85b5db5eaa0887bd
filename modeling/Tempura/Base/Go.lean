import Mathlib.Order.Basic
import Mathlib.Order.Defs.LinearOrder
import Mathlib.Data.Nat.Notation

namespace Base
set_option autoImplicit true

/-- A Go string is a sequence of bytes. -/
abbrev GoString := List UInt8

abbrev Bytes := List UInt8

def lit (s : String) : GoString := s.toUTF8.data.toList

/-- `strconv.Itoa` on a loop counter. -/
def itoa (i : Nat) : GoString := (Nat.toDigits 10 i).map (fun c => c.toNat.toUInt8)

/-- How a call ends. What it wrote before a panic or an endless loop stays written. -/
inductive Outcome (α : Type) where
  | ok (a : α)
  | err (text : GoString)
  | panic
  | hang
  deriving DecidableEq

instance linearOrderUInt32 : LinearOrder UInt32 where
  le_refl := UInt32.le_refl
  le_trans _ _ _ := UInt32.le_trans
  lt_iff_le_not_ge a b := by
    simp only [UInt32.lt_iff_toNat_lt, UInt32.le_iff_toNat_le]
    omega
  le_antisymm _ _ := UInt32.le_antisymm
  le_total := UInt32.le_total
  toDecidableLE := inferInstance
  toDecidableLT := inferInstance
  toDecidableEq := inferInstance

end Base
