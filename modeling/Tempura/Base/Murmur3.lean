import Tempura.Base.Go

namespace Base
set_option autoImplicit true

def rotl32 (x r : UInt32) : UInt32 := (x <<< r) ||| (x >>> (32 - r))

def murmur3Mix (k : UInt32) : UInt32 := rotl32 (k * 0xcc9e2d51) 15 * 0x1b873593

def littleEndian32 (a b c d : UInt8) : UInt32 :=
  a.toUInt32 ||| (b.toUInt32 <<< 8) ||| (c.toUInt32 <<< 16) ||| (d.toUInt32 <<< 24)

def murmur3Blocks (h : UInt32) : Bytes → UInt32
  | a :: b :: c :: d :: rest =>
    murmur3Blocks (rotl32 (h ^^^ murmur3Mix (littleEndian32 a b c d)) 13 * 5 + 0xe6546b64) rest
  | [a, b, c] => h ^^^ murmur3Mix (littleEndian32 a b c 0)
  | [a, b] => h ^^^ murmur3Mix (littleEndian32 a b 0 0)
  | [a] => h ^^^ murmur3Mix (littleEndian32 a 0 0 0)
  | [] => h

/-- The 32-bit murmur3 hash with seed zero. -/
def murmur3Sum32 (data : Bytes) : UInt32 :=
  let h := murmur3Blocks 0 data ^^^ data.length.toUInt32
  let h := (h ^^^ (h >>> 16)) * 0x85ebca6b
  let h := (h ^^^ (h >>> 13)) * 0xc2b2ae35
  h ^^^ (h >>> 16)

example : murmur3Sum32 (lit "hello, world") = 0x149bbb7f := by decide

end Base
