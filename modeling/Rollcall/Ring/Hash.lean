namespace Rollcall

inductive Hash
  | crc32 | fnv1a
deriving DecidableEq, Repr, Inhabited

namespace Hash

def crcBit (c : UInt32) : UInt32 :=
  if c &&& 1 = 1 then (c >>> 1) ^^^ 0xEDB88320 else c >>> 1

def crcByte (c : UInt32) (b : UInt8) : UInt32 := Nat.repeat crcBit 8 (c ^^^ b.toUInt32)

def fnvByte (h : UInt32) (b : UInt8) : UInt32 := (h ^^^ b.toUInt32) * 0x01000193

/-- The reflected cyclic redundancy check of IEEE 802.3, or FNV-1a with its standard basis. -/
def ofBytes : Hash → List UInt8 → UInt32
  | crc32, bs => bs.foldl crcByte 0xFFFFFFFF ^^^ 0xFFFFFFFF
  | fnv1a, bs => bs.foldl fnvByte 0x811C9DC5

def ofText (h : Hash) (s : String) : UInt32 := h.ofBytes s.toUTF8.toList

def ofName? : String → Option Hash
  | "crc32" => some crc32
  | "fnv1a" => some fnv1a
  | _ => none

end Hash

end Rollcall
