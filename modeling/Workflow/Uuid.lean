namespace Workflow

/-- Sixteen bytes. -/
structure Uuid where
  bytes : Vector UInt8 16
  deriving DecidableEq

namespace Uuid

/-- Marks bytes as a random UUID: version 4, variant 10. -/
def stamp (u : Uuid) : Uuid :=
  ⟨(u.bytes.set 6 ((u.bytes[6] &&& 0x0F) ||| 0x40)).set 8 ((u.bytes[8] &&& 0x3F) ||| 0x80)⟩

def hexDigit (n : Nat) : Char :=
  if n < 10 then Char.ofNat (48 + n) else Char.ofNat (87 + n)

def byteChars (b : UInt8) : List Char :=
  [hexDigit (b.toNat / 16), hexDigit (b.toNat % 16)]

/-- Two hexadecimal digits a byte, in groups of 4, 2, 2, 2 and 6 bytes. -/
def toText (u : Uuid) : String :=
  let group := fun (start stop : Nat) =>
    String.ofList ((u.bytes.toList.extract start stop).flatMap byteChars)
  "-".intercalate [group 0 4, group 4 6, group 6 8, group 8 10, group 10 16]

/-- The UUID that carries a number, the most significant byte first. -/
def numbered (n : Nat) : Uuid :=
  stamp ⟨Vector.ofFn fun i => UInt8.ofNat (n / Nat.pow 256 (15 - i.val))⟩

def identifier (kind : String) (u : Uuid) : String :=
  kind ++ "_" ++ u.toText

end Uuid

end Workflow
