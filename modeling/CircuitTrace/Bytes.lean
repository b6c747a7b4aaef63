namespace CircuitTrace

/-- Byte strings. The numbers in them are little-endian. -/
abbrev Bytes := List UInt8

namespace Bytes

def toNat : Bytes → Nat
  | [] => 0
  | b :: rest => b.toNat + 256 * toNat rest

/-- The low `width` bytes of a number. Higher bytes are cut off, missing ones are zero. -/
def ofNat : (width : Nat) → (v : Nat) → Bytes
  | 0, _ => []
  | width + 1, v => UInt8.ofNat v :: ofNat width (v / 256)

/-- The bytes of a number up to the highest that is not zero. Zero itself takes one byte. -/
def minimal (v : Nat) : Bytes :=
  if h : v < 256 then [UInt8.ofNat v] else UInt8.ofNat v :: minimal (v / 256)
  termination_by v
  decreasing_by omega

/-- A signed number in two's complement. -/
def ofInt (width : Nat) (i : Int) : Bytes := ofNat width (i % (1 <<< (8 * width) : Nat)).toNat

/-- The signed number that a byte string stands for in two's complement. -/
def toInt (b : Bytes) : Int :=
  if b.toNat * 2 < 1 <<< (8 * b.length) then b.toNat
  else b.toNat - (1 <<< (8 * b.length) : Nat)

/-- A byte string behind its length in eight bytes. A sequence of such strings can be taken
apart again. -/
def withLength (b : Bytes) : Bytes := ofNat 8 b.length ++ b

/-- Two lower-case hexadecimal digits for each byte. -/
def toHex (b : Bytes) : String :=
  String.ofList (b.flatMap fun x => [Nat.digitChar (x.toNat / 16), Nat.digitChar (x.toNat % 16)])

def hexValue? (c : Char) : Option Nat :=
  if '0' ≤ c ∧ c ≤ '9' then some (c.toNat - '0'.toNat)
  else if 'a' ≤ c ∧ c ≤ 'f' then some (c.toNat - 'a'.toNat + 10)
  else if 'A' ≤ c ∧ c ≤ 'F' then some (c.toNat - 'A'.toNat + 10)
  else none

def ofHexDigits? : List Char → Option Bytes
  | [] => some []
  | [_] => none
  | high :: low :: rest => do
    let h ← hexValue? high
    let l ← hexValue? low
    return UInt8.ofNat (16 * h + l) :: (← ofHexDigits? rest)

def ofHex? (s : String) : Option Bytes := ofHexDigits? s.toList

end Bytes

end CircuitTrace
