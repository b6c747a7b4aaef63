import CircuitTrace.Bytes
import CircuitTrace.Container.Section

/-!
Reading a byte string front to back. A cursor knows how far into the whole container it is, so
that an error can say where the bytes ran out.
-/
namespace CircuitTrace

/-- What is left to read, and its offset in the container. -/
structure Cursor where
  offset : Nat
  rest : Bytes
  deriving DecidableEq

/-- Reads a value off the front of a byte string. -/
abbrev Decoder := StateT Cursor (Except FormatError)

namespace Decoder

def bytes (n : Nat) : Decoder Bytes := fun cursor =>
  let taken := cursor.rest.take n
  if taken.length < n then .error (.truncated cursor.offset (n - taken.length))
  else .ok (taken, ⟨cursor.offset + n, cursor.rest.drop n⟩)

def nat (n : Nat) : Decoder Nat := Bytes.toNat <$> bytes n

def u32 : Decoder Nat := nat 4

def i64 : Decoder Int := Bytes.toInt <$> bytes 8

end Decoder

end CircuitTrace
