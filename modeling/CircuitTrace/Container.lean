import CircuitTrace.Container.Cursor
import CircuitTrace.Logged
import CircuitTrace.Circuit

/-!
Binary containers of rank-one constraint systems. A container is a magic number, a version and a
list of sections, each with its type and length in front; bytes behind the last section are not
looked at. All numbers are little-endian.

`Container.read` finds the sections, `Container.circuit` decodes those that matter.
-/
namespace CircuitTrace

structure Section where
  kind : SectionKind
  offset : Nat
  payload : Bytes
  deriving DecidableEq

/-- The counts and the prime that the header section holds. -/
structure Header where
  fieldSize : Nat
  prime : Nat
  wireCount : Nat
  outputCount : Nat
  publicCount : Nat
  privateCount : Nat
  labelCount : Int
  constraintCount : Nat
  deriving DecidableEq

namespace Header

/-- Wires that the roles named in the header take, the constant wire included. -/
def requiredWires (h : Header) : Nat := 1 + h.outputCount + h.publicCount + h.privateCount

/-- Reads a header. The field is checked before the counts are read. -/
def decode : Decoder Header := do
  let fieldSize ← Decoder.u32
  let prime ← Decoder.nat fieldSize
  if fieldSize = 0 ∨ ¬ Residue.IsModulus prime then
    throw (.invalidPrime fieldSize prime)
  let wireCount ← Decoder.u32
  let outputCount ← Decoder.u32
  let publicCount ← Decoder.u32
  let privateCount ← Decoder.u32
  let labelCount ← Decoder.i64
  let constraintCount ← Decoder.u32
  let header : Header :=
    { fieldSize, prime, wireCount, outputCount, publicCount, privateCount, labelCount,
      constraintCount }
  if header.wireCount < header.requiredWires then
    throw (.inconsistentHeader header.wireCount header.requiredWires)
  return header

/-- Reads `count` terms of a linear combination behind those already read. -/
def decodeTerms (h : Header) (constraint : Nat) :
    (count : Nat) → LinearCombination → Decoder LinearCombination
  | 0, l => pure l
  | count + 1, l => do
    let wire ← Decoder.u32
    let coefficient ← Decoder.nat h.fieldSize
    if h.wireCount ≤ wire then throw (.wireOutOfRange constraint wire h.wireCount)
    if h.prime ≤ coefficient then throw (.nonCanonicalCoefficient constraint wire)
    if l.contains wire then throw (.duplicateWire constraint wire)
    decodeTerms h constraint count (l.insert wire coefficient)

/-- Reads a linear combination: the number of its terms, then the terms in any order. -/
def decodeCombination (h : Header) (constraint : Nat) : Decoder LinearCombination := do
  let count ← Decoder.u32
  h.decodeTerms constraint count .empty

/-- Reads `count` constraints, of which the first has the given index. -/
def decodeConstraints (h : Header) : (index count : Nat) → Decoder (List Constraint)
  | _, 0 => pure []
  | index, count + 1 => do
    let a ← h.decodeCombination index
    let b ← h.decodeCombination index
    let c ← h.decodeCombination index
    let rest ← decodeConstraints h (index + 1) count
    return ⟨a, b, c⟩ :: rest

end Header

/-- The first section of each type, by type. -/
structure Container where
  sections : SortedMap Nat Section
  deriving DecidableEq

namespace Container

/-- The bytes `r1cs`. -/
def magic : Nat := 0x73633172

/-- The only version there is. -/
def version : Nat := 1

/-- Reads a section. A payload that is too short is reported at the end of the data. -/
def readSection : Decoder Section := do
  let sectionType ← Decoder.u32
  let length ← Decoder.i64
  if length < 0 then throw (.negativeSectionLength sectionType length)
  let start ← get
  let payload := start.rest.take length.toNat
  if payload.length < length.toNat then
    throw (.truncated (start.offset + payload.length) (length.toNat - payload.length))
  set (⟨start.offset + length.toNat, start.rest.drop length.toNat⟩ : Cursor)
  return ⟨.ofType sectionType, start.offset, payload⟩

/-- Adds a section that was read. Custom gates are refused whatever they hold. Of the sections
with meaning no second one is allowed, and of the others all but the first are skipped. -/
def addSection (sections : SortedMap Nat Section) (s : Section) :
    Logged ParseError (SortedMap Nat Section) := do
  match s.kind with
  | .customGates sectionType => Logged.ofExcept (.error (.unsupported (.customGates sectionType)))
  | kind =>
    if sections.contains kind.type then
      if kind = .header ∨ kind = .constraints then
        Logged.ofExcept (.error (.format (.duplicateSection kind)))
      else
        Logged.emit (.repeatedSection kind.type)
        return sections
    else return sections.insert kind.type s

/-- Reads `count` sections. Each takes some bytes, so a count that is too large ends in an error
when the bytes run out. -/
def readSections : (count : Nat) → Cursor → SortedMap Nat Section →
    Logged ParseError (SortedMap Nat Section)
  | 0, _, sections => pure sections
  | count + 1, cursor, sections => do
    let (s, cursor) ← (readSection.run cursor).mapError ParseError.format
    let sections ← addSection sections s
    readSections count cursor sections

/-- Reads the magic number and the version, and gives the declared number of sections. -/
def readPreamble (cursor : Cursor) : Except ParseError (Nat × Cursor) := do
  let (found, cursor) ← (Decoder.u32.run cursor).mapError .format
  if found ≠ magic then throw (.format (.badMagic found))
  let (found, cursor) ← (Decoder.u32.run cursor).mapError .format
  if found ≠ version then throw (.unsupported (.version found))
  (Decoder.u32.run cursor).mapError .format

def read (bytes : Bytes) : Logged ParseError Container := do
  let (count, cursor) ← readPreamble ⟨0, bytes⟩
  let sections ← readSections count cursor .empty
  return ⟨sections⟩

def kinds (k : Container) : List SectionKind := k.sections.entries.map (·.2.kind)

def header (k : Container) : Except ParseError Header :=
  match k.sections.get? SectionKind.header.type with
  | none => .error (.format (.missingSection .header))
  | some s => ((Header.decode.run ⟨s.offset, s.payload⟩).map (·.1)).mapError .format

/-- The constraints that a header announces. Without any the section may be missing. -/
def constraints (k : Container) (h : Header) : Logged ParseError (List Constraint) := do
  match k.sections.get? SectionKind.constraints.type with
  | none =>
    if h.constraintCount = 0 then return []
    else Logged.ofExcept (.error (.format (.missingSection .constraints)))
  | some s =>
    let (list, cursor) ←
      ((h.decodeConstraints 0 h.constraintCount).run ⟨s.offset, s.payload⟩).mapError
        ParseError.format
    if cursor.rest.length ≠ 0 then Logged.emit (.trailingBytes cursor.rest.length)
    return list

def circuit (k : Container) : Logged ParseError Circuit := do
  let h ← k.header
  let constraints ← k.constraints h
  return {
    fieldSize := h.fieldSize
    prime := h.prime
    wireCount := h.wireCount
    outputCount := h.outputCount
    publicCount := h.publicCount
    privateCount := h.privateCount
    labelCount := h.labelCount
    constraints }

end Container

def Circuit.parse (bytes : Bytes) : Logged ParseError Circuit := do
  let k ← Container.read bytes
  k.circuit

end CircuitTrace
