import CircuitTrace.Container

namespace CircuitTrace

namespace Container

def encode (sections : List (Nat × Bytes)) : Bytes :=
  Bytes.ofNat 4 magic ++ Bytes.ofNat 4 version ++ Bytes.ofNat 4 sections.length ++
    sections.flatMap fun s => Bytes.ofNat 4 s.1 ++ Bytes.ofNat 8 s.2.length ++ s.2

end Container

namespace Circuit

def encodeHeader (k : Circuit) : Bytes :=
  Bytes.ofNat 4 k.fieldSize ++ Bytes.ofNat k.fieldSize k.prime ++
    [k.wireCount, k.outputCount, k.publicCount, k.privateCount].flatMap (Bytes.ofNat 4) ++
    Bytes.ofInt 8 k.labelCount ++ Bytes.ofNat 4 k.constraints.length

/-- Wires take four bytes and coefficients take `fieldSize`. What does not fit is cut, which
changes no valid circuit. -/
def encodeCombination (fieldSize : Nat) (l : LinearCombination) : Bytes :=
  Bytes.ofNat 4 l.size ++
    l.entries.flatMap fun e => Bytes.ofNat 4 e.1 ++ Bytes.ofNat fieldSize e.2

def encodeConstraints (k : Circuit) : Bytes :=
  k.constraints.flatMap fun c => c.parts.flatMap (encodeCombination k.fieldSize)

/-- The label of a wire is its number. -/
def encodeLabels (k : Circuit) : Bytes := (List.range k.wireCount).flatMap (Bytes.ofNat 8)

def encode (k : Circuit) : Bytes :=
  Container.encode
    [(SectionKind.header.type, k.encodeHeader),
      (SectionKind.constraints.type, k.encodeConstraints),
      (SectionKind.wireLabels.type, k.encodeLabels)]

end Circuit

end CircuitTrace
