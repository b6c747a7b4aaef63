namespace CircuitTrace

/-- What a section holds, as told by its type number. -/
inductive SectionKind where
  | header
  | constraints
  /-- A label for each wire. Labels are never read, they always equal the wire. -/
  | wireLabels
  | customGates (sectionType : Nat)
  | unknown (sectionType : Nat)
  deriving DecidableEq

namespace SectionKind

def ofType : Nat → SectionKind
  | 1 => .header
  | 2 => .constraints
  | 3 => .wireLabels
  | 4 => .customGates 4
  | 5 => .customGates 5
  | t => .unknown t

def type : SectionKind → Nat
  | .header => 1
  | .constraints => 2
  | .wireLabels => 3
  | .customGates t | .unknown t => t

def name : SectionKind → String
  | .header => "Header"
  | .constraints => "Constraints"
  | .wireLabels => "WireLabels"
  | .customGates t => s!"CustomGates({t})"
  | .unknown t => s!"Unknown({t})"

end SectionKind

inductive FormatError where
  | truncated (offset needed : Nat)
  | badMagic (found : Nat)
  | negativeSectionLength (sectionType : Nat) (length : Int)
  | duplicateSection (kind : SectionKind)
  | missingSection (kind : SectionKind)
  | invalidPrime (fieldSize prime : Nat)
  | inconsistentHeader (declared required : Nat)
  | wireOutOfRange (constraint wire wireCount : Nat)
  | nonCanonicalCoefficient (constraint wire : Nat)
  | duplicateWire (constraint wire : Nat)
  deriving DecidableEq

namespace FormatError

/-- Eight lower-case hexadecimal digits behind `0x`. -/
def hex32 (n : Nat) : String :=
  "0x" ++ String.ofList ((List.range 8).map fun i => Nat.digitChar (n >>> (4 * (7 - i)) % 16))

def message : FormatError → String
  | .truncated offset needed =>
    s!"Unexpected end of data at offset {offset}: {needed} more bytes needed."
  | .badMagic found => s!"Bad magic value {hex32 found}."
  | .negativeSectionLength sectionType length =>
    s!"Section of type {sectionType} has negative length {length}."
  | .duplicateSection kind => s!"Section {kind.name} appears more than once."
  | .missingSection kind => s!"Required section {kind.name} is missing."
  | .invalidPrime fieldSize prime => s!"Invalid field: size {fieldSize} bytes, prime {prime}."
  | .inconsistentHeader declared required =>
    s!"Header declares {declared} wires but layout needs at least {required}."
  | .wireOutOfRange constraint wire wireCount =>
    s!"Constraint {constraint} references wire {wire}, but there are {wireCount} wires."
  | .nonCanonicalCoefficient constraint wire =>
    s!"Constraint {constraint} has a coefficient for wire {wire} that is not reduced."
  | .duplicateWire constraint wire =>
    s!"Constraint {constraint} repeats wire {wire} within one linear combination."

end FormatError

/-- Well-formed contents that are not handled. -/
inductive UnsupportedFeature where
  | customGates (sectionType : Nat)
  | version (found : Nat)
  deriving DecidableEq

def UnsupportedFeature.message : UnsupportedFeature → String
  | .customGates sectionType =>
    s!"Custom gates (section type {sectionType}) are not supported."
  | .version found => s!"Container version {found} is not supported."

inductive ParseError where
  | format (error : FormatError)
  | unsupported (feature : UnsupportedFeature)
  deriving DecidableEq

def ParseError.message : ParseError → String
  | .format error => error.message
  | .unsupported feature => feature.message

end CircuitTrace
