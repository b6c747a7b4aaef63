import CircuitTrace.Poly.Text
import CircuitTrace.Strategy

/-!
What a computation reports on its way. Events are values: a computation hands back the list of
those it met, in order, whether or not it succeeds.
-/
namespace CircuitTrace

inductive Event where
  /-- A section whose type was seen before is skipped. -/
  | repeatedSection (sectionType : Nat)
  /-- The constraints end before their section does. -/
  | trailingBytes (count : Nat)
  /-- A wire was the only unknown of a constraint and got its value. -/
  | eliminated (constraint wire : Nat) (residual : Poly) (value : Nat)
  /-- A pass over the open constraints ended. -/
  | solverRound (round resolved remaining : Nat)
  | witnessSolved (rounds steps multiplications additions : Nat)
  /-- A pass that merges groups of constraints ended. -/
  | mergeRound (round groups : Nat)
  | packedLayout (rows globals width circuitConstraints auxiliaryConstraints : Nat)
  | layoutBuilt (strategy : Strategy) (registers rows constraints : Nat)
  deriving DecidableEq

namespace Event

inductive Level where
  | trace
  | debug
  | info
  | warn
  deriving DecidableEq

def Level.name : Level → String
  | .trace => "TRACE"
  | .debug => "DEBUG"
  | .info => "INFO"
  | .warn => "WARN"

inductive Value where
  | count (n : Nat)
  | text (s : String)
  deriving DecidableEq

def level : Event → Level
  | .repeatedSection _ | .trailingBytes _ => .warn
  | .eliminated .. => .trace
  | .solverRound .. | .mergeRound .. => .debug
  | .witnessSolved .. | .packedLayout .. | .layoutBuilt .. => .info

def message : Event → String
  | .repeatedSection _ => "Ignoring repeated section."
  | .trailingBytes _ => "Constraints section has trailing bytes."
  | .eliminated .. => "Eliminated."
  | .solverRound .. => "Solver round."
  | .witnessSolved .. => "Witness solved."
  | .mergeRound .. => "Merge round."
  | .packedLayout .. => "Packed layout."
  | .layoutBuilt .. => "Layout built."

def fields : Event → List (String × Value)
  | .repeatedSection sectionType => [("section_type", .count sectionType)]
  | .trailingBytes count => [("trailing", .count count)]
  | .eliminated constraint wire residual value =>
    [("constraint", .count constraint), ("wire", .count wire),
      ("residual", .text residual.render), ("value", .text (toString value))]
  | .solverRound round resolved remaining =>
    [("round", .count round), ("resolved", .count resolved), ("remaining", .count remaining)]
  | .witnessSolved rounds steps multiplications additions =>
    [("rounds", .count rounds), ("steps", .count steps),
      ("multiplications", .count multiplications), ("additions", .count additions)]
  | .mergeRound round groups => [("round", .count round), ("groups", .count groups)]
  | .packedLayout rows globals width circuitConstraints auxiliaryConstraints =>
    [("rows", .count rows), ("globals", .count globals), ("width", .count width),
      ("r1cs_constraints", .count circuitConstraints),
      ("aux_constraints", .count auxiliaryConstraints)]
  | .layoutBuilt strategy registers rows constraints =>
    [("strategy", .text strategy.name), ("registers", .count registers), ("rows", .count rows),
      ("constraints", .count constraints)]

end Event

end CircuitTrace
