import CircuitTrace.Limbs
import CircuitTrace.Trace.Program

/-!
Statements: what the verifier of a trace sees, with all field elements as limbs. The reference
proof system of this module has the trace itself as its proof, and verification checks every
constraint on it; a proof is neither short nor secret.
-/
namespace CircuitTrace

structure EncodedTerm where
  coefficient : List Nat
  powers : List (Nat × UInt32)
  deriving DecidableEq

structure EncodedBoundary where
  row : Nat
  register : Nat
  value : List Nat
  deriving DecidableEq

abbrev EncodedTrace := List (List (List Nat))

structure Statement where
  modulus : List Nat
  limbBits : Nat
  registerCount : Nat
  rowCount : Nat
  transitions : List (List EncodedTerm)
  boundary : List EncodedBoundary
  deriving DecidableEq

structure ProverInput where
  statement : Statement
  trace : EncodedTrace
  deriving DecidableEq

inductive StatementError where
  | limbWidth (bits : Nat)
  | invalidModulus (modulus : Nat)
  | nonCanonicalValue (value modulus : Nat)
  | traceLength (expected found : Nat)
  | trace (error : TraceError)
  deriving DecidableEq

def StatementError.message : StatementError → String
  | .limbWidth bits => s!"Limb width {bits} is not in 1..=64."
  | .invalidModulus modulus => s!"Modulus {modulus} is not a valid field modulus."
  | .nonCanonicalValue value modulus => s!"Value {value} is not reduced modulo {modulus}."
  | .traceLength expected found =>
    s!"Proof covers a trace of {found} rows, the statement declares {expected}."
  | .trace error => error.message

namespace EncodedTerm

def ofTerm (w : LimbWidth) (t : Monomial × Nat) : EncodedTerm :=
  ⟨Limbs.ofNat w t.2, t.1.powers.entries⟩

end EncodedTerm

def Trace.encode (w : LimbWidth) (trace : Trace) : EncodedTrace :=
  trace.map fun row => row.map (Limbs.ofNat w)

namespace ProverInput

def ofProgram (w : LimbWidth) (g : Program) : ProverInput where
  statement := {
    modulus := Limbs.ofNat w g.modulus
    limbBits := w.bits
    registerCount := g.registerCount
    rowCount := g.trace.length
    transitions := g.transitions.map fun poly => poly.terms.entries.map (EncodedTerm.ofTerm w)
    boundary := g.boundary.map fun b => ⟨b.row, b.register, Limbs.ofNat w b.value⟩ }
  trace := Trace.encode w g.trace

end ProverInput

namespace Statement

/-- The limb width and the modulus that a statement declares. -/
def field (s : Statement) : Except StatementError (LimbWidth × Nat) :=
  match LimbWidth.ofNat? s.limbBits with
  | none => .error (.limbWidth s.limbBits)
  | some w =>
    if Residue.IsModulus (Limbs.toNat w s.modulus) then .ok (w, Limbs.toNat w s.modulus)
    else .error (.invalidModulus (Limbs.toNat w s.modulus))

/-- A field element. It has to be reduced, but its limbs may be wider than the width and more
than needed. -/
def element (w : LimbWidth) (p : Nat) (limbs : List Nat) : Except StatementError Nat :=
  if Residue.IsReduced p (Limbs.toNat w limbs) then .ok (Limbs.toNat w limbs)
  else .error (.nonCanonicalValue (Limbs.toNat w limbs) p)

def decodePoly (w : LimbWidth) (p : Nat) (terms : List EncodedTerm) :
    Except StatementError Poly :=
  terms.foldlM
    (fun sum t => (element w p t.coefficient).map (sum.addTerm p (.ofPowers t.powers)))
    .zero

def decodeBoundary (w : LimbWidth) (p : Nat) (b : EncodedBoundary) :
    Except StatementError BoundaryConstraint :=
  (element w p b.value).map fun value => ⟨b.row, b.register, value⟩

def decodeTrace (w : LimbWidth) (p : Nat) (trace : EncodedTrace) :
    Except StatementError Trace :=
  trace.mapM fun row => row.mapM (element w p)

/-- The program that a statement describes, around a trace. The first fault counts, in the order
field, transitions, boundary, trace. -/
def program (s : Statement) (trace : EncodedTrace) : Except StatementError Program := do
  let (w, p) ← s.field
  let transitions ← s.transitions.mapM (decodePoly w p)
  let boundary ← s.boundary.mapM (decodeBoundary w p)
  let trace ← decodeTrace w p trace
  return { modulus := p, registerCount := s.registerCount, transitions, boundary, trace }

/-- Checks a trace against a statement. The number of rows is compared first. -/
def verify (s : Statement) (trace : EncodedTrace) : Except StatementError Unit := do
  if trace.length ≠ s.rowCount then throw (.traceLength s.rowCount trace.length)
  let g ← s.program trace
  g.check.mapError .trace

end Statement

/-- The proof for an input, which is its trace, unless verification would refuse it. -/
def ProverInput.prove (input : ProverInput) : Except StatementError EncodedTrace :=
  (input.statement.verify input.trace).map fun _ => input.trace

end CircuitTrace
