import CircuitTrace.Solver.Path

/-!
Constraints as equations in one unknown wire. With all other wires known, what is left of a
constraint is a polynomial `c₀ + c₁ x + c₂ x²` in the wire `x`; `Equation.solveFor` solves the
shapes of it that have a root without square roots.
-/
namespace CircuitTrace

/-- A constraint, its place in the circuit, its polynomial and the wires that occur in it. -/
structure Equation where
  index : Nat
  constraint : Constraint
  poly : Poly
  wires : List Nat
  deriving DecidableEq

namespace Equation

def ofConstraint (p index : Nat) (c : Constraint) : Equation :=
  ⟨index, c, c.toPoly p, c.wires.toList⟩

/-- The wires of an equation that have no value yet. -/
def unknowns (e : Equation) (values : Nat → Option Nat) : List Nat :=
  e.wires.filter fun wire => (values wire).isNone

/-- What is left of the polynomial when the known wires are substituted. -/
def residual (p : Nat) (values : Nat → Option Nat) (e : Equation) : Poly :=
  e.poly.evalPartial p values

/-- The value of a linear combination without one of its wires and without unknown wires. -/
def offset (p : Nat) (values : Nat → Option Nat) (wire : Nat) (l : LinearCombination) : Nat :=
  l.entries.foldl
    (fun sum e => match values e.1 with
      | some v => if e.1 = wire then sum else Residue.add p sum (Residue.mul p e.2 v)
      | none => sum)
    0

/-- The root of a linear combination as a function of one wire, if it depends on the wire. -/
def linearRoot (p : Nat) (values : Nat → Option Nat) (wire : Nat) (l : LinearCombination) :
    Except ArithmeticError (Option Nat) :=
  match l.get? wire with
  | none | some 0 => .ok none
  | some slope => (Residue.div p (Residue.neg p (offset p values wire l)) slope).map some

/-- A root of `a * b`, sought in `a` first. -/
def productRoot (p : Nat) (values : Nat → Option Nat) (wire : Nat) (c : Constraint) :
    Except ArithmeticError (Option Nat) := do
  match ← linearRoot p values wire c.a with
  | some root => return some root
  | none => linearRoot p values wire c.b

/-- Solves an equation for its single unknown wire. There is no value when the residual does not
depend on the wire; the equation may become solvable once the values change.

Three terms come only from a product of two factors that both depend on the wire, and are solved
when the other side is empty. Of the roots of `c₁ x + c₂ x²` the one that is not zero is taken. -/
def solveFor (p : Nat) (values : Nat → Option Nat) (e : Equation) (wire : Nat) :
    Except SolveError (Option Nat) :=
  let residual := e.residual p values
  let linear := residual.coeff? (.var wire)
  let quadratic := residual.coeff? (.power wire 2)
  let unsupported := .error (.unsupportedResidual e.index wire residual.size)
  match residual.size with
  | 3 =>
    if e.constraint.c.isEmpty then
      match productRoot p values wire e.constraint with
      | .ok (some root) => .ok (some root)
      | .ok none => unsupported
      | .error error => .error (.arithmetic error)
    else unsupported
  | 2 =>
    match residual.constTerm?, linear, quadratic with
    | _, some c₁, some c₂ =>
      ((Residue.div p (Residue.neg p c₁) c₂).map some).mapError .arithmetic
    | some c₀, some c₁, none =>
      ((Residue.div p (Residue.neg p c₀) c₁).map some).mapError .arithmetic
    | _, _, _ => unsupported
  | 1 => .ok (if linear.isSome || quadratic.isSome then some 0 else none)
  | _ => .ok none

/-- The degree of a monomial without the constant wire. -/
def factorDegree (m : Monomial) : UInt32 := m.degree - m.exponent oneWire

/-- The operations that `wire = -rest / c` takes, where `c` is the coefficient of the wire and
`rest` are the terms without it. -/
def cost (p : Nat) (e : Equation) (wire : Nat) : Cost :=
  let rest := e.poly.terms.entries.filter fun t => t.1.exponent wire = 0
  let products := rest.foldr
    (fun t n => (factorDegree t.1).toNat + (if t.2 = 1 then 0 else 1) - 1 + n) 0
  let slope := e.poly.terms.entries.find? fun t =>
    t.1.exponent wire = 1 ∧ factorDegree t.1 = 1
  let scaling := match slope.map fun t => Residue.div p (Residue.neg p 1) t.2 with
    | some (.ok factor) => if factor = 1 then 0 else 1
    | _ => 0
  ⟨products + scaling, rest.length - 1⟩

end Equation

end CircuitTrace
