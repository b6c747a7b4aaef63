import CircuitTrace.Monomial
import CircuitTrace.Residue
import CircuitTrace.SortedSet

/-!
Sparse polynomials with residues as coefficients. A polynomial does not know its modulus: each
operation is told which `p` it works with.

Terms that become zero are dropped, so the zero polynomial has no terms, and the stored
coefficients are those a formal polynomial over the integers modulo `p` has.
-/
namespace CircuitTrace

/-- The terms, in the order of their monomials. -/
structure Poly where
  terms : SortedMap Monomial Nat
  deriving DecidableEq

namespace Poly

inductive EvalError where
  | missingAssignment (x : Nat)
  deriving DecidableEq

def EvalError.message : EvalError → String
  | .missingAssignment x => s!"No value assigned to variable {x}."

def zero : Poly := ⟨.empty⟩

/-- Adds one term. A zero coefficient adds nothing, and a sum of zero removes the term. -/
def addTerm (p : Nat) (a : Poly) (m : Monomial) (c : Nat) : Poly :=
  if c = 0 then a
  else ⟨a.terms.alter m fun
    | none => some c
    | some d => if Residue.add p d c = 0 then none else some (Residue.add p d c)⟩

/-- A single term, or none if the coefficient is zero. -/
def term (m : Monomial) (c : Nat) : Poly := if c = 0 then zero else ⟨SortedMap.empty.insert m c⟩

def const (c : Nat) : Poly := term .one c

def one : Poly := const 1

def var (x : Nat) : Poly := term (.var x) 1

def isZero (a : Poly) : Bool := a.terms.isEmpty

def size (a : Poly) : Nat := a.terms.size

/-- `none` where the monomial does not occur. -/
def coeff? (a : Poly) (m : Monomial) : Option Nat := a.terms.get? m

def constTerm? (a : Poly) : Option Nat := a.coeff? .one

/-- The greatest degree of a term, and zero if there is none. -/
def degree (a : Poly) : UInt32 := a.terms.keys.foldl (fun d m => max d m.degree) 0

/-- The variables that occur, ascending. -/
def vars (a : Poly) : List Nat := (SortedSet.ofList (a.terms.keys.flatMap Monomial.vars)).toList

def ofTerms (p : Nat) (l : List (Monomial × Nat)) : Poly :=
  l.foldl (fun r t => r.addTerm p t.1 t.2) zero

def add (p : Nat) (a b : Poly) : Poly :=
  b.terms.entries.foldl (fun r t => r.addTerm p t.1 t.2) a

def neg (p : Nat) (a : Poly) : Poly := ⟨a.terms.mapValues (Residue.neg p)⟩

def sub (p : Nat) (a b : Poly) : Poly := add p a (neg p b)

def mul (p : Nat) (a b : Poly) : Poly :=
  a.terms.entries.foldl
    (fun r s => b.terms.entries.foldl
      (fun r t => r.addTerm p (s.1 * t.1) (Residue.mul p s.2 t.2)) r)
    zero

/-- No exponent outgrows its word in a product of two polynomials. -/
def Fits (a b : Poly) : Prop := ∀ s ∈ a.terms.entries, ∀ t ∈ b.terms.entries, s.1.Fits t.1

instance (a b : Poly) : Decidable (a.Fits b) :=
  inferInstanceAs (Decidable (∀ s ∈ a.terms.entries, ∀ t ∈ b.terms.entries, _))

def scale (p : Nat) (a : Poly) (k : Nat) : Poly :=
  a.terms.entries.foldl (fun r t => r.addTerm p t.1 (Residue.mul p t.2 k)) zero

/-! The same in place: the polynomial at hand is replaced. -/

def addAssign (p : Nat) (b : Poly) : StateM Poly Unit :=
  b.terms.entries.forM fun t => modify fun a => a.addTerm p t.1 t.2

def subAssign (p : Nat) (b : Poly) : StateM Poly Unit := addAssign p (neg p b)

def mulAssign (p : Nat) (b : Poly) : StateM Poly Unit := modify fun a => mul p a b

/-- Multiplies a coefficient by the values of those variables of a monomial that have one. -/
def scaleByKnown (p : Nat) (values : Nat → Option Nat) (m : Monomial) (c : Nat) : Nat :=
  m.powers.entries.foldl
    (fun c e => match values e.1 with
      | some v => Residue.mul p c (Residue.pow p v e.2.toNat)
      | none => c)
    c

/-- Substitutes the variables that have a value. The others stay symbolic. -/
def evalPartial (p : Nat) (values : Nat → Option Nat) (a : Poly) : Poly :=
  a.terms.entries.foldl
    (fun r t => r.addTerm p (t.1.restrict fun x => (values x).isNone)
      (scaleByKnown p values t.1 t.2))
    zero

/-- The value of one term. Variables are looked up in ascending order. -/
def evalTerm (p : Nat) (values : Nat → Option Nat) (m : Monomial) (c : Nat) :
    Except EvalError Nat :=
  m.powers.entries.foldlM
    (fun c e => match values e.1 with
      | some v => .ok (Residue.mul p c (Residue.pow p v e.2.toNat))
      | none => .error (.missingAssignment e.1))
    c

/-- The value at an assignment that covers all variables that occur. -/
def eval (p : Nat) (values : Nat → Option Nat) (a : Poly) : Except EvalError Nat :=
  a.terms.entries.foldlM
    (fun sum t => (evalTerm p values t.1 t.2).map (Residue.add p sum))
    0

end Poly

end CircuitTrace
