/-!
Arithmetic modulo a number `p` chosen when the program runs. Residues are natural numbers: every
operation is defined on all of them, and gives a number below `p` when its arguments are below
`p`. Nothing here needs `p` to be prime except the meaning of `inverse`.
-/
namespace CircuitTrace

inductive ArithmeticError where
  | divisionByZero
  deriving DecidableEq

def ArithmeticError.message : ArithmeticError → String
  | .divisionByZero => "Division by zero."

namespace Residue

/-- A modulus leaves room for zero and one. Primality is never tested. -/
def IsModulus (p : Nat) : Prop := 2 ≤ p

instance (p : Nat) : Decidable (IsModulus p) := inferInstanceAs (Decidable (2 ≤ p))

/-- `2 ^ 64 - 2 ^ 32 + 1`. -/
def goldilocks : Nat := 18446744069414584321

/-- A number below `p` is its own residue. -/
def IsReduced (p a : Nat) : Prop := a < p

instance (p a : Nat) : Decidable (IsReduced p a) := inferInstanceAs (Decidable (a < p))

def reduce (p a : Nat) : Nat := a % p

def add (p a b : Nat) : Nat := (a + b) % p

/-- The modulus is added first, so that nothing is cut off while `b` is at most `a + p`. -/
def sub (p a b : Nat) : Nat := (a + p - b) % p

def mul (p a b : Nat) : Nat := (a * b) % p

def neg (p a : Nat) : Nat := if a = 0 then 0 else p - a

/-- `a ^ e` modulo `p`, by squaring: the base is squared each time the exponent is halved. -/
def pow (p a e : Nat) : Nat :=
  if e = 0 then 1 % p
  else
    let rest := pow p (a * a % p) (e / 2)
    if e % 2 = 0 then rest else a * rest % p
  termination_by e

/-- The inverse by Fermat's little theorem, `a ^ (p - 2)`. Only the number zero has none: a
multiple of `p` is not looked at more closely. -/
def inverse (p a : Nat) : Except ArithmeticError Nat :=
  if a = 0 then .error .divisionByZero else .ok (pow p a (p - 2))

def div (p a b : Nat) : Except ArithmeticError Nat := (inverse p b).map (mul p a)

/-- The residue of an integer: the magnitude is reduced, then the sign is applied. -/
def ofInt (p : Nat) (i : Int) : Nat :=
  if i < 0 then neg p (reduce p i.natAbs) else reduce p i.natAbs

end Residue

end CircuitTrace
