import CircuitTrace.Poly

/-!
How polynomials are written. A variable is an `x` with its number as a subscript, behind it its
exponent as a superscript unless that is one; a term is its coefficient, unless that is one and
the monomial is not constant, and its monomial; terms are joined by plus signs in the order in
which they are stored, and the zero polynomial is `0`.
-/
namespace CircuitTrace

namespace Decimal

/-- The decimal digits of a number, each replaced by its entry in a table of ten characters. -/
def digitsIn (table : List Char) (n : Nat) : List Char :=
  (Nat.toDigits 10 n).map fun d => table.getD (d.toNat - '0'.toNat) d

def superscripts : List Char := ['⁰', '¹', '²', '³', '⁴', '⁵', '⁶', '⁷', '⁸', '⁹']

def subscripts : List Char := ['₀', '₁', '₂', '₃', '₄', '₅', '₆', '₇', '₈', '₉']

end Decimal

namespace Monomial

def powerText (x : Nat) (e : UInt32) : List Char :=
  'x' :: Decimal.digitsIn Decimal.subscripts x ++
    if e = 1 then [] else Decimal.digitsIn Decimal.superscripts e.toNat

/-- The constant monomial is the empty text. -/
def text (m : Monomial) : List Char := m.powers.entries.flatMap fun e => powerText e.1 e.2

def render (m : Monomial) : String := String.ofList m.text

end Monomial

namespace Poly

def termText (m : Monomial) (c : Nat) : List Char :=
  (if m.isConstant || c != 1 then Nat.toDigits 10 c else []) ++ m.text

def text (a : Poly) : List Char :=
  if a.isZero then ['0']
  else [' ', '+', ' '].intercalate (a.terms.entries.map fun t => termText t.1 t.2)

def render (a : Poly) : String := String.ofList a.text

end Poly

end CircuitTrace
