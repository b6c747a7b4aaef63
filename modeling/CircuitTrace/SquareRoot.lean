/-!
Square roots of counts, with 53 significant bits.

The root is rounded to the nearest number of 53 bits before it is rounded up to an integer. Up to
`2 ^ 52` this is the exact root rounded up; above that a root a little greater than an integer may
become that integer.
-/
namespace CircuitTrace.SquareRoot

/-- The greatest number whose square is at most `n`, one binary digit at a time. -/
def floor (n : Nat) : Nat :=
  if n = 0 then 0
  else
    let r := 2 * floor (n / 4)
    if (r + 1) * (r + 1) ≤ n then r + 1 else r
  termination_by n

/-- The nearest number with at most `bits` significant bits. A tie goes to the one whose last
significant bit is zero. -/
def roundSignificant (bits n : Nat) : Nat :=
  let unit := 1 <<< (n.log2 + 1 - bits)
  let q := n / unit
  let r := n % unit
  if unit < 2 * r ∨ unit = 2 * r ∧ q % 2 = 1 then (q + 1) * unit else q * unit

/-- The square root of `n` with 53 significant bits, rounded up. A root with `d` digits before the
point keeps `53 - d` behind it. -/
def ceilOf (n : Nat) : Nat :=
  let x := roundSignificant 53 n
  let places := 53 - (x.log2 / 2 + 1)
  let scaled := x <<< (2 * places)
  let q := floor scaled
  let root := if q * q + q < scaled then q + 1 else q
  (root + (1 <<< places) - 1) >>> places

end CircuitTrace.SquareRoot
