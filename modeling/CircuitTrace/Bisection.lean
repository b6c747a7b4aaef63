namespace CircuitTrace.Bisection

/-- A place of `x` in a list, searched for from `low` up to but not including `high`. -/
def between (l : List Nat) (x low high : Nat) : Option Nat :=
  if low < high then
    let middle := low + (high - low) / 2
    match compare (l.getD middle 0) x with
    | .lt => between l x (middle + 1) high
    | .eq => some middle
    | .gt => between l x low middle
  else none
  termination_by high - low

/-- The place of `x` in an ascending list. -/
def find? (l : List Nat) (x : Nat) : Option Nat := between l x 0 l.length

end CircuitTrace.Bisection
