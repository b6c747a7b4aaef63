namespace CircuitTrace

abbrev Assignment (n : Nat) := Vector (Option Nat) n

namespace Assignment

variable {n : Nat}

def unknown (n : Nat) : Assignment n := Vector.replicate n none

def get? (a : Assignment n) (wire : Nat) : Option Nat := a[wire]?.join

/-- Makes the value of a wire known. There is no effect outside the range of wires. -/
def assign (a : Assignment n) (wire value : Nat) : Assignment n :=
  a.setIfInBounds wire (some value)

def unknownCount (a : Assignment n) : Nat := a.toList.countP Option.isNone

/-- The first unknown wire, or the number of wires if all are known. -/
def firstUnknown (a : Assignment n) : Nat := a.toList.findIdx Option.isNone

/-- The values of all wires, zero where they are not known. -/
def values (a : Assignment n) : List Nat := a.toList.map (·.getD 0)

@[simp] theorem get?_unknown (wire : Nat) : (unknown n).get? wire = none := by
  by_cases h : wire < n <;> simp [get?, unknown, h]

theorem get?_assign (a : Assignment n) (wire value other : Nat) :
    (a.assign wire value).get? other =
      if wire = other ∧ wire < n then some value else a.get? other := by
  by_cases h : wire = other
  · subst h
    by_cases hn : wire < n <;> simp [get?, assign, hn]
  · simp [get?, assign, h]

end Assignment

end CircuitTrace
