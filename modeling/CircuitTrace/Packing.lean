import CircuitTrace.Packing.Group
import CircuitTrace.Bisection
import CircuitTrace.Config
import CircuitTrace.Logged

/-!
Packings place the wires of a circuit into the rows of a trace. Every constraint has a home row.
Its wires lie on that row, possibly also on a neighbouring one, or else in columns that hold the
same value on all rows.
-/
namespace CircuitTrace

structure Packing where
  /-- The wires of each row, ascending. -/
  rows : List (List Nat)
  /-- The wires with a column of their own, ascending. -/
  globals : List Nat
  /-- The row of each constraint. -/
  homes : List Nat
  deriving DecidableEq

namespace Packing

def rowCount (k : Packing) : Nat := k.rows.length

/-- The number of wires of the widest row. -/
def width (k : Packing) : Nat := (k.rows.map List.length).foldl max 0

/-- The place of a wire among the wires of a row. -/
def payloadIndex? (k : Packing) (row wire : Nat) : Option Nat :=
  Bisection.find? (k.rows.getD row []) wire

/-- The place of a wire among the globals. -/
def globalIndex? (k : Packing) (wire : Nat) : Option Nat := Bisection.find? k.globals wire

/-- The rows that a wire lies on. -/
def rowsOf (k : Packing) (wire : Nat) : List Nat :=
  (List.range k.rowCount).filter fun row => (k.payloadIndex? row wire).isSome

/-- The row of a constraint. -/
def home (k : Packing) (constraint : Nat) : Nat := k.homes.getD constraint 0

/-- The rows of a chain of groups that use a wire. -/
def rowsUsing (chain : List Group) (wire : Nat) : List Nat :=
  (List.range chain.length).filter fun row =>
    (chain[row]?.map fun g => g.wires.contains wire).getD false

/-- A wire stays in the rows that use it if that is one row, or two rows next to each other. -/
def isLocal : List Nat → Bool
  | [_] => true
  | [a, b] => b == a + 1
  | _ => false

/-- The packing that a chain of groups makes. Public inputs that no constraint uses get columns
too, so that every public input has a cell. -/
def ofChain (k : Circuit) (chain : List Group) : Packing :=
  let used := chain.foldl (fun s g => SortedSet.union s g.wires) .empty
  let spread := used.toList.filter fun wire => !isLocal (rowsUsing chain wire)
  let unusedPublic := k.publicWires.toList.filter fun wire => !used.contains wire
  let globals := SortedSet.ofList (spread ++ unusedPublic)
  { rows := chain.map fun g => g.wires.keys.filter fun wire => !globals.contains wire
    globals := globals.toList
    homes := (List.range k.constraints.length).map fun c =>
      chain.findIdx fun g => g.constraints.contains c }

/-- Merges groups round by round, until no more than `target` are left or a round merges none. -/
def mergeGroups {ε : Type} (target round : Nat) (groups : List Group) :
    Logged ε (List Group) :=
  let merged := Group.mergeRound target groups
  if _h : target < groups.length ∧ merged.length < groups.length then do
    Logged.emit (.mergeRound round merged.length)
    mergeGroups target (round + 1) merged
  else return groups
  termination_by groups.length
  decreasing_by exact _h.2

/-- Packs the wires of a circuit. There are at least two rows. -/
def ofCircuit {ε : Type} (k : Circuit) (config : PackingConfig) : Logged ε Packing := do
  let groups ← mergeGroups (config.groupsFor k.constraints.length) 1 (Group.singletons k)
  let chain := Group.chain groups
  return ofChain k (chain ++ List.replicate (2 - chain.length) .empty)

end Packing

end CircuitTrace
