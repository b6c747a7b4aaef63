import CircuitTrace.Circuit

/-!
Groups of constraints. Constraints of one group share a row of the trace, so few rows are needed
when groups are large, and few cells when the wires of their constraints overlap.

`Group.mergeRound` merges groups in pairs, `Group.chain` puts groups into an order in which
neighbours overlap.
-/
namespace CircuitTrace

/-- Constraints by index, and the wires they use besides the constant one. -/
structure Group where
  wires : SortedSet Nat
  constraints : List Nat
  deriving DecidableEq

namespace Group

def empty : Group := ⟨.empty, []⟩

/-- A group for each constraint of a circuit. -/
def singletons (k : Circuit) : List Group := k.constraints.mapIdx fun i c => ⟨c.wires, [i]⟩

def overlap (g h : Group) : Nat := SortedSet.overlap g.wires h.wires

def merge (g h : Group) : Group := ⟨SortedSet.union g.wires h.wires, g.constraints ++ h.constraints⟩

/-- A group and its place among the groups of a round. -/
abbrev Numbered := Nat × Group

/-- The group that shares most wires with `g`, the first of them on ties, if any shares some. -/
def bestPartner (g : Group) (l : List Numbered) : Option Numbered :=
  l.foldl
    (fun best h =>
      if (best.map fun b => g.overlap b.2).getD 0 < g.overlap h.2 then some h else best)
    none

/-- Pairs of groups, and the groups that stay alone. -/
structure Pairing where
  pairs : List (Numbered × Numbered)
  alone : List Numbered

/-- Pairs groups that share wires. Each group in turn takes the best partner among those behind
it, until `budget` pairs are formed. -/
def pairOverlapping (budget : Nat) : List Numbered → Pairing
  | [] => ⟨[], []⟩
  | g :: rest =>
    if budget = 0 then ⟨[], g :: rest⟩
    else match bestPartner g.2 rest with
      | some h =>
        let r := pairOverlapping (budget - 1) (rest.erase h)
        { r with pairs := (g, h) :: r.pairs }
      | none =>
        let r := pairOverlapping budget rest
        { r with alone := g :: r.alone }
  termination_by l => l.length
  decreasing_by
    · exact Nat.lt_succ_of_le List.length_erase_le
    · exact Nat.lt_succ_self _

/-- Pairs groups that follow each other, until `budget` pairs are formed. -/
def pairNeighbours : (budget : Nat) → List Numbered → Pairing
  | budget + 1, g :: h :: rest =>
    let r := pairNeighbours budget rest
    { r with pairs := (g, h) :: r.pairs }
  | _, rest => ⟨[], rest⟩

/-- Merges the groups of each pair, and puts all groups back into their order. A pair stands
where its first group stood. -/
def Pairing.groups (r : Pairing) : List Group :=
  ((r.pairs.map fun x => (x.1.1, x.1.2.merge x.2.2)) ++ r.alone).mergeSort
    (fun x y => x.1 ≤ y.1) |>.map (·.2)

/-- Merges groups in pairs, first those that share wires, then those that are left, but no more
pairs than lead down to `target` groups. -/
def mergeRound (target : Nat) (groups : List Group) : List Group :=
  let budget := groups.length - target
  let first := pairOverlapping budget (groups.mapIdx fun i g => (i, g))
  let second := pairNeighbours (budget - first.pairs.length) first.alone
  Pairing.groups ⟨first.pairs ++ second.pairs, second.alone⟩

/-- A way to lengthen a chain of groups. -/
structure Attachment where
  overlap : Nat
  /-- In front of the chain, or else behind it. -/
  front : Bool
  /-- The place of the attached group among those that remain. -/
  index : Nat
  deriving DecidableEq

/-- A group goes to the end of the chain with which it shares more wires, on ties behind it. -/
def attachment (first last : Group) (g : Group) (index : Nat) : Attachment :=
  if last.overlap g < first.overlap g then ⟨first.overlap g, true, index⟩
  else ⟨last.overlap g, false, index⟩

/-- The attachment with the greatest overlap, on ties that of the first group. -/
def bestAttachment (first last : Group) (remaining : List Group) : Option Attachment :=
  remaining.zipIdx.foldl
    (fun best g =>
      let candidate := attachment first last g.1 g.2
      match best with
      | none => some candidate
      | some b => if b.overlap < candidate.overlap then some candidate else best)
    none

/-- Lengthens a chain by the remaining groups, always by the best attachment. -/
def extendChain (chain remaining : List Group) : List Group :=
  match bestAttachment (chain.head?.getD empty) (chain.getLast?.getD empty) remaining with
  | none => chain
  | some best =>
    if h : best.index < remaining.length then
      let g := remaining[best.index]
      extendChain (if best.front then g :: chain else chain ++ [g])
        (remaining.eraseIdx best.index)
    else chain
  termination_by remaining.length
  decreasing_by rw [List.length_eraseIdx_of_lt h]; omega

/-- Orders groups so that neighbours share wires, beginning with the first group. -/
def chain : List Group → List Group
  | [] => []
  | g :: rest => extendChain [g] rest

end Group

end CircuitTrace
