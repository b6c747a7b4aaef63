import CircuitTrace.SortedMap

namespace CircuitTrace

universe u

abbrev SortedSet (κ : Type u) [Ord κ] := SortedMap κ Unit

namespace SortedSet

variable {κ : Type u} [Ord κ]

def toList (s : SortedSet κ) : List κ := s.keys

def add [Std.TransOrd κ] (s : SortedSet κ) (x : κ) : SortedSet κ := s.insert x ()

def addAll [Std.TransOrd κ] (s : SortedSet κ) (l : List κ) : SortedSet κ := l.foldl add s

def ofList [Std.TransOrd κ] (l : List κ) : SortedSet κ := addAll .empty l

def union [Std.TransOrd κ] (s t : SortedSet κ) : SortedSet κ := addAll s t.toList

def overlap (s t : SortedSet κ) : Nat := s.toList.countP t.contains

end SortedSet

end CircuitTrace
