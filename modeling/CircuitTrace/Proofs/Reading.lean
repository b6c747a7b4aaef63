import CircuitTrace.Proofs.Satisfaction
import CircuitTrace.Proofs.TraceCheck
import CircuitTrace.Trace.Layout

/-!
Reading a witness off a trace. A layout says which cells hold a wire; the value of the wire is read
off the first of them. When all cells of a wire agree modulo `p`, it does not matter which of them
is read, and a trace whose other cells are right too is the trace of the witness read off it.
-/
namespace CircuitTrace

namespace Trace

/-- All cells reduced modulo `p`. -/
def reduce (p : Nat) (t : Trace) : Trace := t.map fun cells => cells.map (Residue.reduce p)

/-- Traces of one shape are congruent when their cells are. -/
theorem reduce_eq_reduce {p n : Nat} {t t' : Trace} (hlen : t.length = t'.length) (ht : t.Shaped n)
    (ht' : t'.Shaped n) (h : ∀ row register, row < t.length → register < n →
      (t.cell row register : ZMod p) = t'.cell row register) : t.reduce p = t'.reduce p := by
  apply List.ext_getElem
  · simpa [reduce] using hlen
  · intro row hr hr'
    have hr : row < t.length := by simpa [reduce] using hr
    have hr' : row < t'.length := by simpa [reduce] using hr'
    have hc : t[row].length = n := ht _ (List.getElem_mem hr)
    have hc' : t'[row].length = n := ht' _ (List.getElem_mem hr')
    have hrows : t[row].map (Residue.reduce p) = t'[row].map (Residue.reduce p) := by
      apply List.ext_getElem
      · simp only [List.length_map, hc, hc']
      · intro register hg hg'
        have hg : register < n := by simpa [hc] using hg
        have hcell := h row register hr hg
        rw [cell, cell, List.getD_eq_getElem _ _ hr, List.getD_eq_getElem _ _ hr',
          List.getD_eq_getElem _ _ (by omega), List.getD_eq_getElem _ _ (by omega)] at hcell
        rw [List.getElem_map, List.getElem_map]
        exact Residue.reduce_eq_reduce_iff.2 hcell
    simpa [reduce] using hrows

end Trace

namespace Layout

variable {l : Layout} {p : Nat} {t : Trace} {wire : Nat}

/-- What a cell of a layout holds. -/
def cell? (l : Layout) (row register : Nat) : Option Cell :=
  l.cells[row]?.bind fun cells => cells[register]?

/-- The first cell, row by row, that holds a wire. -/
def placeOf? (l : Layout) (wire : Nat) : Option (Nat × Nat) :=
  l.cells.zipIdx.findSome? fun cells =>
    (cells.1.idxOf? (.wire wire)).map fun register => (cells.2, register)

/-- The value of a wire in a trace. The constant wire is one, and a wire without a cell is zero. -/
def read (l : Layout) (t : Trace) (wire : Nat) : Nat :=
  if wire = oneWire then 1
  else match l.placeOf? wire with
    | some (row, register) => t.cell row register
    | none => 0

/-- The witness that a trace carries, reduced. -/
def witnessOf (l : Layout) (p wireCount : Nat) (t : Trace) : Witness :=
  .ofValues p ((List.range wireCount).map (l.read t))

theorem cell?_of_placeOf? {row register : Nat} (h : l.placeOf? wire = some (row, register)) :
    l.cell? row register = some (.wire wire) := by
  obtain ⟨⟨cells, row'⟩, hmem, hplace⟩ := List.exists_of_findSome?_eq_some h
  obtain ⟨register', hidx, heq⟩ := Option.map_eq_some_iff.1 hplace
  obtain ⟨rfl, rfl⟩ := Prod.mk.inj heq
  have hcells := List.mem_zipIdx_iff_getElem?.1 hmem
  obtain ⟨hlt, hcell, -⟩ := List.idxOf?_eq_some_iff.1 hidx
  rw [cell?, hcells, Option.bind_some, List.getElem?_eq_getElem hlt, hcell]

theorem exists_placeOf? {row register : Nat} (h : l.cell? row register = some (.wire wire)) :
    ∃ row' register', l.placeOf? wire = some (row', register') := by
  obtain ⟨cells, hcells, hcell⟩ := Option.bind_eq_some_iff.1 h
  cases hplace : l.placeOf? wire with
  | some x => exact ⟨x.1, x.2, rfl⟩
  | none =>
    have hnone := List.findSome?_eq_none_iff.1 hplace (cells, row)
      (List.mem_zipIdx_iff_getElem?.2 hcells)
    rw [Option.map_eq_none_iff, List.idxOf?_eq_none_iff] at hnone
    exact absurd (List.mem_of_getElem? hcell) hnone

/-- No cell of a wire lies before the first. -/
theorem placeOf?_first {row register row' register' : Nat}
    (h : l.placeOf? wire = some (row, register)) (h' : l.cell? row' register' = some (.wire wire)) :
    row < row' ∨ row = row' ∧ register ≤ register' := by
  obtain ⟨before, ⟨cells, index⟩, after, hsplit, hplace, hnone⟩ := List.findSome?_eq_some_iff.1 h
  obtain ⟨register'', hidx, heq⟩ := Option.map_eq_some_iff.1 hplace
  obtain ⟨rfl, rfl⟩ := Prod.mk.inj heq
  have hat : l.cells.zipIdx[before.length]? = some (cells, index) := by simp [hsplit]
  have hindex : index = before.length := by
    rw [List.getElem?_zipIdx, Nat.zero_add] at hat
    obtain ⟨_, -, heq⟩ := Option.map_eq_some_iff.1 hat
    exact (Prod.mk.inj heq).2.symm
  obtain ⟨cells', hcells', hcell'⟩ := Option.bind_eq_some_iff.1 h'
  have hat' : l.cells.zipIdx[row']? = some (cells', row') := by
    rw [List.getElem?_zipIdx, hcells', Option.map_some, Nat.zero_add]
  -- An earlier row has no cell of the wire, and on the same row `idxOf?` finds the first.
  rcases Nat.lt_trichotomy row' index with hlt | rfl | hlt
  · rw [hsplit, List.getElem?_append_left (by omega)] at hat'
    have hno := hnone _ (List.mem_of_getElem? hat')
    rw [Option.map_eq_none_iff, List.idxOf?_eq_none_iff] at hno
    exact absurd (List.mem_of_getElem? hcell') hno
  · rw [← hindex, hat'] at hat
    obtain rfl : cells' = cells := (Prod.mk.inj (Option.some.inj hat)).1
    obtain ⟨_, -, hfirst⟩ := List.idxOf?_eq_some_iff.1 hidx
    refine .inr ⟨rfl, ?_⟩
    by_contra hlt
    obtain ⟨_, hwire⟩ := List.getElem?_eq_some_iff.1 hcell'
    exact hfirst register' (by omega) hwire
  · exact .inl hlt

theorem placeOf?_eq_some {row register : Nat} (h : l.cell? row register = some (.wire wire))
    (hfirst : ∀ {row' register'}, l.cell? row' register' = some (.wire wire) →
      row < row' ∨ row = row' ∧ register ≤ register') : l.placeOf? wire = some (row, register) := by
  obtain ⟨row', register', hplace⟩ := exists_placeOf? h
  have hle := hfirst (cell?_of_placeOf? hplace)
  have hge := placeOf?_first hplace h
  obtain rfl : row = row' := by omega
  obtain rfl : register = register' := by omega
  exact hplace

theorem read_oneWire (l : Layout) (t : Trace) : l.read t oneWire = 1 := if_pos rfl

/-- The cells of each wire agree modulo `p`. -/
def Linked (l : Layout) (p : Nat) (t : Trace) : Prop :=
  ∀ {row register row' register' wire}, l.cell? row register = some (.wire wire) →
    l.cell? row' register' = some (.wire wire) →
    (t.cell row register : ZMod p) = t.cell row' register'

/-- The reading of a wire is the value of each of its cells. -/
theorem Linked.read_eq (h : l.Linked p t) (hne : wire ≠ oneWire) {row register : Nat}
    (hcell : l.cell? row register = some (.wire wire)) :
    (l.read t wire : ZMod p) = t.cell row register := by
  obtain ⟨row', register', hplace⟩ := exists_placeOf? hcell
  rw [read, if_neg hne, hplace]
  exact h (cell?_of_placeOf? hplace) hcell

theorem size_witnessOf (l : Layout) (p n : Nat) (t : Trace) : (l.witnessOf p n t).size = n := by
  simp [witnessOf, Witness.ofValues, Witness.size]

theorem value_witnessOf {n : Nat} (hw : wire < n) :
    (l.witnessOf p n t).value wire = Residue.reduce p (l.read t wire) := by
  simp [witnessOf, Witness.ofValues, Witness.value, hw]

theorem cast_witnessOf {n : Nat} (hw : wire < n) :
    ((l.witnessOf p n t).value wire : ZMod p) = l.read t wire := by
  rw [value_witnessOf hw, Residue.cast_reduce]

theorem value_witnessOf_oneWire {n : Nat} (hn : 0 < n) (hp : 1 < p) :
    (l.witnessOf p n t).value oneWire = 1 := by
  have hone : oneWire < n := hn
  rw [value_witnessOf hone, read_oneWire, Residue.reduce, Nat.mod_eq_of_lt hp]

section Generated

variable {w : Witness}

theorem cell_trace {row register : Nat} {c : Cell} (h : l.cell? row register = some c) :
    (l.trace w).cell row register = c.value w := by
  obtain ⟨cells, hcells, hcell⟩ := Option.bind_eq_some_iff.1 h
  simp [Trace.cell, trace, List.getD_eq_getElem?_getD, hcells, hcell]

theorem length_trace (l : Layout) (w : Witness) : (l.trace w).length = l.rowCount :=
  List.length_map _

theorem shaped_trace {n : Nat} (h : ∀ cells ∈ l.cells, cells.length = n) :
    (l.trace w).Shaped n := by
  intro cells hc
  obtain ⟨row, hrow, rfl⟩ := List.mem_map.1 hc
  rw [List.length_map]
  exact h row hrow

theorem linked_trace (l : Layout) (p : Nat) (w : Witness) : l.Linked p (l.trace w) := by
  intro row register row' register' wire h h'
  rw [cell_trace h, cell_trace h']

/-- What is read off a generated trace is what the trace was made from. -/
theorem read_trace (hne : wire ≠ oneWire) {row register : Nat}
    (h : l.cell? row register = some (.wire wire)) : l.read (l.trace w) wire = w.value wire := by
  obtain ⟨row', register', hplace⟩ := exists_placeOf? h
  rw [read, if_neg hne, hplace]
  exact cell_trace (cell?_of_placeOf? hplace)

end Generated

/-- A trace with linked cells, and the right constants in the others, is determined modulo `p` by
the witness read off it. -/
theorem Linked.reduce_eq_reduce_trace {n m : Nat} (h : l.Linked p t) (hlen : t.length = l.rowCount)
    (hs : t.Shaped n) (hl : ∀ cells ∈ l.cells, cells.length = n)
    (hwires : ∀ {row register wire}, l.cell? row register = some (.wire wire) → wire < m)
    (hconst : ∀ {row register v}, l.cell? row register = some (.const v) →
      (t.cell row register : ZMod p) = v)
    (hone : ∀ {row register}, l.cell? row register = some (.wire oneWire) →
      (t.cell row register : ZMod p) = 1) :
    t.reduce p = (l.trace (l.witnessOf p m t)).reduce p := by
  apply Trace.reduce_eq_reduce (hlen.trans (length_trace l _).symm) hs (shaped_trace hl)
  intro row register hr hg
  have hrow : row < l.cells.length := by rwa [hlen] at hr
  have hreg : register < l.cells[row].length := by rwa [hl _ (List.getElem_mem hrow)]
  have hcell : l.cell? row register = some l.cells[row][register] := by
    rw [cell?, List.getElem?_eq_getElem hrow, Option.bind_some, List.getElem?_eq_getElem hreg]
  rw [cell_trace hcell]
  cases hc : l.cells[row][register] with
  | const v =>
    rw [hc] at hcell
    exact hconst hcell
  | wire wire =>
    rw [hc] at hcell
    rw [Cell.value, cast_witnessOf (hwires hcell)]
    by_cases hw : wire = oneWire
    · subst hw
      rw [read_oneWire, Nat.cast_one, hone hcell]
    · rw [h.read_eq hw hcell]

/-- What is read off a trace is a witness when every constraint vanishes at it. -/
theorem check_witnessOf {k : Circuit} (hk : k.WellFormed)
    (h : ∀ c ∈ k.constraints, (c.value fun w => (l.read t w : ZMod k.prime)) = 0) :
    (l.witnessOf k.prime k.wireCount t).check k = .ok () := by
  rw [Witness.check_eq_ok_iff]
  refine ⟨size_witnessOf _ _ _ _, value_witnessOf_oneWire hk.wireCount_pos hk.one_lt_prime, ?_⟩
  intro c hc
  rw [Witness.residual_eq_zero_iff hk.prime_pos, ← h c hc]
  apply Constraint.value_congr
  intro w hw
  exact cast_witnessOf (hk.wires c hc w hw)

/-- The program of a layout with a trace in place of the generated one. -/
def program (l : Layout) (p : Nat) (w : Witness) (t : Trace) : Program where
  modulus := p
  registerCount := l.registerCount
  transitions := l.transitions
  boundary := l.boundary w
  trace := t

/-- A generated trace meets a boundary constraint that repeats what the layout has in the cell. -/
theorem holds_trace {w : Witness} {row register v : Nat} {c : Cell}
    (hcell : l.cell? row register = some c) (hv : c.value w = v) :
    (l.program p w (l.trace w)).Holds ⟨row, register, v⟩ := by
  obtain ⟨cells, hcells, hc⟩ := Option.bind_eq_some_iff.1 hcell
  simp [Program.Holds, Program.cell?, program, trace, hcells, hc, hv]

end Layout

namespace Trace

theorem value_substitute {p : Nat} (hp : 0 < p) (t : Trace) (row : Nat) {f : Nat → Poly}
    {c : Constraint} (h : ∀ w, c.Mentions w → (f w).Affine) :
    t.value p row (c.substitute p f) = c.value fun w => t.value p row (f w) :=
  Constraint.value_substitute hp _ (Constraint.fits_of_affine h)

end Trace

end CircuitTrace
