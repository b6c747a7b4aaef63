import CircuitTrace.Proofs.PackedConstraints

/-!
Packed layouts bind the wires of their circuit. The boundary pins the selector of each row to one
there, so that the constraints of the circuit, the links and the padding are in force on their
rows; in a generated trace the other selectors are zero, and nothing else is in force.
-/
namespace CircuitTrace

namespace Layout

variable {k : Circuit} {packing : Packing} {l : Layout}

section OfPacking

variable (h : ofPacking k packing = .ok l)
include h

/-- What the layout of a packing consists of. -/
theorem ofPacking_eq_ok : ∃ constraints : List Poly,
    constraints.length = k.constraints.length ∧
      (∀ i (hi : i < k.constraints.length) (hi' : i < constraints.length),
        packing.circuitConstraint k.prime (k.constraints[i], i) = .ok constraints[i]) ∧
      l = {
        strategy := .packed
        registerCount := packing.columns.count
        transitions := constraints ++ packing.auxiliaryConstraints k.prime
        fixedBoundary :=
          (List.range packing.rowCount).map fun row => ⟨row, packing.columns.selector row, 1⟩
        wireBoundary := k.publicWires.toList.filterMap packing.wireCell
        cells := packing.cells } := by
  rw [ofPacking] at h
  obtain ⟨constraints, hmap, hl⟩ := bind_eq_ok_iff.1 h
  obtain ⟨hlen, hall⟩ := mapM_eq_ok hmap
  rw [List.length_zipIdx] at hlen
  refine ⟨constraints, hlen, ?_, (Except.ok.inj hl).symm⟩
  intro i hi hi'
  have hi'' : i < k.constraints.zipIdx.length := by rwa [List.length_zipIdx]
  have hcon := hall i hi'' hi'
  rwa [List.getElem_zipIdx, Nat.zero_add] at hcon

theorem cells_ofPacking : l.cells = packing.cells := by
  obtain ⟨constraints, -, -, rfl⟩ := ofPacking_eq_ok h
  rfl

theorem registerCount_ofPacking : l.registerCount = packing.columns.count := by
  obtain ⟨constraints, -, -, rfl⟩ := ofPacking_eq_ok h
  rfl

theorem rowCount_ofPacking : l.rowCount = packing.rowCount := by
  rw [rowCount, cells_ofPacking h, Packing.length_cells]

theorem length_constraints_ofPacking : k.constraints.length ≤ l.transitions.length := by
  obtain ⟨constraints, hlen, -, rfl⟩ := ofPacking_eq_ok h
  rw [List.length_append]
  omega

theorem circuitConstraint_ofPacking {i : Nat} (hi : i < k.constraints.length) :
    packing.circuitConstraint k.prime (k.constraints[i], i) = .ok (l.transitions.getD i .zero) := by
  obtain ⟨constraints, hlen, hall, rfl⟩ := ofPacking_eq_ok h
  have hi' : i < constraints.length := by omega
  rw [hall i hi hi', List.getD_eq_getElem?_getD, List.getElem?_append_left hi',
    List.getElem?_eq_getElem hi', Option.getD_some]

theorem drop_transitions_ofPacking :
    l.transitions.drop k.constraints.length = packing.auxiliaryConstraints k.prime := by
  obtain ⟨constraints, hlen, -, rfl⟩ := ofPacking_eq_ok h
  rw [← hlen, List.drop_left]

theorem auxiliary_mem_ofPacking {a : Poly} (ha : a ∈ packing.auxiliaryConstraints k.prime) :
    a ∈ l.transitions := by
  rw [← drop_transitions_ofPacking h] at ha
  exact List.mem_of_mem_drop ha

theorem circuit_mem_ofPacking {i : Nat} (hi : i < k.constraints.length) :
    l.transitions.getD i .zero ∈ l.transitions :=
  getD_mem (Nat.lt_of_lt_of_le hi (length_constraints_ofPacking h)) _

theorem mem_transitions_ofPacking {a : Poly} (ha : a ∈ l.transitions) :
    (∃ i, ∃ hi : i < k.constraints.length,
        packing.circuitConstraint k.prime (k.constraints[i], i) = .ok a) ∨
      a ∈ packing.auxiliaryConstraints k.prime := by
  obtain ⟨constraints, hlen, hall, rfl⟩ := ofPacking_eq_ok h
  rcases List.mem_append.1 ha with ha | ha
  · obtain ⟨i, hi, rfl⟩ := List.mem_iff_getElem.1 ha
    exact .inl ⟨i, by omega, hall i (by omega) hi⟩
  · exact .inr ha

theorem mem_boundary_ofPacking {w : Witness} {b : BoundaryConstraint} : b ∈ l.boundary w ↔
    (∃ row < packing.rowCount, b = ⟨row, packing.columns.selector row, 1⟩) ∨
      ∃ wire ∈ k.publicWires.toList, ∃ cell, packing.wireCell wire = some cell ∧
        b = cell.constraint w := by
  obtain ⟨constraints, -, -, rfl⟩ := ofPacking_eq_ok h
  simp only [boundary, List.mem_append, List.mem_map, List.mem_range, List.mem_filterMap]
  constructor
  · rintro (⟨row, hrow, rfl⟩ | ⟨cell, ⟨wire, hwire, hcell⟩, rfl⟩)
    · exact .inl ⟨row, hrow, rfl⟩
    · exact .inr ⟨wire, hwire, cell, hcell, rfl⟩
  · rintro (⟨row, hrow, rfl⟩ | ⟨wire, hwire, cell, hcell, rfl⟩)
    · exact .inl ⟨row, hrow, rfl⟩
    · exact .inr ⟨cell, ⟨wire, hwire, hcell⟩, rfl⟩

/-- The place that a packing has for a wire is the cell that the wire is read off. -/
theorem wireCell_ofPacking (hf : packing.Fits k) {wire : Nat} {cell : WireBoundary}
    (hcell : packing.wireCell wire = some cell) :
    cell.wire = wire ∧ l.placeOf? wire = some (cell.row, cell.register) := by
  have hplace := placeOf?_packed (cells_ofPacking h) hf wire
  rw [hcell, Option.map_some] at hplace
  refine ⟨?_, hplace⟩
  rcases packing.wireCell_cases wire with ⟨i, hi⟩ | ⟨row, j, hglobal, hrow, hj⟩ | ⟨hglobal, hrow⟩
  · rw [Packing.wireCell_global hi] at hcell
    rw [← Option.some.inj hcell]
  · rw [Packing.wireCell_local hglobal hrow hj] at hcell
    rw [← Option.some.inj hcell]
  · rw [Packing.wireCell_none hglobal hrow] at hcell
    cases hcell

end OfPacking

section Accepted

variable {w : Witness} {t : Trace} {row row' wire i j : Nat} (hk : k.WellFormed)
  (hf : packing.Fits k) (h : ofPacking k packing = .ok l) (ha : l.Accepts k.prime w t)

include h ha in
theorem shaped_of_accepts : t.Shaped packing.columns.count := by
  rw [← registerCount_ofPacking h]
  exact ha.shaped

include hf h ha in
/-- The boundary asks for a selector on each row, so that no row may be missing. -/
theorem rowCount_le_of_accepts : packing.rowCount ≤ t.length := by
  have hle := hf.two_le
  have hrow := ha.row_lt ((mem_boundary_ofPacking h).2
    (.inl ⟨packing.rowCount - 1, by omega, rfl⟩))
  omega

include h ha in
theorem selector_of_accepts (hr : row < packing.rowCount) :
    (t.cell row (packing.columns.selector row) : ZMod k.prime) = 1 := by
  have hg : packing.columns.selector row < l.registerCount := by
    rw [registerCount_ofPacking h]
    exact Packing.selector_lt hr
  have hcell := ha.cell_eq ((mem_boundary_ofPacking h).2 (.inl ⟨row, hr, rfl⟩)) hg
  rwa [Nat.cast_one] at hcell

include hk h ha in
theorem global_of_accepts (hi : i < packing.globals.length) (hr : row < t.length) :
    (t.cell row (packing.columns.global i) : ZMod k.prime) =
      t.cell 0 (packing.columns.global i) := by
  induction row with
  | zero => rfl
  | succ row ih =>
    have hmem : packing.globalConstraint k.prime i ∈ packing.auxiliaryConstraints k.prime :=
      Packing.mem_auxiliaryConstraints.2 (.inr (.inl ⟨i, hi, rfl⟩))
    have hzero := ha.value_eq_zero (auxiliary_mem_ofPacking h hmem) hr
    rw [Packing.value_globalConstraint (shaped_of_accepts h ha) hr hk.one_lt_prime hi] at hzero
    rw [sub_eq_zero.1 hzero, ih (by omega)]

include hk hf h ha in
theorem link_of_accepts (hr : row + 1 < packing.rowCount)
    (hi : (packing.rows.getD row [])[i]? = some wire)
    (hj : (packing.rows.getD (row + 1) [])[j]? = some wire) :
    (t.cell row (packing.columns.payload i) : ZMod k.prime) =
      t.cell (row + 1) (packing.columns.payload j) := by
  have hlen := rowCount_le_of_accepts hf h ha
  have hwidth := packing.length_le_width row
  have hwidth' := packing.length_le_width (row + 1)
  have hi' := (List.getElem?_eq_some_iff.1 hi).1
  have hj' := (List.getElem?_eq_some_iff.1 hj).1
  have hlink := (Packing.mem_linkConstraints (p := k.prime)).2
    ⟨wire, i, j, hi, hf.payloadIndex?_eq_some_iff.2 hj, rfl⟩
  have hmem := Packing.mem_auxiliaryConstraints.2 (.inr (.inr (.inl ⟨row, by omega, hlink⟩)))
  have hrow : row + 1 < t.length := by omega
  have hzero := ha.value_eq_zero (auxiliary_mem_ofPacking h hmem) hrow
  rw [Packing.value_link (shaped_of_accepts h ha) (by omega) hk.one_lt_prime (by omega) (by omega)
    (by omega), selector_of_accepts h ha (by omega), one_mul] at hzero
  exact sub_eq_zero.1 hzero

include hk hf h ha in
theorem local_of_accepts (hr : row' < packing.rowCount)
    (hi : (packing.rows.getD row [])[i]? = some wire)
    (hj : (packing.rows.getD row' [])[j]? = some wire) (hle : row ≤ row') :
    (t.cell row (packing.columns.payload i) : ZMod k.prime) =
      t.cell row' (packing.columns.payload j) := by
  rcases hf.adjacent (List.mem_of_getElem? hi) (List.mem_of_getElem? hj) hle with rfl | rfl
  · rw [← hf.payloadIndex?_eq_some_iff] at hi hj
    obtain rfl : i = j := Option.some.inj (hi.symm.trans hj)
    rfl
  · exact link_of_accepts hk hf h ha hr hi hj

include hk hf h ha in
/-- Globals agree on all rows, and local wires on the two rows that they can lie on. -/
theorem linked_ofPacking : l.Linked k.prime t := by
  have hlen := rowCount_le_of_accepts hf h ha
  have hl := cells_ofPacking h
  intro row register row' register' wire hcell hcell'
  have hr := (row_lt_of_cell?_packed hl hcell).1
  have hr' := (row_lt_of_cell?_packed hl hcell').1
  rcases cell?_packed_eq_wire hl hcell with ⟨i, hi, rfl⟩ | ⟨j, hj, rfl⟩
  · rcases cell?_packed_eq_wire hl hcell' with ⟨i', hi', rfl⟩ | ⟨j', hj', rfl⟩
    · have hlt := (List.getElem?_eq_some_iff.1 hi).1
      rw [← hf.globalIndex?_eq_some_iff] at hi hi'
      obtain rfl : i = i' := Option.some.inj (hi.symm.trans hi')
      have hrow := global_of_accepts hk h ha hlt (show row < t.length by omega)
      have hrow' := global_of_accepts hk h ha hlt (show row' < t.length by omega)
      exact hrow.trans hrow'.symm
    · exact absurd (List.mem_of_getElem? hi) (hf.not_global (List.mem_of_getElem? hj'))
  · rcases cell?_packed_eq_wire hl hcell' with ⟨i', hi', rfl⟩ | ⟨j', hj', rfl⟩
    · exact absurd (List.mem_of_getElem? hi') (hf.not_global (List.mem_of_getElem? hj))
    -- The law of links goes down the rows.
    · rcases Nat.le_total row row' with hle | hle
      · exact local_of_accepts hk hf h ha hr' hj hj' hle
      · exact (local_of_accepts hk hf h ha hr hj' hj hle).symm

end Accepted

theorem sound_ofPacking (hk : k.WellFormed) (hf : packing.Fits k)
    (h : ofPacking k packing = .ok l) : l.Sound k where
  vanishes {w t} ha c hc := by
    obtain ⟨i, hi, rfl⟩ := List.mem_iff_getElem.1 hc
    have hlen := rowCount_le_of_accepts hf h ha
    have hpair := hf.pairOf_lt i
    have hr : packing.pairOf i + 1 < t.length := by omega
    have hzero := ha.value_eq_zero (circuit_mem_ofPacking h hi) hr
    rw [hf.value_circuitConstraint (shaped_of_accepts h ha) hr hk.prime_pos (cells_ofPacking h)
      (linked_ofPacking hk hf h ha) rfl (circuitConstraint_ofPacking h hi),
      selector_of_accepts h ha (by omega), one_mul] at hzero
    exact hzero
  repeats {w t} ha wire hwire := by
    obtain ⟨cell, hcell⟩ := hf.exists_wireCell (hf.publicPlaced wire hwire)
    obtain ⟨hwireOf, hplace⟩ := wireCell_ofPacking h hf hcell
    have hne : wire ≠ oneWire := Nat.ne_of_gt (hk.publicWire_lt hwire).1
    have hmem : cell.constraint w ∈ l.boundary w :=
      (mem_boundary_ofPacking h).2 (.inr ⟨wire, hwire, cell, hcell, rfl⟩)
    have hat := cell?_of_placeOf? hplace
    have hreg := (row_lt_of_cell?_packed (cells_ofPacking h) hat).2
    rw [← registerCount_ofPacking h] at hreg
    rw [read, if_neg hne, hplace, ← hwireOf]
    exact ha.cell_eq hmem hreg

section Generated

variable {w : Witness} {row i : Nat} {a : Poly} (hk : k.WellFormed) (hf : packing.Fits k)
  (h : ofPacking k packing = .ok l)

include h

theorem shaped_ofPacking : ∀ cells ∈ l.cells, cells.length = l.registerCount := by
  rw [cells_ofPacking h, registerCount_ofPacking h]
  exact packing.length_of_mem_cells

theorem shaped_trace_ofPacking : (l.trace w).Shaped packing.columns.count := by
  rw [← registerCount_ofPacking h]
  exact shaped_trace (shaped_ofPacking h)

theorem length_trace_ofPacking : (l.trace w).length = packing.rowCount := by
  rw [length_trace, rowCount_ofPacking h]

theorem selector_trace (hr : row < packing.rowCount) (hi : i < packing.rowCount) :
    (l.trace w).cell row (packing.columns.selector i) = if i = row then 1 else 0 := by
  have hcell : l.cell? row (packing.columns.selector i) =
      some (.const (if i = row then 1 else 0)) := by
    rw [cell?_packed (cells_ofPacking h) hr, Packing.rowCells_selector hi]
  rw [cell_trace hcell, Cell.value]

include hk in
theorem selectorConstraints_trace (hr : row + 1 < packing.rowCount) (hi : i < packing.rowCount)
    (ha : a ∈ packing.selectorConstraints k.prime i) : (l.trace w).value k.prime row a = 0 := by
  have hlen : row + 1 < (l.trace w).length := by rwa [length_trace_ofPacking h]
  have hvalues := List.mem_map_of_mem (f := (l.trace w).value k.prime row) ha
  rw [Packing.value_selectorConstraints (shaped_trace_ofPacking h) hlen hk.one_lt_prime hi,
    selector_trace h (by omega) hi, selector_trace h hr hi] at hvalues
  simp only [List.mem_cons, List.not_mem_nil, or_false] at hvalues
  -- Each product has a factor that is zero, as the selector is set on row `i` alone.
  rcases hvalues with hv | hv | hv | hv
  · rw [hv]
    split <;> simp
  · rw [hv]
    split
    · rename_i heq
      rw [heq, sub_self, zero_mul]
    · simp
  · rw [hv]
    split
    · rename_i heq
      rw [heq, Nat.cast_add, Nat.cast_one, sub_self, zero_mul]
    · simp
  · rw [hv]
    split <;> simp

include hk in
theorem globalConstraint_trace (hr : row + 1 < packing.rowCount) (hi : i < packing.globals.length) :
    (l.trace w).value k.prime row (packing.globalConstraint k.prime i) = 0 := by
  have hlen : row + 1 < (l.trace w).length := by rwa [length_trace_ofPacking h]
  have hl := cells_ofPacking h
  have hwire := List.getElem?_eq_getElem hi
  rw [Packing.value_globalConstraint (shaped_trace_ofPacking h) hlen hk.one_lt_prime hi,
    cell_trace (cell?_packed_global hl hr hwire),
    cell_trace (cell?_packed_global hl (show row < packing.rowCount by omega) hwire), sub_self]

include hk hf in
theorem linkConstraints_trace {r : Nat} (hr : row + 1 < packing.rowCount)
    (hlink : r < packing.rowCount - 1) (ha : a ∈ packing.linkConstraints k.prime r) :
    (l.trace w).value k.prime row a = 0 := by
  have hlen : row + 1 < (l.trace w).length := by rwa [length_trace_ofPacking h]
  have hl := cells_ofPacking h
  obtain ⟨wire, i, j, hi, hj, rfl⟩ := Packing.mem_linkConstraints.1 ha
  rw [hf.payloadIndex?_eq_some_iff] at hj
  have hwidth := packing.length_le_width r
  have hwidth' := packing.length_le_width (r + 1)
  have hi' := (List.getElem?_eq_some_iff.1 hi).1
  have hj' := (List.getElem?_eq_some_iff.1 hj).1
  rw [Packing.value_link (shaped_trace_ofPacking h) hlen hk.one_lt_prime (by omega) (by omega)
    (by omega), selector_trace h (by omega) (by omega)]
  split
  · rename_i heq
    subst heq
    rw [cell_trace (cell?_packed_local hl (show r < packing.rowCount by omega) hi),
      cell_trace (cell?_packed_local hl hr hj), sub_self, mul_zero]
  · rw [Nat.cast_zero, zero_mul]

theorem paddingConstraints_trace {r : Nat} (hr : row + 1 < packing.rowCount)
    (hpad : r < packing.rowCount) (ha : a ∈ packing.paddingConstraints k.prime r) :
    (l.trace w).value k.prime row a = 0 := by
  have hlen : row + 1 < (l.trace w).length := by rwa [length_trace_ofPacking h]
  have hs := shaped_trace_ofPacking h (w := w)
  obtain ⟨j, hj, hused, rfl⟩ := Packing.mem_paddingConstraints.1 ha
  have padding : (l.trace w).cell r (packing.columns.payload j) = 0 := by
    have hcell : l.cell? r (packing.columns.payload j) = some (.const 0) := by
      rw [cell?_packed (cells_ofPacking h) hpad, Packing.rowCells_padding hused hj]
    rw [cell_trace hcell, Cell.value]
  split
  · rw [Packing.value_padding hs hlen hpad hj, selector_trace h (by omega) hpad]
    split
    · rename_i heq
      rw [← heq, padding, Nat.cast_zero, mul_zero]
    · rw [Nat.cast_zero, zero_mul]
  · rw [Packing.value_nextPadding hs hlen hpad hj, selector_trace h hr hpad]
    split
    · rename_i heq
      rw [← heq, padding, Nat.cast_zero, mul_zero]
    · rw [Nat.cast_zero, zero_mul]

include hk hf in
theorem auxiliaryConstraints_trace (hr : row + 1 < packing.rowCount)
    (ha : a ∈ packing.auxiliaryConstraints k.prime) : (l.trace w).value k.prime row a = 0 := by
  rcases Packing.mem_auxiliaryConstraints.1 ha with ⟨i, hi, ha⟩ | ⟨i, hi, rfl⟩ | ⟨r, hlink, ha⟩ |
    ⟨r, hpad, ha⟩
  · exact selectorConstraints_trace hk h hr hi ha
  · exact globalConstraint_trace hk h hr hi
  · exact linkConstraints_trace hk hf h hr hlink ha
  · exact paddingConstraints_trace h hr hpad ha

end Generated

theorem complete_ofPacking (hk : k.WellFormed) (hf : packing.Fits k)
    (h : ofPacking k packing = .ok l) : l.Complete k packing.pairOf where
  two_le := by
    rw [rowCount_ofPacking h]
    exact hf.two_le
  shaped := shaped_ofPacking h
  inPair a ha := by
    rw [registerCount_ofPacking h]
    rcases mem_transitions_ofPacking h ha with ⟨i, hi, ha⟩ | ha
    · exact hf.inPair_circuitConstraint ha
    · exact Packing.inPair_auxiliaryConstraints ha
  covered := length_constraints_ofPacking h
  rowOf_lt i _ := by
    rw [rowCount_ofPacking h]
    exact hf.pairOf_lt i
  binds {w i} hone hi := by
    have hpair := hf.pairOf_lt i
    have hlen : packing.pairOf i + 1 < (l.trace w).length := by rwa [length_trace_ofPacking h]
    have hcon := circuitConstraint_ofPacking h hi
    obtain ⟨hwires, -⟩ := Packing.circuitConstraint_eq_ok hcon
    rw [hf.value_circuitConstraint (shaped_trace_ofPacking h) hlen hk.prime_pos (cells_ofPacking h)
      (linked_trace l k.prime w) rfl hcon, selector_trace h (by omega) (by omega), if_pos rfl,
      Nat.cast_one, one_mul]
    apply Constraint.value_congr
    intro x hx
    obtain ⟨q, hq⟩ := hwires x hx
    by_cases hne : x = oneWire
    · subst hne
      rw [read_oneWire, hone]
    · obtain ⟨row', register, hcell⟩ :=
        hf.exists_cell_of_wirePoly (cells_ofPacking h) hpair hq hne
      rw [read_trace hne hcell]
  free {w i row} hi hr hne := by
    rw [rowCount_ofPacking h] at hr
    have hpair := hf.pairOf_lt i
    have hlen : row + 1 < (l.trace w).length := by rwa [length_trace_ofPacking h]
    apply hf.value_circuitConstraint_of_zero (shaped_trace_ofPacking h) hlen _
      (circuitConstraint_ofPacking h hi)
    rw [selector_trace h (by omega) (by omega), if_neg hne.symm, Nat.cast_zero]
  auxiliary {w row} hr a ha := by
    rw [rowCount_ofPacking h] at hr
    rw [drop_transitions_ofPacking h] at ha
    exact auxiliaryConstraints_trace hk hf h hr ha
  bounded {w} hone b hb := by
    rcases (mem_boundary_ofPacking h).1 hb with ⟨row, hrow, rfl⟩ | ⟨wire, hwire, cell, hcell, rfl⟩
    · have hselector : l.cell? row (packing.columns.selector row) = some (.const 1) := by
        rw [cell?_packed (cells_ofPacking h) hrow, Packing.rowCells_selector hrow, if_pos rfl]
      exact holds_trace hselector rfl
    · obtain ⟨hwireOf, hplace⟩ := wireCell_ofPacking h hf hcell
      rw [← hwireOf] at hplace
      exact holds_trace (cell?_of_placeOf? hplace) rfl

section Rigid

variable {w : Witness} {t : Trace} {row i j : Nat} (hk : k.WellFormed) (hf : packing.Fits k)
  (h : ofPacking k packing = .ok l) (ha : l.Accepts k.prime w t)

include hk h ha in
theorem selectorConstraints_of_accepts (hr : row + 1 < t.length) (hi : i < packing.rowCount) :
    ((row : ZMod k.prime) - i) * t.cell row (packing.columns.selector i) = 0 ∧
      ((row : ZMod k.prime) + 1 - i) * t.cell (row + 1) (packing.columns.selector i) = 0 := by
  have hvalues := Packing.value_selectorConstraints (shaped_of_accepts h ha) hr hk.one_lt_prime hi
  have hall : ∀ v ∈ (packing.selectorConstraints k.prime i).map (t.value k.prime row), v = 0 := by
    intro v hv
    obtain ⟨a, hmem, rfl⟩ := List.mem_map.1 hv
    exact ha.value_eq_zero (auxiliary_mem_ofPacking h
      (Packing.mem_auxiliaryConstraints.2 (.inl ⟨i, hi, hmem⟩))) hr
  rw [hvalues] at hall
  exact ⟨hall _ (by simp), hall _ (by simp)⟩

include hk hf h ha in
/-- A selector is zero off its row, where the modulus tells the rows apart. -/
theorem selector_off_of_accepts (hprime : k.prime.Prime) (hle : packing.rowCount ≤ k.prime)
    (hr : row < packing.rowCount) (hi : i < packing.rowCount) (hne : row ≠ i) :
    (t.cell row (packing.columns.selector i) : ZMod k.prime) = 0 := by
  have hfield : Fact k.prime.Prime := ⟨hprime⟩
  have hlen := rowCount_le_of_accepts hf h ha
  have hindex : (row : ZMod k.prime) - i ≠ 0 :=
    sub_ne_zero.2 fun h => hne (Residue.eq_of_cast_eq (hr.trans_le hle) (hi.trans_le hle) h)
  -- The row is the first of a pair, or it is the last and the second of one.
  by_cases hlast : row + 1 < packing.rowCount
  · have hrow : row + 1 < t.length := by omega
    have hzero := (selectorConstraints_of_accepts hk h ha hrow hi).1
    exact (mul_eq_zero.1 hzero).resolve_left hindex
  · obtain ⟨r, rfl⟩ : ∃ r, row = r + 1 := ⟨row - 1, by have := hf.two_le; omega⟩
    have hrow : r + 1 < t.length := by omega
    have hzero := (selectorConstraints_of_accepts hk h ha hrow hi).2
    rw [Nat.cast_add, Nat.cast_one] at hindex
    exact (mul_eq_zero.1 hzero).resolve_left hindex

include hf h ha in
theorem padding_of_accepts (hr : row < packing.rowCount) (hj : j < packing.width)
    (hused : (packing.rows.getD row []).length ≤ j) :
    (t.cell row (packing.columns.payload j) : ZMod k.prime) = 0 := by
  have hlen := rowCount_le_of_accepts hf h ha
  have hs := shaped_of_accepts h ha
  have hpad := (Packing.mem_paddingConstraints (p := k.prime)).2 ⟨j, hj, hused, rfl⟩
  have hmem := auxiliary_mem_ofPacking h
    (Packing.mem_auxiliaryConstraints.2 (.inr (.inr (.inr ⟨row, hr, hpad⟩))))
  by_cases hlast : row + 1 < packing.rowCount
  · have hrow : row + 1 < t.length := by omega
    have hzero := ha.value_eq_zero hmem hrow
    rwa [if_pos hlast, Packing.value_padding hs hrow hr hj, selector_of_accepts h ha hr,
      one_mul] at hzero
  · obtain ⟨r, rfl⟩ : ∃ r, row = r + 1 := ⟨row - 1, by have := hf.two_le; omega⟩
    have hrow : r + 1 < t.length := by omega
    have hzero := ha.value_eq_zero hmem hrow
    rwa [if_neg hlast, Packing.value_nextPadding hs hrow hr hj, selector_of_accepts h ha hr,
      one_mul] at hzero

end Rigid

theorem rigid_ofPacking (hk : k.WellFormed) (hf : packing.Fits k)
    (h : ofPacking k packing = .ok l) : l.Rigid k where
  shaped := shaped_ofPacking h
  inRange hcell := (inRange_packed (cells_ofPacking h) hf hcell).2
  linked ha := linked_ofPacking hk hf h ha
  one _ hcell := absurd rfl (ne_oneWire_packed (cells_ofPacking h) hf hcell)
  const {w t row register v} hprime hle ha hcell := by
    rw [rowCount_ofPacking h] at hle
    have hr := (row_lt_of_cell?_packed (cells_ofPacking h) hcell).1
    rcases cell?_packed_cases (cells_ofPacking h) hcell with
      ⟨i, hi, hreg, hv⟩ | ⟨_, _, _, _, heq⟩ | ⟨_, _, _, _, heq⟩ | ⟨j, hj, hused, rfl, hv⟩
    · rw [hreg, Cell.const.inj hv]
      split
      · rename_i heq
        rw [heq, selector_of_accepts h ha hr, Nat.cast_one]
      · rename_i hne
        rw [selector_off_of_accepts hk hf h ha hprime hle hr hi (Ne.symm hne), Nat.cast_zero]
    · cases heq
    · cases heq
    · rw [Cell.const.inj hv, padding_of_accepts hf h ha hr hj hused, Nat.cast_zero]

end Layout

end CircuitTrace
