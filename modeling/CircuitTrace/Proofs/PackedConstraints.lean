import CircuitTrace.Proofs.PackedCells

namespace CircuitTrace

namespace Packing

open LinearCombination (total total_ok)

variable {k : Circuit} {packing : Packing} {p row i j wire constraint : Nat} {a q : Poly}
  {c : Constraint} {t : Trace}

theorem mem_auxiliaryConstraints : a ∈ packing.auxiliaryConstraints p ↔
    (∃ i < packing.rowCount, a ∈ packing.selectorConstraints p i) ∨
      (∃ i < packing.globals.length, a = packing.globalConstraint p i) ∨
      (∃ row < packing.rowCount - 1, a ∈ packing.linkConstraints p row) ∨
      ∃ row < packing.rowCount, a ∈ packing.paddingConstraints p row := by
  simp only [auxiliaryConstraints, List.mem_append, List.mem_flatMap, List.mem_range, List.mem_map,
    or_assoc]
  apply or_congr_right
  apply or_congr_left
  constructor
  · rintro ⟨i, hi, rfl⟩
    exact ⟨i, hi, rfl⟩
  · rintro ⟨i, hi, rfl⟩
    exact ⟨i, hi, rfl⟩

theorem mem_linkConstraints : a ∈ packing.linkConstraints p row ↔
    ∃ wire i j, (packing.rows.getD row [])[i]? = some wire ∧
      packing.payloadIndex? (row + 1) wire = some j ∧
      a = Poly.mul p (packing.selector row)
        (Poly.sub p (packing.payload i) (packing.nextPayload j)) := by
  rw [linkConstraints, List.mem_filterMap]
  constructor
  · rintro ⟨⟨wire, i⟩, hmem, hlink⟩
    obtain ⟨j, hj, rfl⟩ := Option.map_eq_some_iff.1 hlink
    exact ⟨wire, i, j, List.mem_zipIdx_iff_getElem?.1 hmem, hj, rfl⟩
  · rintro ⟨wire, i, j, hi, hj, rfl⟩
    exact ⟨(wire, i), List.mem_zipIdx_iff_getElem?.2 hi, Option.map_eq_some_iff.2 ⟨j, hj, rfl⟩⟩

theorem mem_paddingConstraints : a ∈ packing.paddingConstraints p row ↔
    ∃ j < packing.width, (packing.rows.getD row []).length ≤ j ∧
      a = if row + 1 < packing.rowCount then Poly.mul p (packing.selector row) (packing.payload j)
        else Poly.mul p (packing.nextSelector row) (packing.nextPayload j) := by
  have hle := packing.length_le_width row
  simp only [paddingConstraints, List.mem_map, List.mem_range'_1]
  constructor
  · rintro ⟨j, hj, rfl⟩
    exact ⟨j, by omega, hj.1, rfl⟩
  · rintro ⟨j, hj, hused, rfl⟩
    exact ⟨j, by omega, rfl⟩

/-- A wire stands for one, or for a register on the row or the next. -/
theorem wirePoly_shape (h : packing.wirePoly constraint row wire = .ok q) :
    q = .one ∨ (∃ i, q = packing.registers.currentPoly i) ∨
      ∃ i, q = packing.registers.nextPoly i := by
  rw [wirePoly] at h
  split at h
  · exact .inl (Except.ok.inj h).symm
  · split at h
    · exact .inr (.inl ⟨_, (Except.ok.inj h).symm⟩)
    · split at h
      · exact .inr (.inl ⟨_, (Except.ok.inj h).symm⟩)
      · exact .inr (.inr ⟨_, (Except.ok.inj h).symm⟩)
      · cases h

theorem affine_wirePoly (h : packing.wirePoly constraint row wire = .ok q) : q.Affine := by
  rcases wirePoly_shape h with rfl | ⟨register, rfl⟩ | ⟨register, rfl⟩
  · exact Poly.affine_one
  · exact Poly.affine_var _
  · exact Poly.affine_var _

/-- The register is one of a cell that holds the wire. -/
theorem Fits.wirePoly_eq_ok (hf : packing.Fits k)
    (h : packing.wirePoly constraint row wire = .ok q) :
    (wire = oneWire ∧ q = .one) ∨
      (∃ i, packing.globals[i]? = some wire ∧
        q = packing.registers.currentPoly (packing.columns.global i)) ∨
      (∃ j, (packing.rows.getD row [])[j]? = some wire ∧ q = packing.payload j) ∨
      ∃ j, (packing.rows.getD (row + 1) [])[j]? = some wire ∧ q = packing.nextPayload j := by
  rw [wirePoly] at h
  split at h
  · rename_i hone
    exact .inl ⟨hone, (Except.ok.inj h).symm⟩
  · split at h
    · rename_i i hi
      exact .inr (.inl ⟨i, hf.globalIndex?_eq_some_iff.1 hi, (Except.ok.inj h).symm⟩)
    · split at h
      · rename_i j hj
        exact .inr (.inr (.inl ⟨j, hf.payloadIndex?_eq_some_iff.1 hj, (Except.ok.inj h).symm⟩))
      · rename_i j _ hj
        exact .inr (.inr (.inr ⟨j, hf.payloadIndex?_eq_some_iff.1 hj, (Except.ok.inj h).symm⟩))
      · cases h

/-- A wire that stands for a polynomial has a cell. -/
theorem Fits.exists_cell_of_wirePoly (hf : packing.Fits k) {l : Layout}
    (hl : l.cells = packing.cells) (hrow : row + 1 < packing.rowCount)
    (h : packing.wirePoly constraint row wire = .ok q) (hne : wire ≠ oneWire) :
    ∃ row' register, l.cell? row' register = some (.wire wire) := by
  rcases hf.wirePoly_eq_ok h with ⟨hone, -⟩ | ⟨i, hi, -⟩ | ⟨j, hj, -⟩ | ⟨j, hj, -⟩
  · exact absurd hone hne
  · exact ⟨row, _, Layout.cell?_packed_global hl (by omega) hi⟩
  · exact ⟨row, _, Layout.cell?_packed_local hl (by omega) hj⟩
  · exact ⟨row + 1, _, Layout.cell?_packed_local hl hrow hj⟩

theorem circuitConstraint_eq_ok (h : packing.circuitConstraint p (c, i) = .ok a) :
    (∀ x, c.Mentions x → ∃ q, packing.wirePoly i (packing.pairOf i) x = .ok q) ∧
      a = Poly.mul p (packing.selector (packing.pairOf i))
        (c.substitute p (total (packing.wirePoly i (packing.pairOf i)))) := by
  obtain ⟨b, hb, rfl⟩ := map_eq_ok_iff.1 h
  obtain ⟨hwires, rfl⟩ := Constraint.trySubstitute_ok hb
  exact ⟨hwires, rfl⟩

theorem affine_total (h : ∀ x, c.Mentions x → ∃ q, packing.wirePoly i row x = .ok q) :
    ∀ x, c.Mentions x → (total (packing.wirePoly i row) x).Affine := by
  intro x hx
  obtain ⟨q, hq⟩ := h x hx
  rw [total_ok hq]
  exact affine_wirePoly hq

theorem Fits.pairOf_lt (hf : packing.Fits k) (i : Nat) :
    packing.pairOf i + 1 < packing.rowCount := by
  have := hf.two_le
  rw [pairOf]
  omega

section Value

variable (hs : t.Shaped packing.columns.count) (hr : row + 1 < t.length)
include hs hr

theorem value_selector (hi : i < packing.rowCount) :
    t.value p row (packing.selector i) = (t.cell row (packing.columns.selector i) : ZMod p) :=
  Trace.value_currentPoly hs (by omega) (selector_lt hi)

theorem value_nextSelector (hi : i < packing.rowCount) :
    t.value p row (packing.nextSelector i) =
      (t.cell (row + 1) (packing.columns.selector i) : ZMod p) :=
  Trace.value_nextPoly hs hr (selector_lt hi)

theorem value_payload (hj : j < packing.width) :
    t.value p row (packing.payload j) = (t.cell row (packing.columns.payload j) : ZMod p) :=
  Trace.value_currentPoly hs (by omega) (payload_lt hj)

theorem value_nextPayload (hj : j < packing.width) :
    t.value p row (packing.nextPayload j) =
      (t.cell (row + 1) (packing.columns.payload j) : ZMod p) :=
  Trace.value_nextPoly hs hr (payload_lt hj)

theorem value_selectorConstraints (hp : 1 < p) (hi : i < packing.rowCount) :
    (packing.selectorConstraints p i).map (t.value p row) =
      let here : ZMod p := t.cell row (packing.columns.selector i)
      let next : ZMod p := t.cell (row + 1) (packing.columns.selector i)
      [here * here - here, ((row : ZMod p) - i) * here, ((row : ZMod p) + 1 - i) * next,
        next * next - next] := by
  have hindex : (Poly.const (Residue.reduce p i)).Reduced p :=
    Poly.reduced_const (Nat.mod_lt _ (by omega))
  have hhere : (packing.selector i).Reduced p := Poly.reduced_var hp _
  have hnext : (packing.nextSelector i).Reduced p := Poly.reduced_var hp _
  have here : (packing.selector i).Affine := Poly.affine_var _
  have next : (packing.nextSelector i).Affine := Poly.affine_var _
  have cycle : Registers.cyclePoly.Affine := Poly.affine_var _
  have index := Poly.affine_const (Residue.reduce p i)
  simp only [selectorConstraints, List.map_cons, List.map_nil, Trace.value_sub p t row _ hhere,
    Trace.value_sub p t row _ hnext, Trace.value_sub p t row _ hindex,
    Trace.value_mul p t row (here.fits here), Trace.value_mul p t row ((cycle.sub index).fits here),
    Trace.value_mul p t row (((cycle.add Poly.affine_one).sub index).fits next),
    Trace.value_mul p t row (next.fits next), Trace.value_add, Trace.value_one, Trace.value_const,
    Trace.value_cyclePoly, value_selector hs hr hi, value_nextSelector hs hr hi,
    Residue.cast_reduce]

theorem value_globalConstraint (hp : 1 < p) (hi : i < packing.globals.length) :
    t.value p row (packing.globalConstraint p i) =
      (t.cell (row + 1) (packing.columns.global i) : ZMod p) -
        t.cell row (packing.columns.global i) := by
  have hcurrent : (packing.registers.currentPoly (packing.columns.global i)).Reduced p :=
    Poly.reduced_var hp _
  have hlt := global_lt hi
  rw [globalConstraint, Trace.value_sub p t row _ hcurrent]
  exact congrArg₂ _ (Trace.value_nextPoly hs hr hlt) (Trace.value_currentPoly hs (by omega) hlt)

theorem value_link (hp : 1 < p) {r : Nat} (hrow : r < packing.rowCount) (hi : i < packing.width)
    (hj : j < packing.width) :
    t.value p row (Poly.mul p (packing.selector r)
        (Poly.sub p (packing.payload i) (packing.nextPayload j))) =
      (t.cell row (packing.columns.selector r) : ZMod p) *
        ((t.cell row (packing.columns.payload i) : ZMod p) -
          t.cell (row + 1) (packing.columns.payload j)) := by
  have hnext : (packing.nextPayload j).Reduced p := Poly.reduced_var hp _
  have selector : (packing.selector r).Affine := Poly.affine_var _
  have payload : (packing.payload i).Affine := Poly.affine_var _
  have nextPayload : (packing.nextPayload j).Affine := Poly.affine_var _
  rw [Trace.value_mul p t row (selector.fits (payload.sub nextPayload)),
    Trace.value_sub p t row _ hnext, value_selector hs hr hrow,
    value_payload hs hr hi, value_nextPayload hs hr hj]

theorem value_padding {r : Nat} (hrow : r < packing.rowCount) (hj : j < packing.width) :
    t.value p row (Poly.mul p (packing.selector r) (packing.payload j)) =
      (t.cell row (packing.columns.selector r) : ZMod p) *
        t.cell row (packing.columns.payload j) := by
  have selector : (packing.selector r).Affine := Poly.affine_var _
  have payload : (packing.payload j).Affine := Poly.affine_var _
  rw [Trace.value_mul p t row (selector.fits payload), value_selector hs hr hrow,
    value_payload hs hr hj]

theorem value_nextPadding {r : Nat} (hrow : r < packing.rowCount) (hj : j < packing.width) :
    t.value p row (Poly.mul p (packing.nextSelector r) (packing.nextPayload j)) =
      (t.cell (row + 1) (packing.columns.selector r) : ZMod p) *
        t.cell (row + 1) (packing.columns.payload j) := by
  have selector : (packing.nextSelector r).Affine := Poly.affine_var _
  have payload : (packing.nextPayload j).Affine := Poly.affine_var _
  rw [Trace.value_mul p t row (selector.fits payload), value_nextSelector hs hr hrow,
    value_nextPayload hs hr hj]

/-- Where the cells of each wire agree, a wire stands for what is read off the trace. -/
theorem Fits.value_wirePoly (hf : packing.Fits k) {l : Layout} (hl : l.cells = packing.cells)
    (hlinked : l.Linked p t) (hrow : row + 1 < packing.rowCount)
    (h : packing.wirePoly constraint row wire = .ok q) :
    t.value p row q = (l.read t wire : ZMod p) := by
  rcases hf.wirePoly_eq_ok h with ⟨rfl, rfl⟩ | ⟨i, hi, rfl⟩ | ⟨j, hj, rfl⟩ | ⟨j, hj, rfl⟩
  · rw [Trace.value_one, Layout.read_oneWire, Nat.cast_one]
  · have hcell := Layout.cell?_packed_global hl (show row < packing.rowCount by omega) hi
    rw [hlinked.read_eq (Layout.ne_oneWire_packed hl hf hcell) hcell]
    exact Trace.value_currentPoly hs (by omega) (global_lt (List.getElem?_eq_some_iff.1 hi).1)
  · have hcell := Layout.cell?_packed_local hl (show row < packing.rowCount by omega) hj
    have hwidth := packing.length_le_width row
    have hlt := (List.getElem?_eq_some_iff.1 hj).1
    rw [hlinked.read_eq (Layout.ne_oneWire_packed hl hf hcell) hcell,
      value_payload hs hr (by omega)]
  · have hcell := Layout.cell?_packed_local hl hrow hj
    have hwidth := packing.length_le_width (row + 1)
    have hlt := (List.getElem?_eq_some_iff.1 hj).1
    rw [hlinked.read_eq (Layout.ne_oneWire_packed hl hf hcell) hcell,
      value_nextPayload hs hr (by omega)]

/-- A constraint of the circuit vanishes where its selector does. -/
theorem Fits.value_circuitConstraint_of_zero (hf : packing.Fits k)
    (hzero : (t.cell row (packing.columns.selector (packing.pairOf i)) : ZMod p) = 0)
    (h : packing.circuitConstraint p (c, i) = .ok a) : t.value p row a = 0 := by
  obtain ⟨hwires, rfl⟩ := circuitConstraint_eq_ok h
  have hsel : packing.pairOf i < packing.rowCount := Nat.lt_of_succ_lt (hf.pairOf_lt i)
  have selector : (packing.selector (packing.pairOf i)).Affine := Poly.affine_var _
  rw [Trace.value_mul p t row (Constraint.fits_substitute selector (affine_total hwires)),
    value_selector hs hr hsel, hzero, zero_mul]

/-- On its pair of rows it is its selector times the constraint at what is read off the trace. -/
theorem Fits.value_circuitConstraint (hf : packing.Fits k) (hp : 0 < p) {l : Layout}
    (hl : l.cells = packing.cells) (hlinked : l.Linked p t) (hrow : row = packing.pairOf i)
    (h : packing.circuitConstraint p (c, i) = .ok a) :
    t.value p row a = (t.cell row (packing.columns.selector row) : ZMod p) *
      c.value fun x => (l.read t x : ZMod p) := by
  subst hrow
  obtain ⟨hwires, rfl⟩ := circuitConstraint_eq_ok h
  have hpair := hf.pairOf_lt i
  have selector : (packing.selector (packing.pairOf i)).Affine := Poly.affine_var _
  have wires := affine_total hwires
  rw [Trace.value_mul p t _ (Constraint.fits_substitute selector wires),
    value_selector hs hr (by omega), Trace.value_substitute hp t _ wires]
  congr 1
  apply Constraint.value_congr
  intro x hx
  obtain ⟨q, hq⟩ := hwires x hx
  rw [total_ok hq]
  exact hf.value_wirePoly hs hr hl hlinked hpair hq

end Value

theorem Fits.inPair_wirePoly (hf : packing.Fits k)
    (h : packing.wirePoly constraint row wire = .ok q) : q.InPair packing.columns.count := by
  rcases hf.wirePoly_eq_ok h with ⟨rfl, rfl⟩ | ⟨i, hi, rfl⟩ | ⟨j, hj, rfl⟩ | ⟨j, hj, rfl⟩
  · exact Poly.inPair_one
  · exact Poly.inPair_currentPoly (global_lt (List.getElem?_eq_some_iff.1 hi).1)
  · have hwidth := packing.length_le_width row
    have hlt := (List.getElem?_eq_some_iff.1 hj).1
    exact Poly.inPair_currentPoly (payload_lt (by omega))
  · have hwidth := packing.length_le_width (row + 1)
    have hlt := (List.getElem?_eq_some_iff.1 hj).1
    exact Poly.inPair_nextPoly (payload_lt (by omega))

theorem inPair_selector (hi : i < packing.rowCount) :
    (packing.selector i).InPair packing.columns.count :=
  Poly.inPair_currentPoly (selector_lt hi)

theorem inPair_nextSelector (hi : i < packing.rowCount) :
    (packing.nextSelector i).InPair packing.columns.count :=
  Poly.inPair_nextPoly (selector_lt hi)

theorem inPair_payload (hj : j < packing.width) :
    (packing.payload j).InPair packing.columns.count :=
  Poly.inPair_currentPoly (payload_lt hj)

theorem inPair_nextPayload (hj : j < packing.width) :
    (packing.nextPayload j).InPair packing.columns.count :=
  Poly.inPair_nextPoly (payload_lt hj)

theorem Fits.inPair_circuitConstraint (hf : packing.Fits k)
    (h : packing.circuitConstraint p (c, i) = .ok a) : a.InPair packing.columns.count := by
  obtain ⟨hwires, rfl⟩ := circuitConstraint_eq_ok h
  apply Poly.inPair_mul (inPair_selector (Nat.lt_of_succ_lt (hf.pairOf_lt i)))
  apply Poly.inPair_substitute
  intro x hx
  obtain ⟨q, hq⟩ := hwires x hx
  rw [total_ok hq]
  exact hf.inPair_wirePoly hq

theorem inPair_selectorConstraints (hi : i < packing.rowCount)
    (ha : a ∈ packing.selectorConstraints p i) : a.InPair packing.columns.count := by
  have hhere := inPair_selector hi
  have hnext := inPair_nextSelector hi
  have hindex := Poly.inPair_const (n := packing.columns.count) (Residue.reduce p i)
  simp only [selectorConstraints, List.mem_cons, List.not_mem_nil, or_false] at ha
  rcases ha with rfl | rfl | rfl | rfl
  · exact Poly.inPair_sub (Poly.inPair_mul hhere hhere) hhere
  · exact Poly.inPair_mul (Poly.inPair_sub Poly.inPair_cyclePoly hindex) hhere
  · exact Poly.inPair_mul
      (Poly.inPair_sub (Poly.inPair_add Poly.inPair_cyclePoly Poly.inPair_one) hindex) hnext
  · exact Poly.inPair_sub (Poly.inPair_mul hnext hnext) hnext

theorem inPair_auxiliaryConstraints (ha : a ∈ packing.auxiliaryConstraints p) :
    a.InPair packing.columns.count := by
  rcases mem_auxiliaryConstraints.1 ha with ⟨i, hi, ha⟩ | ⟨i, hi, rfl⟩ | ⟨row, hrow, ha⟩ |
    ⟨row, hrow, ha⟩
  · exact inPair_selectorConstraints hi ha
  · have hlt := global_lt hi
    exact Poly.inPair_sub (Poly.inPair_nextPoly hlt) (Poly.inPair_currentPoly hlt)
  · obtain ⟨wire, i, j, hi, hj, rfl⟩ := mem_linkConstraints.1 ha
    have hwidth := packing.length_le_width row
    have hwidth' := packing.length_le_width (row + 1)
    have hlt := (List.getElem?_eq_some_iff.1 hi).1
    have hlt' := (List.getElem?_eq_some_iff.1 (Bisection.getElem?_of_find? hj)).1
    exact Poly.inPair_mul (inPair_selector (by omega))
      (Poly.inPair_sub (inPair_payload (by omega)) (inPair_nextPayload (by omega)))
  · obtain ⟨j, hj, -, rfl⟩ := mem_paddingConstraints.1 ha
    split
    · exact Poly.inPair_mul (inPair_selector hrow) (inPair_payload hj)
    · exact Poly.inPair_mul (inPair_nextSelector hrow) (inPair_nextPayload hj)

end Packing

end CircuitTrace
