import CircuitTrace.Proofs.Binding
import CircuitTrace.Proofs.Bisection
import CircuitTrace.Proofs.Placement
import CircuitTrace.Trace.PackedLayout

/-!
The cells of a packed trace. On each row lie the selectors, the globals, the local wires of the row
and zeros behind them, so a wire has one cell on each row if it is a global, and otherwise one on
each row that it lies on.
-/
namespace CircuitTrace

namespace Packing

variable {k : Circuit} {packing : Packing} {row wire i j : Nat} {wires : List Nat}

theorem foldl_max_le_iff {l : List Nat} {a n : Nat} :
    l.foldl max a ≤ n ↔ a ≤ n ∧ ∀ x ∈ l, x ≤ n := by
  induction l generalizing a with
  | nil => simp
  | cons y l ih => rw [List.foldl_cons, ih, max_le_iff, List.forall_mem_cons, and_assoc]

theorem width_le_iff {packing : Packing} {n : Nat} :
    packing.width ≤ n ↔ ∀ row, (packing.rows.getD row []).length ≤ n := by
  rw [width, foldl_max_le_iff, List.forall_mem_map]
  constructor
  · rintro ⟨-, hrows⟩ row
    by_cases hr : row < packing.rows.length
    · rw [List.getD_eq_getElem _ _ hr]
      exact hrows _ (List.getElem_mem hr)
    · rw [List.getD_eq_default _ _ (by omega), List.length_nil]
      exact Nat.zero_le n
  · intro h
    refine ⟨Nat.zero_le n, fun row hrow => ?_⟩
    obtain ⟨i, hi, rfl⟩ := List.mem_iff_getElem.1 hrow
    simpa [hi] using h i

theorem length_le_width (packing : Packing) (row : Nat) :
    (packing.rows.getD row []).length ≤ packing.width :=
  width_le_iff.1 (Nat.le_refl _) row

theorem Fits.payloadIndex?_eq_some_iff (hf : packing.Fits k) :
    packing.payloadIndex? row wire = some j ↔ (packing.rows.getD row [])[j]? = some wire :=
  Bisection.find?_eq_some_iff (hf.row_ascending row)

theorem Fits.globalIndex?_eq_some_iff (hf : packing.Fits k) :
    packing.globalIndex? wire = some i ↔ packing.globals[i]? = some wire :=
  Bisection.find?_eq_some_iff hf.globals_ascending

theorem length_rowCells (h : wires.length ≤ packing.width) (row : Nat) :
    (packing.rowCells row wires).length = packing.columns.count := by
  simp only [rowCells, List.length_append, List.length_map, List.length_range,
    List.length_replicate, columns, Columns.ofPacking, Columns.count]
  omega

theorem rowCells_selector (hi : i < packing.rowCount) :
    (packing.rowCells row wires)[packing.columns.selector i]? =
      some (.const (if i = row then 1 else 0)) := by
  have hlt : i < ((List.range packing.rowCount).map fun i =>
      Cell.const (if i = row then 1 else 0)).length := by
    simpa using hi
  rw [rowCells, List.append_assoc, List.append_assoc, Columns.selector,
    List.getElem?_append_left hlt, List.getElem?_map, List.getElem?_range hi, Option.map_some]

theorem rowCells_global (hi : packing.globals[i]? = some wire) :
    (packing.rowCells row wires)[packing.columns.global i]? = some (.wire wire) := by
  obtain ⟨hlt, -⟩ := List.getElem?_eq_some_iff.1 hi
  have hlen : ((List.range packing.rowCount).map fun i =>
      Cell.const (if i = row then 1 else 0)).length = packing.columns.selectors := by
    simp [columns, Columns.ofPacking]
  rw [rowCells, List.append_assoc, List.append_assoc, Columns.global,
    List.getElem?_append_right (by omega), hlen, Nat.add_sub_cancel_left,
    List.getElem?_append_left (by simpa using hlt), List.getElem?_map, hi, Option.map_some]

theorem rowCells_payload (j : Nat) :
    (packing.rowCells row wires)[packing.columns.payload j]? =
      (wires.map Cell.wire ++ List.replicate (packing.width - wires.length) (.const 0))[j]? := by
  have hlen : ((List.range packing.rowCount).map (fun i => Cell.const (if i = row then 1 else 0)) ++
      packing.globals.map Cell.wire).length =
        packing.columns.selectors + packing.columns.globals := by
    simp [columns, Columns.ofPacking]
  rw [rowCells, List.append_assoc, Columns.payload, List.getElem?_append_right (by omega), hlen,
    Nat.add_sub_cancel_left]

theorem rowCells_local (hj : wires[j]? = some wire) :
    (packing.rowCells row wires)[packing.columns.payload j]? = some (.wire wire) := by
  obtain ⟨hlt, -⟩ := List.getElem?_eq_some_iff.1 hj
  rw [rowCells_payload, List.getElem?_append_left (by simpa using hlt), List.getElem?_map, hj,
    Option.map_some]

theorem rowCells_padding (hused : wires.length ≤ j) (hj : j < packing.width) :
    (packing.rowCells row wires)[packing.columns.payload j]? = some (.const 0) := by
  rw [rowCells_payload, List.getElem?_append_right (by simpa using hused), List.length_map,
    List.getElem?_replicate_of_lt (by omega)]

theorem getElem?_cells (hr : row < packing.rowCount) :
    packing.cells[row]? = some (packing.rowCells row (packing.rows.getD row [])) := by
  have hrow : row < packing.rows.length := hr
  rw [cells, List.getElem?_map, List.getElem?_zipIdx, List.getElem?_eq_getElem hrow,
    List.getD_eq_getElem _ _ hrow]
  simp

theorem length_cells (packing : Packing) : packing.cells.length = packing.rowCount := by
  simp [cells, rowCount]

theorem length_of_mem_cells (packing : Packing) :
    ∀ cells ∈ packing.cells, cells.length = packing.columns.count := by
  intro cells hc
  obtain ⟨row, hrow⟩ := List.mem_iff_getElem?.1 hc
  have hr : row < packing.rowCount := by
    rw [← length_cells]
    exact (List.getElem?_eq_some_iff.1 hrow).1
  rw [getElem?_cells hr] at hrow
  obtain rfl := Option.some.inj hrow
  exact length_rowCells (packing.length_le_width row) row

theorem selector_lt (hi : i < packing.rowCount) :
    packing.columns.selector i < packing.columns.count := by
  simp only [Columns.selector, columns, Columns.ofPacking, Columns.count]
  omega

theorem global_lt (hi : i < packing.globals.length) :
    packing.columns.global i < packing.columns.count := by
  simp only [Columns.global, columns, Columns.ofPacking, Columns.count]
  omega

theorem payload_lt (hj : j < packing.width) :
    packing.columns.payload j < packing.columns.count := by
  simp only [Columns.payload, columns, Columns.ofPacking, Columns.count]
  omega

/-- Every register belongs to one of the blocks. -/
theorem register_cases {register : Nat} (h : register < packing.columns.count) :
    (∃ i < packing.rowCount, register = packing.columns.selector i) ∨
      (∃ i < packing.globals.length, register = packing.columns.global i) ∨
      ∃ j < packing.width, register = packing.columns.payload j := by
  have hcount : packing.columns.count = packing.rowCount + packing.globals.length + packing.width :=
    rfl
  by_cases hs : register < packing.rowCount
  · exact .inl ⟨register, hs, rfl⟩
  · by_cases hg : register < packing.rowCount + packing.globals.length
    · refine .inr (.inl ⟨register - packing.rowCount, by omega, ?_⟩)
      simp only [Columns.global, columns, Columns.ofPacking]
      omega
    · refine .inr (.inr ⟨register - (packing.rowCount + packing.globals.length), by omega, ?_⟩)
      simp only [Columns.payload, columns, Columns.ofPacking]
      omega

theorem Fits.mem_rowsOf (hf : packing.Fits k) :
    row ∈ packing.rowsOf wire ↔ row < packing.rowCount ∧ packing.Local row wire := by
  rw [rowsOf, List.mem_filter, List.mem_range, payloadIndex?,
    Bisection.isSome_find?_iff (hf.row_ascending row), Local]

/-- The first of the rows of a wire. -/
theorem le_of_head?_rowsOf {row' : Nat} (h : (packing.rowsOf wire).head? = some row)
    (h' : row' ∈ packing.rowsOf wire) : row ≤ row' := by
  have hascending : (packing.rowsOf wire).Pairwise (· < ·) :=
    List.Pairwise.filter _ List.pairwise_lt_range
  obtain ⟨rest, hrest⟩ := List.head?_eq_some_iff.1 h
  rw [hrest] at h' hascending
  rcases List.mem_cons.1 h' with rfl | h'
  · exact Nat.le_refl _
  · exact Nat.le_of_lt ((List.pairwise_cons.1 hascending).1 row' h')

theorem wireCell_global (h : packing.globalIndex? wire = some i) :
    packing.wireCell wire = some ⟨0, packing.columns.global i, wire⟩ := by
  rw [wireCell, h]

theorem wireCell_local (hglobal : packing.globalIndex? wire = none)
    (hrow : (packing.rowsOf wire).head? = some row) (hj : packing.payloadIndex? row wire = some j) :
    packing.wireCell wire = some ⟨row, packing.columns.payload j, wire⟩ := by
  rw [wireCell, hglobal, hrow]
  simp [hj]

theorem wireCell_none (hglobal : packing.globalIndex? wire = none)
    (hrow : packing.rowsOf wire = []) : packing.wireCell wire = none := by
  rw [wireCell, hglobal, hrow]
  rfl

/-- The ways in which a wire can have a place, or none. -/
theorem wireCell_cases (packing : Packing) (wire : Nat) :
    (∃ i, packing.globalIndex? wire = some i) ∨
      (∃ row j, packing.globalIndex? wire = none ∧ (packing.rowsOf wire).head? = some row ∧
        packing.payloadIndex? row wire = some j) ∨
      (packing.globalIndex? wire = none ∧ packing.rowsOf wire = []) := by
  cases hglobal : packing.globalIndex? wire with
  | some i => exact .inl ⟨i, rfl⟩
  | none =>
    cases hrow : (packing.rowsOf wire).head? with
    | none => exact .inr (.inr ⟨rfl, List.head?_eq_none_iff.1 hrow⟩)
    | some row =>
      have hmem : row ∈ packing.rowsOf wire := List.mem_of_head? hrow
      rw [rowsOf, List.mem_filter] at hmem
      obtain ⟨j, hj⟩ := Option.isSome_iff_exists.1 hmem.2
      exact .inr (.inl ⟨row, j, rfl, rfl, hj⟩)

theorem wire_of_wireCell {cell : WireBoundary} (h : packing.wireCell wire = some cell) :
    cell.wire = wire := by
  rcases packing.wireCell_cases wire with ⟨i, hi⟩ | ⟨row, j, hglobal, hrow, hj⟩ | ⟨hglobal, hrow⟩
  · rw [wireCell_global hi] at h
    exact congrArg WireBoundary.wire (Option.some.inj h.symm)
  · rw [wireCell_local hglobal hrow hj] at h
    exact congrArg WireBoundary.wire (Option.some.inj h.symm)
  · rw [wireCell_none hglobal hrow] at h
    cases h

theorem Local.row_lt (h : packing.Local row wire) : row < packing.rowCount := by
  by_contra hr
  have hrow : packing.rows.length ≤ row := by simpa [rowCount] using hr
  rw [Local, List.getD_eq_default _ _ hrow] at h
  cases h

/-- A wire that a packing places has a cell. -/
theorem Fits.exists_wireCell (hf : packing.Fits k)
    (h : wire ∈ packing.globals ∨ ∃ row, packing.Local row wire) :
    ∃ cell, packing.wireCell wire = some cell := by
  rcases packing.wireCell_cases wire with ⟨i, hi⟩ | ⟨row, j, hglobal, hrow, hj⟩ | ⟨hglobal, hrow⟩
  · exact ⟨_, wireCell_global hi⟩
  · exact ⟨_, wireCell_local hglobal hrow hj⟩
  · rcases h with h | ⟨row, h⟩
    · obtain ⟨i, hi⟩ := List.mem_iff_getElem?.1 h
      rw [hf.globalIndex?_eq_some_iff.2 hi] at hglobal
      cases hglobal
    · have hmem : row ∈ packing.rowsOf wire := hf.mem_rowsOf.2 ⟨h.row_lt, h⟩
      rw [hrow] at hmem
      cases hmem

end Packing

namespace Layout

variable {l : Layout} {k : Circuit} {packing : Packing} {row register wire i j : Nat}
  (hl : l.cells = packing.cells)
include hl

theorem cell?_packed (hr : row < packing.rowCount) (register : Nat) :
    l.cell? row register = (packing.rowCells row (packing.rows.getD row []))[register]? := by
  rw [cell?, hl, Packing.getElem?_cells hr, Option.bind_some]

theorem cell?_packed_global (hr : row < packing.rowCount) (hi : packing.globals[i]? = some wire) :
    l.cell? row (packing.columns.global i) = some (.wire wire) := by
  rw [cell?_packed hl hr, Packing.rowCells_global hi]

theorem cell?_packed_local (hr : row < packing.rowCount)
    (hj : (packing.rows.getD row [])[j]? = some wire) :
    l.cell? row (packing.columns.payload j) = some (.wire wire) := by
  rw [cell?_packed hl hr, Packing.rowCells_local hj]

theorem row_lt_of_cell?_packed {c : Cell} (h : l.cell? row register = some c) :
    row < packing.rowCount ∧ register < packing.columns.count := by
  obtain ⟨cells, hcells, hcell⟩ := Option.bind_eq_some_iff.1 h
  rw [hl] at hcells
  obtain ⟨hrow, -⟩ := List.getElem?_eq_some_iff.1 hcells
  obtain ⟨hreg, -⟩ := List.getElem?_eq_some_iff.1 hcell
  rw [packing.length_of_mem_cells cells (List.mem_of_getElem? hcells)] at hreg
  exact ⟨by rwa [Packing.length_cells] at hrow, hreg⟩

/-- What a packed trace has in its cells. -/
theorem cell?_packed_cases {c : Cell} (h : l.cell? row register = some c) :
    (∃ i < packing.rowCount, register = packing.columns.selector i ∧
        c = .const (if i = row then 1 else 0)) ∨
      (∃ i wire, packing.globals[i]? = some wire ∧ register = packing.columns.global i ∧
        c = .wire wire) ∨
      (∃ j wire, (packing.rows.getD row [])[j]? = some wire ∧
        register = packing.columns.payload j ∧ c = .wire wire) ∨
      ∃ j < packing.width, (packing.rows.getD row []).length ≤ j ∧
        register = packing.columns.payload j ∧ c = .const 0 := by
  obtain ⟨hr, hreg⟩ := row_lt_of_cell?_packed hl h
  rw [cell?_packed hl hr] at h
  rcases Packing.register_cases hreg with ⟨i, hi, hselector⟩ | ⟨i, hi, rfl⟩ | ⟨j, hj, rfl⟩
  · rw [hselector, Packing.rowCells_selector hi] at h
    exact .inl ⟨i, hi, hselector, (Option.some.inj h).symm⟩
  · have hwire := List.getElem?_eq_getElem hi
    rw [Packing.rowCells_global hwire] at h
    exact .inr (.inl ⟨i, _, hwire, rfl, (Option.some.inj h).symm⟩)
  · by_cases hused : j < (packing.rows.getD row []).length
    · have hwire := List.getElem?_eq_getElem hused
      rw [Packing.rowCells_local hwire] at h
      exact .inr (.inr (.inl ⟨j, _, hwire, rfl, (Option.some.inj h).symm⟩))
    · rw [Packing.rowCells_padding (by omega) hj] at h
      exact .inr (.inr (.inr ⟨j, hj, by omega, rfl, (Option.some.inj h).symm⟩))

/-- A cell holds a wire in the column of a global, or at the place of a local wire. -/
theorem cell?_packed_eq_wire (h : l.cell? row register = some (.wire wire)) :
    (∃ i, packing.globals[i]? = some wire ∧ register = packing.columns.global i) ∨
      ∃ j, (packing.rows.getD row [])[j]? = some wire ∧ register = packing.columns.payload j := by
  rcases cell?_packed_cases hl h with
    ⟨_, _, _, heq⟩ | ⟨i, _, hi, hreg, heq⟩ | ⟨j, _, hj, hreg, heq⟩ | ⟨_, _, _, _, heq⟩
  · cases heq
  · cases heq
    exact .inl ⟨i, hi, hreg⟩
  · cases heq
    exact .inr ⟨j, hj, hreg⟩
  · cases heq

theorem inRange_packed (hf : packing.Fits k) (h : l.cell? row register = some (.wire wire)) :
    0 < wire ∧ wire < k.wireCount := by
  apply hf.inRange
  rcases cell?_packed_eq_wire hl h with ⟨i, hi, -⟩ | ⟨j, hj, -⟩
  · exact .inl (List.mem_of_getElem? hi)
  · exact .inr ⟨row, List.mem_of_getElem? hj⟩

theorem ne_oneWire_packed (hf : packing.Fits k) (h : l.cell? row register = some (.wire wire)) :
    wire ≠ oneWire := Nat.ne_of_gt (inRange_packed hl hf h).1

/-- A wire is read off its column on the first row if it is a global, and off its cell on the first
of its rows otherwise. -/
theorem placeOf?_packed (hf : packing.Fits k) (wire : Nat) :
    l.placeOf? wire = (packing.wireCell wire).map fun b => (b.row, b.register) := by
  have hpos : 0 < packing.rowCount := Nat.lt_of_lt_of_le Nat.zero_lt_two hf.two_le
  rcases packing.wireCell_cases wire with ⟨i, hi⟩ | ⟨row, j, hglobal, hrow, hj⟩ | ⟨hglobal, hrow⟩
  · rw [Packing.wireCell_global hi, Option.map_some]
    rw [hf.globalIndex?_eq_some_iff] at hi
    apply placeOf?_eq_some (cell?_packed_global hl hpos hi)
    intro row' register' hcell
    rcases cell?_packed_eq_wire hl hcell with ⟨i', hi', rfl⟩ | ⟨j, hj, -⟩
    · rw [← hf.globalIndex?_eq_some_iff] at hi hi'
      obtain rfl : i = i' := Option.some.inj (hi.symm.trans hi')
      omega
    · exact absurd (List.mem_of_getElem? hi) (hf.not_global (List.mem_of_getElem? hj))
  · rw [Packing.wireCell_local hglobal hrow hj, Option.map_some]
    have hr : row < packing.rowCount := (hf.mem_rowsOf.1 (List.mem_of_head? hrow)).1
    have hwire := hf.payloadIndex?_eq_some_iff.1 hj
    apply placeOf?_eq_some (cell?_packed_local hl hr hwire)
    intro row' register' hcell
    rcases cell?_packed_eq_wire hl hcell with ⟨i, hi, -⟩ | ⟨j', hj', rfl⟩
    · rw [hf.globalIndex?_eq_some_iff.2 hi] at hglobal
      cases hglobal
    · have hmem : row' ∈ packing.rowsOf wire := hf.mem_rowsOf.2
        ⟨(row_lt_of_cell?_packed hl hcell).1, List.mem_of_getElem? hj'⟩
      rcases Nat.eq_or_lt_of_le (Packing.le_of_head?_rowsOf hrow hmem) with rfl | hlt
      · rw [← hf.payloadIndex?_eq_some_iff] at hj'
        obtain rfl : j = j' := Option.some.inj (hj.symm.trans hj')
        omega
      · exact .inl hlt
  · rw [Packing.wireCell_none hglobal hrow, Option.map_none]
    by_contra hplace
    obtain ⟨⟨row', register'⟩, hplace⟩ := Option.ne_none_iff_exists'.1 hplace
    have hcell := cell?_of_placeOf? hplace
    rcases cell?_packed_eq_wire hl hcell with ⟨i, hi, -⟩ | ⟨j, hj, -⟩
    · rw [hf.globalIndex?_eq_some_iff.2 hi] at hglobal
      cases hglobal
    · have hmem : row' ∈ packing.rowsOf wire := hf.mem_rowsOf.2
        ⟨(row_lt_of_cell?_packed hl hcell).1, List.mem_of_getElem? hj⟩
      rw [hrow] at hmem
      cases hmem

end Layout

end CircuitTrace
