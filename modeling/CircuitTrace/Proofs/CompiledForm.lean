import CircuitTrace.Container.Encoding
import CircuitTrace.Proofs.Arrangement
import CircuitTrace.Proofs.Completeness
import CircuitTrace.Proofs.Degree
import CircuitTrace.Proofs.PartialEvaluation

namespace CircuitTrace

def BoundaryConstraint.cell (b : BoundaryConstraint) : Nat × Nat := (b.row, b.register)

def WireBoundary.cell (b : WireBoundary) : Nat × Nat := (b.row, b.register)

namespace Program

/-- The parts of a program fit together, with a trace of a given length and transition constraints
up to a given degree. -/
structure Coherent (g : Program) (rowCount degree : Nat) : Prop where
  length_trace : g.trace.length = rowCount
  shaped : g.trace.Shaped g.registerCount
  vars_le : ∀ x ∈ g.transitions, ∀ v ∈ x.vars, v ≤ 2 * g.registerCount
  degree_le : ∀ x ∈ g.transitions, x.totalDegree ≤ degree ∧ x.degree.toNat = x.totalDegree
  boundary_lt : ∀ b ∈ g.boundary, b.row < rowCount ∧ b.register < g.registerCount
  nodup_boundary : (g.boundary.map BoundaryConstraint.cell).Nodup

variable {g : Program}

/-- No trace makes the check miss a variable: one of the wrong shape is refused before any
constraint is evaluated. -/
theorem check_ne_poly (h : ∀ x ∈ g.transitions, x.InPair g.registerCount) (e : Poly.EvalError) :
    g.check ≠ .error (.poly e) := by
  intro hcheck
  rcases check_eq_error_cases.1 hcheck with ⟨-, hshort⟩ | ⟨-, hshape⟩ | ⟨-, hshape, htransitions⟩ |
    ⟨-, -, -, hboundary⟩
  · cases hshort
  · obtain ⟨i, hi, hrow, -⟩ := forM_eq_error hshape
    dsimp only at hrow
    split at hrow <;> cases hrow
  · have hs : g.trace.Shaped g.registerCount := checkShape_eq_ok_iff.1 hshape
    obtain ⟨row, c, hr, hc, hverdict, -⟩ := checkTransitions_eq_error htransitions
    obtain ⟨r, hval⟩ := (h _ (getD_mem hc .zero)).exists_eval (p := g.modulus) hs hr
    rw [hval] at hverdict
    obtain ⟨-, herror⟩ := violation_of_verdict hverdict
    cases herror
  · obtain ⟨i, hi, hcell, -⟩ := forM_eq_error hboundary
    split at hcell <;> cases hcell

end Program

namespace Packing

variable {packing : Packing} {p i : Nat} {a : Poly}

/-- The selector adds one to the degree of a constraint of the circuit. -/
theorem totalDegree_circuitConstraint {c : Constraint}
    (h : packing.circuitConstraint p (c, i) = .ok a) : a.totalDegree ≤ 3 := by
  obtain ⟨hwires, rfl⟩ := circuitConstraint_eq_ok h
  have hselector : (packing.selector (packing.pairOf i)).Affine := Poly.affine_var _
  exact Poly.totalDegree_mul_le_of_le hselector
    (Constraint.totalDegree_substitute_le (affine_total hwires))

theorem totalDegree_auxiliaryConstraints (ha : a ∈ packing.auxiliaryConstraints p) :
    a.totalDegree ≤ 2 := by
  have hcurrent (i : Nat) : (packing.registers.currentPoly i).Affine := Poly.affine_var _
  have hnext (i : Nat) : (packing.registers.nextPoly i).Affine := Poly.affine_var _
  have product {b c : Poly} (hb : b.Affine) (hc : c.Affine) :
      (Poly.mul p b c).totalDegree ≤ 2 := Poly.totalDegree_mul_le_of_le hb hc
  rcases mem_auxiliaryConstraints.1 ha with ⟨i, -, ha⟩ | ⟨i, -, rfl⟩ | ⟨row, -, ha⟩ | ⟨row, -, ha⟩
  · have hcycle : Registers.cyclePoly.Affine := Poly.affine_var _
    have hindex := Poly.affine_const (Residue.reduce p i)
    simp only [selectorConstraints, List.mem_cons, List.not_mem_nil, or_false] at ha
    rcases ha with rfl | rfl | rfl | rfl
    · exact Poly.totalDegree_sub_le_of_le (product (hcurrent _) (hcurrent _))
        (Nat.le_succ_of_le (hcurrent _))
    · exact product (hcycle.sub hindex) (hcurrent _)
    · exact product ((hcycle.add Poly.affine_one).sub hindex) (hnext _)
    · exact Poly.totalDegree_sub_le_of_le (product (hnext _) (hnext _))
        (Nat.le_succ_of_le (hnext _))
  · exact Nat.le_succ_of_le ((hnext _).sub (hcurrent _))
  · obtain ⟨wire, i, j, -, -, rfl⟩ := mem_linkConstraints.1 ha
    exact product (hcurrent _) ((hcurrent _).sub (hnext _))
  · obtain ⟨j, -, -, rfl⟩ := mem_paddingConstraints.1 ha
    split
    · exact product (hcurrent _) (hcurrent _)
    · exact product (hnext _) (hnext _)

end Packing

namespace Layout

variable {k : Circuit} {l : Layout} {packing : Packing} {a : Poly}

theorem totalDegree_singleRow (ha : a ∈ (singleRow k).transitions) : a.totalDegree ≤ 2 := by
  rcases mem_transitions_singleRow.1 ha with ⟨c, -, rfl⟩ | ⟨i, -, rfl⟩
  · exact Constraint.totalDegree_substitute_le fun wire _ => affine_wirePoly k.wireCount wire
  · exact Nat.le_succ_of_le ((Poly.affine_var _).sub (Poly.affine_var _))

theorem totalDegree_ofPacking (h : ofPacking k packing = .ok l) (ha : a ∈ l.transitions) :
    a.totalDegree ≤ 3 := by
  rcases mem_transitions_ofPacking h ha with ⟨i, hi, ha⟩ | ha
  · exact Packing.totalDegree_circuitConstraint ha
  · exact (Packing.totalDegree_auxiliaryConstraints ha).trans (Nat.le_succ 2)

/-- The degree that the transition constraints of a strategy have at most. -/
def degreeBound (l : Layout) : Nat := if l.strategy = .singleRow then 2 else 3

theorem degreeBound_le (l : Layout) : l.degreeBound ≤ 3 := by
  rw [degreeBound]
  split <;> omega

/-- A boundary speaks of cells of the layout: one for each public input, which holds its wire, and
others with something else in them. -/
structure Placed (l : Layout) : Prop where
  shaped : ∀ cells ∈ l.cells, cells.length = l.registerCount
  wires : ∀ b ∈ l.wireBoundary, l.cell? b.row b.register = some (.wire b.wire)
  nodup_wires : (l.wireBoundary.map WireBoundary.wire).Nodup
  fixed : ∀ b ∈ l.fixedBoundary, ∃ c, l.cell? b.row b.register = some c ∧
    ∀ wb ∈ l.wireBoundary, c ≠ .wire wb.wire
  nodup_fixed : (l.fixedBoundary.map BoundaryConstraint.cell).Nodup

namespace Placed

variable {w : Witness} (h : l.Placed)
include h

theorem lt_of_cell? {row register : Nat} {c : Cell} (hcell : l.cell? row register = some c) :
    row < l.rowCount ∧ register < l.registerCount := by
  obtain ⟨cells, hcells, hcell⟩ := Option.bind_eq_some_iff.1 hcell
  obtain ⟨hrow, -⟩ := List.getElem?_eq_some_iff.1 hcells
  obtain ⟨hregister, -⟩ := List.getElem?_eq_some_iff.1 hcell
  rw [h.shaped cells (List.mem_of_getElem? hcells)] at hregister
  exact ⟨hrow, hregister⟩

theorem boundary_lt {b : BoundaryConstraint} (hb : b ∈ l.boundary w) :
    b.row < l.rowCount ∧ b.register < l.registerCount := by
  rcases List.mem_append.1 hb with hb | hb
  · obtain ⟨c, hcell, -⟩ := h.fixed b hb
    exact h.lt_of_cell? hcell
  · obtain ⟨wb, hwb, rfl⟩ := List.mem_map.1 hb
    exact h.lt_of_cell? (h.wires wb hwb)

/-- Different wires lie in different cells. -/
theorem nodup_wireBoundary : (l.wireBoundary.map WireBoundary.cell).Nodup := by
  apply List.Nodup.of_map fun cell => l.cell? cell.1 cell.2
  have hcells : (l.wireBoundary.map WireBoundary.cell).map (fun cell => l.cell? cell.1 cell.2) =
      (l.wireBoundary.map WireBoundary.wire).map fun wire => some (.wire wire) := by
    rw [List.map_map, List.map_map]
    exact List.map_congr_left h.wires
  rw [hcells]
  exact h.nodup_wires.map fun _ _ heq => Cell.wire.inj (Option.some.inj heq)

theorem nodup_boundary (w : Witness) : ((l.boundary w).map BoundaryConstraint.cell).Nodup := by
  have hsplit : (l.boundary w).map BoundaryConstraint.cell =
      l.fixedBoundary.map BoundaryConstraint.cell ++ l.wireBoundary.map WireBoundary.cell := by
    rw [boundary, List.map_append, List.map_map]
    rfl
  rw [hsplit]
  -- A fixed cell that were one of a public input would hold its wire.
  refine List.nodup_append'.2 ⟨h.nodup_fixed, h.nodup_wireBoundary, fun cell hfixed hwire => ?_⟩
  obtain ⟨b, hb, rfl⟩ := List.mem_map.1 hfixed
  obtain ⟨wb, hwb, hcell⟩ := List.mem_map.1 hwire
  obtain ⟨hrow, hregister⟩ := Prod.mk.inj hcell
  obtain ⟨c, hc, hne⟩ := h.fixed b hb
  have hholds := h.wires wb hwb
  rw [hrow, hregister, hc] at hholds
  exact hne wb hwb (Option.some.inj hholds)

end Placed

theorem placed_singleRow (hk : k.WellFormed) : (singleRow k).Placed where
  shaped := length_cells_singleRow
  wires b hb := by
    obtain ⟨wire, hwire, rfl⟩ := List.mem_map.1 hb
    exact cell?_singleRow Nat.one_lt_two (hk.publicWire_lt hwire).2
  nodup_wires := by
    rw [singleRow, List.map_map]
    exact (List.map_id _).symm ▸ List.nodup_range'
  fixed b hb := by
    obtain rfl := List.mem_singleton.1 hb
    refine ⟨_, cell?_singleRow Nat.zero_lt_two hk.wireCount_pos, fun wb hwb heq => ?_⟩
    obtain ⟨wire, hwire, rfl⟩ := List.mem_map.1 hwb
    exact Nat.ne_of_lt (hk.publicWire_lt hwire).1 (Cell.wire.inj heq)
  nodup_fixed := List.nodup_singleton _

theorem placed_ofPacking (hf : packing.Fits k) (h : ofPacking k packing = .ok l) : l.Placed where
  shaped := shaped_ofPacking h
  wires b hb := by
    obtain ⟨constraints, -, -, rfl⟩ := ofPacking_eq_ok h
    obtain ⟨wire, -, hcell⟩ := List.mem_filterMap.1 hb
    obtain ⟨rfl, hplace⟩ := wireCell_ofPacking h hf hcell
    exact cell?_of_placeOf? hplace
  nodup_wires := by
    rw [wireBoundary_ofPacking hf h]
    exact List.nodup_range'
  fixed b hb := by
    have hcells := cells_ofPacking h
    obtain ⟨constraints, -, -, rfl⟩ := ofPacking_eq_ok h
    obtain ⟨row, hrow, rfl⟩ := List.mem_map.1 hb
    rw [List.mem_range] at hrow
    refine ⟨.const 1, ?_, fun _ _ => nofun⟩
    rw [cell?_packed hcells hrow, Packing.rowCells_selector hrow, if_pos rfl]
  nodup_fixed := by
    obtain ⟨constraints, -, -, rfl⟩ := ofPacking_eq_ok h
    rw [List.map_map]
    exact List.nodup_range.map fun _ _ heq => (Prod.mk.inj heq).1

/-- What a layout of the right form gives every witness. -/
theorem Placed.coherent {rowOf : Nat → Nat} {d : Nat} (h : l.Placed) (hc : l.Complete k rowOf)
    (hd : ∀ x ∈ l.transitions, x.totalDegree ≤ d) (hsmall : d < UInt32.size) (p : Nat)
    (w : Witness) : (l.program p w (l.trace w)).Coherent l.rowCount d where
  length_trace := length_trace l w
  shaped := shaped_trace h.shaped
  vars_le x hx := Poly.inPair_iff.1 (hc.inPair x hx)
  degree_le x hx := ⟨hd x hx, Poly.toNat_degree ((hd x hx).trans_lt hsmall)⟩
  boundary_lt _ hb := h.boundary_lt hb
  nodup_boundary := h.nodup_boundary w

end Layout

namespace Arithmetization

variable {k : Circuit} {config : Config} {a : Arithmetization} {w : Witness}

theorem placed_layout (hk : k.WellFormed) (h : (ofCircuit k config).outcome = .ok a) :
    a.layout.Placed := by
  rcases layout_cases h with ⟨-, hl⟩ | ⟨-, packing, hpacking, hl⟩
  · rw [hl]
    exact Layout.placed_singleRow hk
  · exact Layout.placed_ofPacking (Packing.fits_ofCircuit hk hpacking) hl

theorem strategy_layout (h : (ofCircuit k config).outcome = .ok a) : a.layout.strategy =
    if config.resolve k.wireCount = .singleRow then .singleRow else .packed := by
  rcases layout_cases h with ⟨hs, hl⟩ | ⟨hs, packing, -, hl⟩
  · rw [hl, if_pos hs]
    rfl
  · obtain ⟨constraints, -, -, hl⟩ := Layout.ofPacking_eq_ok hl
    rw [hl, if_neg hs]

theorem totalDegree_layout (h : (ofCircuit k config).outcome = .ok a) :
    ∀ x ∈ a.layout.transitions, x.totalDegree ≤ a.layout.degreeBound := by
  intro x hx
  rw [Layout.degreeBound, strategy_layout h]
  rcases layout_cases h with ⟨hs, hl⟩ | ⟨hs, packing, -, hl⟩
  · rw [hl] at hx
    rw [if_pos hs]
    exact Layout.totalDegree_singleRow hx
  · rw [if_neg hs]
    exact Layout.totalDegree_ofPacking hl hx

/-- Every compiled program has the form of its layout: variables of a row and the next, degrees up
to two or three by the strategy, a boundary on cells of the trace that are all different, and a
trace with a cell for every register on each row. With any trace in its place, the check finds a
value for every variable that it comes to. -/
theorem coherent_of_program {bytes : Bytes} (hparse : (Circuit.parse bytes).outcome = .ok k)
    (hcompile : (ofCircuit k config).outcome = .ok a) (hsize : w.size = k.wireCount) :
    ∃ g, a.program w = .ok g ∧ g.Coherent a.layout.rowCount a.layout.degreeBound ∧
      (a.layout.strategy =
        if config.resolve k.wireCount = .singleRow then .singleRow else .packed) ∧
      ∀ (t : Trace) (e : Poly.EvalError), { g with trace := t }.check ≠ .error (.poly e) := by
  have hk : k.WellFormed := Circuit.wellFormed_of_parse hparse
  obtain ⟨rowOf, hcomplete⟩ := exists_complete hk hcompile
  refine ⟨_, program_eq_ok hcompile hsize, ?_, strategy_layout hcompile, fun t e => ?_⟩
  · have hsmall : a.layout.degreeBound < UInt32.size :=
      Nat.lt_of_le_of_lt a.layout.degreeBound_le (by decide)
    exact (placed_layout hk hcompile).coherent hcomplete (totalDegree_layout hcompile) hsmall
      k.prime w
  · exact Program.check_ne_poly hcomplete.inPair e

/-- Three rows of eight registers. The greatest degree is reached, and three selectors and two
public inputs are pinned. -/
theorem coherent_of_program_squaredProduct : ∃ a g,
    (ofCircuit (.squaredProduct 97) (.threeRows 97 (by decide))).outcome = .ok a ∧
      a.program ⟨[1, 36, 2, 0, 3, 6, 18]⟩ = .ok g ∧ g.Coherent 3 3 ∧ g.registerCount = 8 ∧
      (∃ x ∈ g.transitions, x.degree = 3) ∧ g.boundary.length = 5 := by
  have hparse := Circuit.parse_squaredProduct (p := 97) (by decide) (by decide)
  obtain ⟨a, hcompile, hrows, hbound, g, hprogram, hform⟩ : ∃ a,
      (ofCircuit (.squaredProduct 97) (.threeRows 97 (by decide))).outcome = .ok a ∧
        a.layout.rowCount = 3 ∧ a.layout.degreeBound = 3 ∧
        ∃ g, a.program ⟨[1, 36, 2, 0, 3, 6, 18]⟩ = .ok g ∧ g.registerCount = 8 ∧
          (∃ x ∈ g.transitions, x.degree = 3) ∧ g.boundary.length = 5 := by
    decide +kernel
  obtain ⟨g', hprogram', hcoherent, -⟩ := coherent_of_program hparse hcompile
    (show Witness.size ⟨[1, 36, 2, 0, 3, 6, 18]⟩ = 7 from rfl)
  obtain rfl := Except.ok.inj (hprogram.symm.trans hprogram')
  rw [hrows, hbound] at hcoherent
  exact ⟨a, g, hcompile, hprogram, hcoherent, hform⟩

end Arithmetization

end CircuitTrace
