import CircuitTrace.Proofs.CanonicalForm
import CircuitTrace.Proofs.Compilation

/-!
Canonical programs: the transition constraints are in canonical form, and boundary values and cells
are residues. Everything that is compiled from a reduced witness is canonical, since the operations
on polynomials keep this form.
-/
namespace CircuitTrace

structure Program.Canonical (g : Program) : Prop where
  isModulus : Residue.IsModulus g.modulus
  transitions : ∀ a ∈ g.transitions, a.Canonical g.modulus
  boundary : ∀ b ∈ g.boundary, b.value < g.modulus
  trace : ∀ cells ∈ g.trace, ∀ cell ∈ cells, cell < g.modulus

namespace Packing

variable {k : Packing} {p i row wire : Nat} {a q : Poly} (hp : 1 < p)
include hp

theorem canonical_selector (row : Nat) : (k.selector row).Canonical p := Poly.canonical_var hp _

theorem canonical_nextSelector (row : Nat) : (k.nextSelector row).Canonical p :=
  Poly.canonical_var hp _

theorem canonical_payload (j : Nat) : (k.payload j).Canonical p := Poly.canonical_var hp _

theorem canonical_nextPayload (j : Nat) : (k.nextPayload j).Canonical p := Poly.canonical_var hp _

theorem canonical_wirePoly (h : k.wirePoly i row wire = .ok q) : q.Canonical p := by
  rcases wirePoly_shape h with rfl | ⟨register, rfl⟩ | ⟨register, rfl⟩
  · exact Poly.canonical_one hp
  · exact Poly.canonical_var hp _
  · exact Poly.canonical_var hp _

theorem canonical_circuitConstraint {c : Constraint} (h : k.circuitConstraint p (c, i) = .ok a) :
    a.Canonical p := by
  obtain ⟨hwires, rfl⟩ := circuitConstraint_eq_ok h
  have selector : (k.selector (k.pairOf i)).Affine := Poly.affine_var _
  have wires := affine_total hwires
  refine (canonical_selector hp _).mul (by omega)
    (.substitute (by omega) (fun x hx => ?_) (Constraint.fits_of_affine wires))
    (Constraint.fits_substitute selector wires)
  obtain ⟨q, hq⟩ := hwires x hx
  rw [LinearCombination.total_ok hq]
  exact canonical_wirePoly hp hq

theorem canonical_auxiliaryConstraints (ha : a ∈ k.auxiliaryConstraints p) : a.Canonical p := by
  have hpos : 0 < p := by omega
  have hcycle : Registers.cyclePoly.Canonical p := Poly.canonical_var hp _
  have selector (row : Nat) : (k.selector row).Affine := Poly.affine_var _
  have nextSelector (row : Nat) : (k.nextSelector row).Affine := Poly.affine_var _
  have payload (j : Nat) : (k.payload j).Affine := Poly.affine_var _
  have nextPayload (j : Nat) : (k.nextPayload j).Affine := Poly.affine_var _
  have cycle : Registers.cyclePoly.Affine := Poly.affine_var _
  rcases mem_auxiliaryConstraints.1 ha with ⟨i, -, ha⟩ | ⟨i, -, rfl⟩ | ⟨row, -, ha⟩ | ⟨row, -, ha⟩
  · have hindex : (Poly.const (Residue.reduce p i)).Canonical p :=
      Poly.canonical_const (Nat.mod_lt _ hpos)
    have index := Poly.affine_const (Residue.reduce p i)
    have hhere := canonical_selector (k := k) hp i
    have hnext := canonical_nextSelector (k := k) hp i
    simp only [selectorConstraints, List.mem_cons, List.not_mem_nil, or_false] at ha
    rcases ha with rfl | rfl | rfl | rfl
    · exact (hhere.mul hpos hhere ((selector i).fits (selector i))).sub hhere
    · exact (hcycle.sub hindex).mul hpos hhere ((cycle.sub index).fits (selector i))
    · exact ((hcycle.add (Poly.canonical_one hp)).sub hindex).mul hpos hnext
        (((cycle.add Poly.affine_one).sub index).fits (nextSelector i))
    · exact (hnext.mul hpos hnext ((nextSelector i).fits (nextSelector i))).sub hnext
  · exact (Poly.canonical_var hp _).sub (Poly.canonical_var hp _)
  · obtain ⟨wire, i, j, -, -, rfl⟩ := mem_linkConstraints.1 ha
    exact (canonical_selector hp row).mul hpos
      ((canonical_payload hp i).sub (canonical_nextPayload hp j))
      ((selector row).fits ((payload i).sub (nextPayload j)))
  · obtain ⟨j, -, -, rfl⟩ := mem_paddingConstraints.1 ha
    split
    · exact (canonical_selector hp row).mul hpos (canonical_payload hp j)
        ((selector row).fits (payload j))
    · exact (canonical_nextSelector hp row).mul hpos (canonical_nextPayload hp j)
        ((nextSelector row).fits (nextPayload j))

end Packing

theorem Packing.const_mem_rowCells {k : Packing} {row v : Nat} {wires : List Nat}
    (h : Cell.const v ∈ k.rowCells row wires) : v ≤ 1 := by
  simp only [rowCells, List.mem_append, List.mem_map, List.mem_range, Cell.const.injEq,
    reduceCtorEq, and_false, exists_false, or_false, List.mem_replicate] at h
  rcases h with ⟨i, -, rfl⟩ | ⟨-, rfl⟩
  · split <;> omega
  · omega

/-- The values of all wires are residues. -/
def Witness.Reduced (p : Nat) (w : Witness) : Prop := ∀ value ∈ w.values, value < p

instance (p : Nat) (w : Witness) : Decidable (w.Reduced p) :=
  inferInstanceAs (Decidable (∀ value ∈ w.values, value < p))

theorem Witness.Reduced.value_lt {p : Nat} {w : Witness} (h : w.Reduced p) (hp : 0 < p)
    (wire : Nat) : w.value wire < p := by
  rw [value, List.getD_eq_getElem?_getD]
  cases hget : w.values[wire]? with
  | none => exact hp
  | some value => exact h value (List.mem_of_getElem? hget)

/-- What a layout gives to its programs is canonical, apart from the values of wires. -/
structure Layout.Canonical (p : Nat) (l : Layout) : Prop where
  transitions : ∀ a ∈ l.transitions, a.Canonical p
  fixedBoundary : ∀ b ∈ l.fixedBoundary, b.value = 1
  cells : ∀ cells ∈ l.cells, ∀ v, Cell.const v ∈ cells → v ≤ 1

namespace Layout

variable {k : Circuit} {l : Layout} (hp : 1 < k.prime)
include hp

theorem canonical_singleRow : (singleRow k).Canonical k.prime where
  transitions a ha := by
    rcases mem_transitions_singleRow.1 ha with ⟨c, -, rfl⟩ | ⟨i, -, rfl⟩
    · refine .substitute (by omega) (fun wire _ => ?_)
        (Constraint.fits_of_affine fun wire _ => affine_wirePoly k.wireCount wire)
      rw [wirePoly]
      split
      · exact Poly.canonical_one hp
      · exact Poly.canonical_var hp _
    · exact (Poly.canonical_var hp _).sub (Poly.canonical_var hp _)
  fixedBoundary b hb := by
    rw [List.mem_singleton.1 hb]
  cells cells hcells v hv := by
    obtain rfl : cells = (List.range k.wireCount).map Cell.wire := by simpa [singleRow] using hcells
    simp at hv

theorem canonical_ofPacking {packing : Packing} (h : ofPacking k packing = .ok l) :
    l.Canonical k.prime where
  transitions a ha := by
    rcases mem_transitions_ofPacking h ha with ⟨i, hi, ha⟩ | ha
    · exact Packing.canonical_circuitConstraint hp ha
    · exact Packing.canonical_auxiliaryConstraints hp ha
  fixedBoundary b hb := by
    obtain ⟨constraints, -, -, rfl⟩ := ofPacking_eq_ok h
    obtain ⟨row, -, rfl⟩ := List.mem_map.1 hb
    rfl
  cells cells hcells v hv := by
    rw [cells_ofPacking h] at hcells
    obtain ⟨⟨wires, row⟩, -, rfl⟩ := List.mem_map.1 hcells
    exact Packing.const_mem_rowCells hv

omit hp in
theorem Canonical.program {p : Nat} (hl : l.Canonical p) (hp : Residue.IsModulus p) {w : Witness}
    (hw : w.Reduced p) : (l.program p w (l.trace w)).Canonical where
  isModulus := hp
  transitions := hl.transitions
  boundary b hb := by
    change b.value < p
    have hp : 1 < p := hp
    rcases List.mem_append.1 hb with hb | hb
    · rw [hl.fixedBoundary b hb]
      exact hp
    · obtain ⟨wb, -, rfl⟩ := List.mem_map.1 hb
      exact hw.value_lt (by omega) wb.wire
  trace cells hcells cell hcell := by
    change cell < p
    have hp : 1 < p := hp
    obtain ⟨templates, htemplates, rfl⟩ := List.mem_map.1 hcells
    obtain ⟨c, hc, rfl⟩ := List.mem_map.1 hcell
    cases c with
    | const v => exact Nat.lt_of_le_of_lt (hl.cells templates htemplates v hc) hp
    | wire index => exact hw.value_lt (by omega) index

end Layout

namespace Arithmetization

variable {k : Circuit} {config : Config} {a : Arithmetization} {w : Witness} {g : Program}

/-- What is compiled from a reduced witness is canonical. -/
theorem canonical_of_program (h : (ofCircuit k config).outcome = .ok a) (hw : w.Reduced k.prime)
    (hg : a.program w = .ok g) : g.Canonical := by
  have hp : Residue.IsModulus k.prime := by
    have hprime := (Logged.guard_outcome_eq_ok h).1
    rw [not_ne_iff] at hprime
    exact hprime ▸ config.isModulus
  obtain ⟨-, rfl⟩ := program_eq_ok_iff.1 hg
  rw [(ofCircuit_eq_ok h).1]
  rcases layout_cases h with ⟨-, hl⟩ | ⟨-, packing, -, hl⟩
  · rw [hl]
    exact (Layout.canonical_singleRow hp).program hp hw
  · exact (Layout.canonical_ofPacking hp hl).program hp hw

end Arithmetization

end CircuitTrace
