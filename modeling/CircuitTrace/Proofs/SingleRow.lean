import CircuitTrace.Proofs.Binding

namespace CircuitTrace

namespace Layout

variable {k : Circuit} {t : Trace} {row register : Nat}

theorem cell?_singleRow (hr : row < 2) (hg : register < k.wireCount) :
    (singleRow k).cell? row register = some (.wire register) := by
  have hrow : ((List.range k.wireCount).map Cell.wire)[register]? = some (.wire register) := by
    rw [List.getElem?_map, List.getElem?_range hg, Option.map_some]
  match row with
  | 0 => exact hrow
  | 1 => exact hrow

theorem cell?_singleRow_eq_some {c : Cell} (h : (singleRow k).cell? row register = some c) :
    row < 2 ∧ register < k.wireCount ∧ c = .wire register := by
  have hrow (h : ((List.range k.wireCount).map Cell.wire)[register]? = some c) :
      register < k.wireCount ∧ c = .wire register := by
    obtain ⟨hg, rfl⟩ := List.getElem?_eq_some_iff.1 h
    exact ⟨by simpa using hg, by simp⟩
  match row with
  | 0 => exact ⟨by omega, hrow h⟩
  | 1 => exact ⟨by omega, hrow h⟩
  | row + 2 => simp [cell?, singleRow] at h

/-- A wire is read off register `wire` of the first row. -/
theorem placeOf?_singleRow {wire : Nat} (hw : wire < k.wireCount) :
    (singleRow k).placeOf? wire = some (0, wire) := by
  apply placeOf?_eq_some (cell?_singleRow Nat.zero_lt_two hw)
  intro row' register' hcell
  obtain ⟨-, -, heq⟩ := cell?_singleRow_eq_some hcell
  have hregister : wire = register' := Cell.wire.inj heq
  omega

theorem length_cells_singleRow : ∀ cells ∈ (singleRow k).cells, cells.length = k.wireCount := by
  intro cells hc
  have hc : cells = (List.range k.wireCount).map Cell.wire := by simpa [singleRow] using hc
  rw [hc, List.length_map, List.length_range]

/-- What is read off a trace is its first row, with one for the constant wire. -/
theorem cast_read_singleRow {p wire : Nat} (hw : wire < k.wireCount) :
    ((singleRow k).read t wire : ZMod p) =
      if wire = oneWire then 1 else (t.cell 0 wire : ZMod p) := by
  rw [read]
  split
  · exact Nat.cast_one
  · rw [placeOf?_singleRow hw]

section Value

variable {p n : Nat} (hs : t.Shaped n)
include hs

theorem value_singleRow_wirePoly (hr : row < t.length) {wire : Nat} (hw : wire < n) :
    t.value p row (wirePoly ⟨n⟩ wire) =
      if wire = oneWire then 1 else (t.cell row wire : ZMod p) := by
  rw [wirePoly]
  split
  · exact Trace.value_one p t row
  · exact Trace.value_currentPoly hs hr hw

theorem value_copy (hp : 1 < p) (hr : row + 1 < t.length) {i : Nat} (hi : i < n) :
    t.value p row (Poly.sub p (Registers.nextPoly ⟨n⟩ i) (Registers.currentPoly ⟨n⟩ i)) =
      (t.cell (row + 1) i : ZMod p) - t.cell row i := by
  have hcurrent : (Registers.currentPoly ⟨n⟩ i).Reduced p := Poly.reduced_var hp _
  rw [Trace.value_sub p t row _ hcurrent, Trace.value_nextPoly hs hr hi,
    Trace.value_currentPoly hs (by omega) hi]

end Value

theorem affine_wirePoly (n wire : Nat) : (wirePoly ⟨n⟩ wire).Affine := by
  rw [wirePoly]
  split
  · exact Poly.affine_one
  · exact Poly.affine_var _

theorem inPair_wirePoly {n wire : Nat} (hw : wire < n) : (wirePoly ⟨n⟩ wire).InPair n := by
  rw [wirePoly]
  split
  · exact Poly.inPair_one
  · exact Poly.inPair_currentPoly hw

/-- A transition constraint is a constraint of the circuit on the current row, or a copy. -/
theorem mem_transitions_singleRow {a : Poly} : a ∈ (singleRow k).transitions ↔
    (∃ c ∈ k.constraints, c.substitute k.prime (wirePoly ⟨k.wireCount⟩) = a) ∨
      ∃ i < k.wireCount, Poly.sub k.prime (Registers.nextPoly ⟨k.wireCount⟩ i)
        (Registers.currentPoly ⟨k.wireCount⟩ i) = a := by
  simp [singleRow]

theorem value_singleRow_constraint (hk : k.WellFormed) (hs : t.Shaped k.wireCount)
    (hr : row < t.length) {c : Constraint} (hc : c ∈ k.constraints) :
    t.value k.prime row (c.substitute k.prime (wirePoly ⟨k.wireCount⟩)) =
      c.value fun x => if x = oneWire then 1 else (t.cell row x : ZMod k.prime) := by
  rw [Trace.value_substitute hk.prime_pos t row fun x _ => affine_wirePoly k.wireCount x]
  apply Constraint.value_congr
  intro x hx
  exact value_singleRow_wirePoly hs hr (hk.wires c hc x hx)

theorem oneBoundary_mem (w : Witness) : ⟨0, oneWire, 1⟩ ∈ (singleRow k).boundary w := by
  simp [boundary, singleRow]

theorem publicBoundary_mem (w : Witness) {wire : Nat} (hwire : wire ∈ k.publicWires.toList) :
    ⟨1, wire, w.value wire⟩ ∈ (singleRow k).boundary w := by
  apply List.mem_append_right
  exact List.mem_map.2 ⟨⟨1, wire, wire⟩, List.mem_map_of_mem hwire, rfl⟩

section Accepted

variable {w : Witness} (hk : k.WellFormed) (h : (singleRow k).Accepts k.prime w t)
include hk h

theorem cell_succ_singleRow (hr : row + 1 < t.length) (hg : register < k.wireCount) :
    (t.cell (row + 1) register : ZMod k.prime) = t.cell row register := by
  have hs : t.Shaped k.wireCount := h.shaped
  have hcopy := h.value_eq_zero (mem_transitions_singleRow.2 (.inr ⟨register, hg, rfl⟩)) hr
  rw [value_copy hs hk.one_lt_prime hr hg] at hcopy
  exact sub_eq_zero.1 hcopy

/-- All rows of an accepted trace are equal. -/
theorem cell_eq_singleRow (hr : row < t.length) (hg : register < k.wireCount) :
    (t.cell row register : ZMod k.prime) = t.cell 0 register := by
  induction row with
  | zero => rfl
  | succ row ih => rw [cell_succ_singleRow hk h hr hg, ih (by omega)]

theorem linked_singleRow : (singleRow k).Linked k.prime t := by
  have hlen : 2 ≤ t.length := h.two_le
  intro row register row' register' wire hcell hcell'
  obtain ⟨hr, hg, heq⟩ := cell?_singleRow_eq_some hcell
  obtain ⟨hr', -, heq'⟩ := cell?_singleRow_eq_some hcell'
  obtain rfl : register = register' := Cell.wire.inj (heq.symm.trans heq')
  have hrow := cell_eq_singleRow hk h (show row < t.length by omega) hg
  have hrow' := cell_eq_singleRow hk h (show row' < t.length by omega) hg
  exact hrow.trans hrow'.symm

theorem cell_oneWire_singleRow (hr : row < t.length) :
    (t.cell row oneWire : ZMod k.prime) = 1 := by
  have hpos : oneWire < k.wireCount := hk.wireCount_pos
  rw [cell_eq_singleRow hk h hr hpos, h.cell_eq (oneBoundary_mem w) hpos, Nat.cast_one]

end Accepted

theorem sound_singleRow (hk : k.WellFormed) : (singleRow k).Sound k where
  vanishes {w t} h c hc := by
    have hlen : 2 ≤ t.length := h.two_le
    have hzero := h.value_eq_zero (mem_transitions_singleRow.2 (.inl ⟨c, hc, rfl⟩)) hlen
    rw [value_singleRow_constraint hk h.shaped (by omega) hc] at hzero
    rw [← hzero]
    apply Constraint.value_congr
    intro x hx
    exact cast_read_singleRow (hk.wires c hc x hx)
  repeats {w t} h wire hwire := by
    have hlen : 2 ≤ t.length := h.two_le
    obtain ⟨hpos, hw⟩ := hk.publicWire_lt hwire
    have hne : wire ≠ oneWire := Nat.ne_of_gt hpos
    rw [cast_read_singleRow hw, if_neg hne, ← cell_eq_singleRow hk h hlen hw]
    exact h.cell_eq (publicBoundary_mem w hwire) hw

theorem length_constraints_le_singleRow :
    k.constraints.length ≤ (singleRow k).transitions.length := by
  simp [singleRow]

theorem getD_transitions_singleRow {i : Nat} (hi : i < k.constraints.length) :
    (singleRow k).transitions.getD i .zero =
      k.constraints[i].substitute k.prime (wirePoly ⟨k.wireCount⟩) := by
  have hlt : i < (k.constraints.map (Constraint.substitute k.prime
      (wirePoly ⟨k.wireCount⟩))).length := by rwa [List.length_map]
  rw [List.getD_eq_getElem?_getD, singleRow, List.getElem?_append_left hlt, List.getElem?_map,
    List.getElem?_eq_getElem hi, Option.map_some, Option.getD_some]

theorem complete_singleRow (hk : k.WellFormed) : (singleRow k).Complete k fun _ => 0 where
  two_le := Nat.le_refl 2
  shaped := length_cells_singleRow
  inPair a ha := by
    rcases mem_transitions_singleRow.1 ha with ⟨c, hc, rfl⟩ | ⟨i, hi, rfl⟩
    · exact Poly.inPair_substitute fun x hx => inPair_wirePoly (hk.wires c hc x hx)
    · exact Poly.inPair_sub (Poly.inPair_nextPoly hi) (Poly.inPair_currentPoly hi)
  covered := length_constraints_le_singleRow
  rowOf_lt _ _ := Nat.one_lt_two
  binds {w i} hone hi := by
    have hmem : k.constraints[i] ∈ k.constraints := List.getElem_mem hi
    have hs : ((singleRow k).trace w).Shaped k.wireCount := shaped_trace length_cells_singleRow
    rw [getD_transitions_singleRow hi, value_singleRow_constraint hk hs Nat.zero_lt_two hmem]
    apply Constraint.value_congr
    intro x hx
    rw [cell_trace (cell?_singleRow Nat.zero_lt_two (hk.wires _ hmem x hx)), Cell.value]
    split
    · rename_i hx
      rw [hx, hone, Nat.cast_one]
    · rfl
  free {w i row} hi hr hne := by
    have hlen : row + 1 < 2 := hr
    omega
  auxiliary {w row} hr a ha := by
    have hlen : row + 1 < 2 := hr
    have hs : ((singleRow k).trace w).Shaped k.wireCount := shaped_trace length_cells_singleRow
    obtain ⟨i, hi, rfl⟩ : ∃ i < k.wireCount, Poly.sub k.prime
        (Registers.nextPoly ⟨k.wireCount⟩ i) (Registers.currentPoly ⟨k.wireCount⟩ i) = a := by
      simpa [singleRow] using ha
    rw [value_copy hs hk.one_lt_prime hr hi, cell_trace (cell?_singleRow hlen hi),
      cell_trace (cell?_singleRow (by omega) hi), sub_self]
  bounded {w} hone b hb := by
    rcases List.mem_append.1 hb with hb | hb
    · obtain rfl : b = ⟨0, oneWire, 1⟩ := by simpa [singleRow] using hb
      exact holds_trace (cell?_singleRow Nat.zero_lt_two hk.wireCount_pos) hone
    · obtain ⟨wire, hwire, rfl⟩ : ∃ wire ∈ k.publicWires.toList,
          WireBoundary.constraint w ⟨1, wire, wire⟩ = b := by
        simpa [singleRow] using hb
      have hw : wire < k.wireCount := (hk.publicWire_lt hwire).2
      exact holds_trace (cell?_singleRow Nat.one_lt_two hw) rfl

theorem rigid_singleRow (hk : k.WellFormed) : (singleRow k).Rigid k where
  shaped := length_cells_singleRow
  inRange hcell := by
    obtain ⟨-, hg, heq⟩ := cell?_singleRow_eq_some hcell
    rwa [Cell.wire.inj heq]
  linked h := linked_singleRow hk h
  one {w t row register} h hcell := by
    have hlen : 2 ≤ t.length := h.two_le
    obtain ⟨hr, -, heq⟩ := cell?_singleRow_eq_some hcell
    rw [← Cell.wire.inj heq]
    exact cell_oneWire_singleRow hk h (by omega)
  const _ _ _ hcell := by
    obtain ⟨-, -, heq⟩ := cell?_singleRow_eq_some hcell
    cases heq

end Layout

end CircuitTrace
