import CircuitTrace.Proofs.Reading

/-!
How the layouts of a circuit bind its wires. Each layout is shown once to be sound, complete and
rigid; what is said of accepted and of generated traces then holds for all layouts alike.
-/
namespace CircuitTrace

namespace Layout

/-- A trace passes the checks of a layout, with the public values of a witness. -/
def Accepts (l : Layout) (p : Nat) (w : Witness) (t : Trace) : Prop :=
  (l.program p w t).check = .ok ()

section Accepts

variable {l : Layout} {p : Nat} {w : Witness} {t : Trace} (h : l.Accepts p w t)
include h

theorem Accepts.two_le : 2 ≤ t.length := (Program.check_eq_ok_bounds h).1

theorem Accepts.shaped : t.Shaped l.registerCount := (Program.check_eq_ok_bounds h).2

theorem Accepts.value_eq_zero {a : Poly} (ha : a ∈ l.transitions) {row : Nat}
    (hr : row + 1 < t.length) : t.value p row a = 0 :=
  Program.value_of_check h hr ha

theorem Accepts.row_lt {row register v : Nat} (hb : ⟨row, register, v⟩ ∈ l.boundary w) :
    row < t.length :=
  Program.Holds.row_lt ((Program.check_eq_ok_iff.1 h).2.2.2 _ hb)

theorem Accepts.cell_eq {row register v : Nat} (hb : ⟨row, register, v⟩ ∈ l.boundary w)
    (hg : register < l.registerCount) : (t.cell row register : ZMod p) = v :=
  (Program.holds_iff h.shaped (h.row_lt hb) hg).1 ((Program.check_eq_ok_iff.1 h).2.2.2 _ hb)

end Accepts

/-- What is read off an accepted trace satisfies the circuit and repeats the public inputs. -/
structure Sound (l : Layout) (k : Circuit) : Prop where
  vanishes : ∀ {w t}, l.Accepts k.prime w t → ∀ c ∈ k.constraints,
    (c.value fun x => (l.read t x : ZMod k.prime)) = 0
  repeats : ∀ {w t}, l.Accepts k.prime w t →
    ∀ wire ∈ k.publicWires.toList, (l.read t wire : ZMod k.prime) = w.value wire

/-- In a generated trace each constraint of the circuit binds on one pair of rows, and whatever
else is checked holds. -/
structure Complete (l : Layout) (k : Circuit) (rowOf : Nat → Nat) : Prop where
  two_le : 2 ≤ l.rowCount
  shaped : ∀ cells ∈ l.cells, cells.length = l.registerCount
  inPair : ∀ a ∈ l.transitions, a.InPair l.registerCount
  covered : k.constraints.length ≤ l.transitions.length
  rowOf_lt : ∀ i < k.constraints.length, rowOf i + 1 < l.rowCount
  binds : ∀ {w i}, w.value oneWire = 1 → (hi : i < k.constraints.length) →
    (l.trace w).value k.prime (rowOf i) (l.transitions.getD i .zero) =
      k.constraints[i].value fun x => (w.value x : ZMod k.prime)
  free : ∀ {w i row}, i < k.constraints.length → row + 1 < l.rowCount → row ≠ rowOf i →
    (l.trace w).value k.prime row (l.transitions.getD i .zero) = 0
  auxiliary : ∀ {w row}, row + 1 < l.rowCount → ∀ a ∈ l.transitions.drop k.constraints.length,
    (l.trace w).value k.prime row a = 0
  bounded : ∀ {w}, w.value oneWire = 1 → ∀ b ∈ l.boundary w,
    (l.program k.prime w (l.trace w)).Holds b

/-- In an accepted trace the cells of each wire agree, and where no row index is zero modulo the
prime, the cells without a wire hold the constants of the layout. -/
structure Rigid (l : Layout) (k : Circuit) : Prop where
  shaped : ∀ cells ∈ l.cells, cells.length = l.registerCount
  inRange : ∀ {row register wire}, l.cell? row register = some (.wire wire) → wire < k.wireCount
  linked : ∀ {w t}, l.Accepts k.prime w t → l.Linked k.prime t
  one : ∀ {w t row register}, l.Accepts k.prime w t →
    l.cell? row register = some (.wire oneWire) → (t.cell row register : ZMod k.prime) = 1
  const : ∀ {w t row register v}, k.prime.Prime → l.rowCount ≤ k.prime →
    l.Accepts k.prime w t → l.cell? row register = some (.const v) →
    (t.cell row register : ZMod k.prime) = v

end Layout

end CircuitTrace
