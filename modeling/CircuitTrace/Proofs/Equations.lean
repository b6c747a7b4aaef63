import CircuitTrace.Proofs.WellFormed
import CircuitTrace.Solver

namespace CircuitTrace

/-- A variable, or a product of two. -/
def Monomial.IsProduct (S : Nat → Prop) (m : Monomial) : Prop :=
  (∃ x, S x ∧ m = var x) ∨ ∃ x y, S x ∧ S y ∧ m = var x * var y

theorem Monomial.IsProduct.within {S : Nat → Prop} {m : Monomial} (h : m.IsProduct S) :
    m.Within S := by
  rcases h with ⟨x, hx, rfl⟩ | ⟨x, y, hx, hy, rfl⟩
  · exact within_var hx
  · exact within_mul (within_var hx) (within_var hy)

namespace Constraint

theorem mem_wires_iff {c : Constraint} {wire : Nat} :
    wire ∈ c.wires.toList ↔ c.Mentions wire ∧ wire ≠ oneWire := by
  rw [SortedSet.toList, SortedMap.mem_keys_iff, wires, SortedSet.contains_ofList, List.mem_filter,
    List.mem_flatMap, bne_iff_ne]
  rfl

theorem over_toPoly (p : Nat) (c : Constraint) :
    (c.toPoly p).Over (Monomial.IsProduct c.Mentions) := by
  refine over_substitute (Q := fun m => ∃ x, c.Mentions x ∧ m = .var x)
    (T := Monomial.IsProduct c.Mentions) ?_ ?_ ?_
  · intro x hx
    exact Poly.over_term ⟨x, hx, rfl⟩ 1
  · rintro _ _ ⟨x, hx, rfl⟩ ⟨y, hy, rfl⟩
    exact .inr ⟨x, y, hx, hy, rfl⟩
  · exact fun m => .inl

end Constraint

/-- An equation looks up no wire but the first `n`, in whichever of its parts. -/
structure Equation.InRange (n : Nat) (e : Equation) : Prop where
  wires : ∀ wire ∈ e.wires, wire < n
  constraint : ∀ wire, e.constraint.Mentions wire → wire < n
  poly : e.poly.Over (Monomial.Within (· < n))

/-- A single wire of a constraint is unknown. -/
theorem Equation.unknowns_eq_singleton_iff {p index wire : Nat} {c : Constraint}
    {values : Nat → Option Nat} : (ofConstraint p index c).unknowns values = [wire] ↔
      ∀ x, x ∈ c.wires.toList ∧ values x = none ↔ x = wire := by
  have hmem (x : Nat) : x ∈ (ofConstraint p index c).unknowns values ↔
      x ∈ c.wires.toList ∧ values x = none := by
    rw [← Option.isNone_iff_eq_none]
    exact List.mem_filter
  have hnodup : ((ofConstraint p index c).unknowns values).Nodup := c.wires.keys_nodup.filter _
  rw [← List.perm_singleton, List.perm_ext_iff_of_nodup hnodup (List.nodup_singleton wire)]
  simp only [hmem, List.mem_singleton]

/-- Where the constant wire is known, the single unknown wire is the only one that has no value. -/
theorem Equation.eq_of_mentions {p index wire x : Nat} {c : Constraint} {values : Nat → Option Nat}
    (hone : (values oneWire).isSome) (hunknown : (ofConstraint p index c).unknowns values = [wire])
    (hx : c.Mentions x) (hnone : values x = none) : x = wire := by
  have hx0 : x ≠ oneWire := by
    rintro rfl
    simp [hnone] at hone
  exact (unknowns_eq_singleton_iff.1 hunknown x).1
    ⟨Constraint.mem_wires_iff.2 ⟨hx, hx0⟩, hnone⟩

theorem Equation.InRange.lt_of_unknowns {n wire : Nat} {e : Equation} {values : Nat → Option Nat}
    (he : e.InRange n) (h : e.unknowns values = [wire]) : wire < n := by
  have hmem : wire ∈ e.unknowns values := by simp [h]
  exact he.wires wire (List.mem_filter.1 hmem).1

namespace Solver

variable {s : Solver}

theorem getElem?_equations (s : Solver) (i : Nat) : s.equations[i]? =
    s.circuit.constraints[i]?.map (.ofConstraint s.circuit.prime i) := by
  rw [equations, List.getElem?_map, List.getElem?_zipIdx, Option.map_map, Nat.zero_add]
  rfl

theorem mem_equations_iff {e : Equation} : e ∈ s.equations ↔
    ∃ i c, s.circuit.constraints[i]? = some c ∧ e = .ofConstraint s.circuit.prime i c := by
  rw [equations, List.mem_map]
  constructor
  · rintro ⟨⟨c, i⟩, hmem, rfl⟩
    exact ⟨i, c, List.mem_zipIdx_iff_getElem?.1 hmem, rfl⟩
  · rintro ⟨i, c, hc, rfl⟩
    exact ⟨(c, i), List.mem_zipIdx_iff_getElem?.2 hc, rfl⟩

theorem inRange_equations (hk : s.circuit.WellFormed) :
    ∀ e ∈ s.equations, e.InRange s.circuit.wireCount := by
  intro e he
  obtain ⟨i, c, hc, rfl⟩ := mem_equations_iff.1 he
  have hwires := hk.wires c (List.mem_of_getElem? hc)
  refine ⟨?_, hwires, ?_⟩
  · intro wire hwire
    exact hwires wire (Constraint.mem_wires_iff.1 hwire).1
  · intro t ht
    exact (c.over_toPoly s.circuit.prime t ht).within.mono hwires

theorem lt_of_unknowns (hk : s.circuit.WellFormed) {e : Equation} (he : e ∈ s.equations)
    {values : Nat → Option Nat} {wire : Nat} (h : e.unknowns values = [wire]) :
    wire < s.circuit.wireCount := (inRange_equations hk e he).lt_of_unknowns h

end Solver

end CircuitTrace
