import CircuitTrace.Proofs.Uniqueness

/-!
The wires whose values follow one at a time. A constraint leads to a wire when the values of its
other wires are there and what they leave of it still has the wire. Starting from the constant wire
and the inputs, which wires are reached does not depend on the order of the constraints, and a
solver that has nothing left to eliminate knows all of them.
-/
namespace CircuitTrace

/-- What is left of a constraint when all wires but one have their values. -/
def Constraint.residualIn (p : Nat) (v : Nat → Nat) (wire : Nat) (c : Constraint) : Poly :=
  (c.toPoly p).evalPartial p fun x => if x = wire then none else some (v x)

namespace Circuit

/-- A wire whose value follows from the inputs, when the wires hold `v`. -/
inductive Resolved (k : Circuit) (v : Nat → Nat) : Nat → Prop
  | one : Resolved k v oneWire
  | input {wire : Nat} (h : wire ∈ k.inputWires.toList) : Resolved k v wire
  | constraint {c : Constraint} {wire : Nat} (hc : c ∈ k.constraints)
      (hwire : wire ∈ c.wires.toList)
      (hothers : ∀ x ∈ c.wires.toList, x ≠ wire → Resolved k v x)
      (hdepends : wire ∈ (c.residualIn k.prime v wire).vars) : Resolved k v wire

/-- Only the set of constraints counts. -/
theorem Resolved.mono {k k' : Circuit} {v : Nat → Nat} {wire : Nat} (hprime : k.prime = k'.prime)
    (hinputs : k.inputWires = k'.inputWires) (hsub : ∀ c ∈ k.constraints, c ∈ k'.constraints)
    (h : k.Resolved v wire) : k'.Resolved v wire := by
  induction h with
  | one => exact .one
  | input h => exact .input (hinputs ▸ h)
  | constraint hc hwire _ hdepends ih =>
    exact .constraint (hsub _ hc) hwire ih (hprime ▸ hdepends)

/-- Reduced values of the wires that satisfy a circuit and have given inputs. -/
structure Model (k : Circuit) (inputs : List Nat) (v : Nat → Nat) : Prop where
  solution : k.Solution inputs fun x => (v x : ZMod k.prime)
  reduced : ∀ x, v x < k.prime

theorem Model.eq_of_cast {k : Circuit} {inputs : List Nat} {v : Nat → Nat} (h : k.Model inputs v)
    {x y : Nat} (heq : (v x : ZMod k.prime) = y) : v x = y % k.prime := by
  have hmod := Residue.reduce_eq_reduce_iff.2 heq
  rwa [Residue.reduce, Nat.mod_eq_of_lt (h.reduced x)] at hmod

/-- A witness is a model once its values are reduced. -/
theorem Solves.model {k : Circuit} {inputs : List Nat} {w : Witness} (hk : k.WellFormed)
    (h : k.Solves inputs w) : k.Model inputs (Witness.ofValues k.prime w.values).value where
  solution := by
    have hcast : (fun x => ((Witness.ofValues k.prime w.values).value x : ZMod k.prime)) =
        fun x => (w.value x : ZMod k.prime) := by
      funext x
      rw [Witness.value_ofValues, Residue.cast_reduce]
    rw [hcast]
    exact h.solution hk
  reduced x := by
    rw [Witness.value_ofValues]
    exact Nat.mod_lt _ hk.prime_pos

end Circuit

namespace Equation

variable {p index wire : Nat} {c : Constraint} {values : Nat → Option Nat} {v : Nat → Nat}

/-- With a single unknown wire, nothing but this wire is left open. -/
theorem residual_eq_residualIn (hvalues : ∀ x y, values x = some y → y = v x)
    (hone : (values oneWire).isSome)
    (hunknown : (ofConstraint p index c).unknowns values = [wire]) :
    (ofConstraint p index c).residual p values = c.residualIn p v wire := by
  rw [unknowns_eq_singleton_iff] at hunknown
  apply Poly.evalPartial_congr
  intro t ht e he
  have hmentions := (c.over_toPoly p t ht).within e he
  by_cases hwire : e.1 = wire
  · rw [if_pos hwire]
    exact ((hunknown e.1).2 hwire).2
  · rw [if_neg hwire]
    cases hvalue : values e.1 with
    | some y => rw [hvalues e.1 y hvalue]
    | none =>
      have hne : e.1 ≠ oneWire := by
        intro heq
        rw [heq] at hvalue
        simp [hvalue] at hone
      have hin : e.1 ∈ c.wires.toList := Constraint.mem_wires_iff.2 ⟨hmentions, hne⟩
      exact absurd ((hunknown e.1).1 ⟨hin, hvalue⟩) hwire

/-- An equation from which nothing can be eliminated: it has several unknown wires or none, or the
single one has cancelled. -/
def Idle (p : Nat) (values : Nat → Option Nat) (e : Equation) : Prop :=
  ∀ wire, e.unknowns values = [wire] → wire ∉ (e.residual p values).vars

end Equation

namespace Solver

variable {s : Solver} {inputs : List Nat} {v : Nat → Nat} {n : Nat} {a b : Assignment n}

/-- An assignment that knows values of a model, and only those of resolved wires. -/
structure Derived (s : Solver) (v : Nat → Nat) (a : Assignment n) : Prop where
  one : a.get? oneWire = some 1
  value : ∀ wire x, a.get? wire = some x → x = v wire
  resolved : ∀ wire x, a.get? wire = some x → s.circuit.Resolved v wire

theorem Started.derived (hk : s.circuit.WellFormed) (hv : s.circuit.Model inputs v)
    (h : s.Started inputs a) : s.Derived v a where
  one := h.one
  value wire x hx := by
    rcases h.only wire x hx with ⟨rfl, rfl⟩ | ⟨y, hy, rfl⟩
    · have hone : (v oneWire : ZMod s.circuit.prime) = (1 : Nat) := by simpa using hv.solution.one
      rw [hv.eq_of_cast hone, Nat.mod_eq_of_lt hk.one_lt_prime]
    · exact (hv.eq_of_cast (hv.solution.given wire y hy)).symm
  resolved wire x hx := by
    rcases h.only wire x hx with ⟨rfl, rfl⟩ | ⟨y, hy, rfl⟩
    · exact .one
    · exact .input (List.of_mem_zip hy).1

section Elimination

variable {e : Equation} {wire : Nat}

/-- At a plain residual a solver finds the value of the model, or nothing because the wire has
cancelled. -/
theorem Derived.solveFor_cases (hprime : s.circuit.prime.Prime) (hv : s.circuit.Model inputs v)
    (ha : s.Derived v a) (he : e ∈ s.equations) (hunknown : e.unknowns a.get? = [wire])
    (hplain : (e.residual s.circuit.prime a.get?).Plain wire) :
    (e.solveFor s.circuit.prime a.get? wire = .ok (some (v wire)) ∧
        s.Derived v (a.assign wire (v wire))) ∨
      (e.solveFor s.circuit.prime a.get? wire = .ok none ∧
        wire ∉ (e.residual s.circuit.prime a.get?).vars) := by
  obtain ⟨i, c, hc, rfl⟩ := mem_equations_iff.1 he
  have hconstraint := List.mem_of_getElem? hc
  have := Fact.mk hprime
  have hone : (a.get? oneWire).isSome := by simp [ha.one]
  have hq := Equation.quadratic_residual hone hunknown
  by_cases hwire :
      wire ∈ ((Equation.ofConstraint s.circuit.prime i c).residual s.circuit.prime a.get?).vars
  · have hreduced : ((Equation.ofConstraint s.circuit.prime i c).residual s.circuit.prime
        a.get?).Reduced s.circuit.prime :=
      Poly.reduced_evalPartial hprime.pos (c.reduced_toPoly hprime.pos)
    obtain ⟨value, hvalue⟩ := Equation.exists_solveFor hq hreduced hplain hwire
    have hknown : ∀ x y, a.get? x = some y → (v x : ZMod s.circuit.prime) = y := by
      intro x y hy
      rw [ha.value x y hy]
    have hcast := Equation.eq_of_solveFor hknown (hv.solution.zero c hconstraint) hone hunknown
      hplain hvalue
    have hlt := Equation.solveFor_lt hprime.pos hvalue
    have heq : v wire = value := by rw [hv.eq_of_cast hcast, Nat.mod_eq_of_lt hlt]
    have hresolved : s.circuit.Resolved v wire := by
      have hsingle := Equation.unknowns_eq_singleton_iff.1 hunknown
      refine .constraint hconstraint ((hsingle wire).2 rfl).1 ?_ ?_
      · intro x hx hne
        -- The other wires are known, as this one is the only unknown.
        cases hx' : a.get? x with
        | some y => exact ha.resolved x y hx'
        | none => exact absurd ((hsingle x).1 ⟨hx, hx'⟩) hne
      · rwa [← Equation.residual_eq_residualIn ha.value hone hunknown]
    refine .inl ⟨heq ▸ hvalue, extends_assign_of_unknowns hunknown _ _ _ ha.one, ?_, ?_⟩
    · intro x y hy
      rw [Assignment.get?_assign] at hy
      split at hy
      · rename_i hx
        rw [← hx.1]
        exact (Option.some.inj hy).symm
      · exact ha.value x y hy
    · intro x y hy
      rw [Assignment.get?_assign] at hy
      split at hy
      · rename_i hx
        rw [← hx.1]
        exact hresolved
      · exact ha.resolved x y hy
  · exact .inr ⟨Equation.solveFor_of_notMem_vars hq hwire, hwire⟩

end Elimination

/-- Where no equation leads further, all resolved wires are known. -/
theorem Derived.isSome_of_resolved (hstart : s.Started inputs a) (hextends : a.Extends b)
    (hb : s.Derived v b) (hidle : ∀ e ∈ s.equations, e.Idle s.circuit.prime b.get?) {wire : Nat}
    (h : s.circuit.Resolved v wire) : (b.get? wire).isSome = true := by
  induction h with
  | one => simp [hb.one]
  | @input wire hwire =>
    obtain ⟨value, hvalue⟩ := Option.isSome_iff_exists.1 (hstart.isSome_iff.2 (.inr hwire))
    simp [hextends _ _ hvalue]
  | @constraint c wire hc hwire _ hdepends ih =>
    by_contra hnone
    obtain ⟨i, hi⟩ := List.mem_iff_getElem?.1 hc
    have he : Equation.ofConstraint s.circuit.prime i c ∈ s.equations :=
      mem_equations_iff.2 ⟨i, c, hi, rfl⟩
    have hunknown : (Equation.ofConstraint s.circuit.prime i c).unknowns b.get? = [wire] := by
      rw [Equation.unknowns_eq_singleton_iff]
      intro x
      constructor
      · rintro ⟨hx, hxnone⟩
        by_contra hne
        have hsome := ih x hx hne
        simp [hxnone] at hsome
      · rintro rfl
        exact ⟨hwire, by simpa using hnone⟩
    have hone : (b.get? oneWire).isSome := by simp [hb.one]
    apply hidle _ he wire hunknown
    rwa [Equation.residual_eq_residualIn hb.value hone hunknown]

end Solver

end CircuitTrace
