import CircuitTrace.Proofs.Inversion
import CircuitTrace.Proofs.Substitution
import CircuitTrace.Trace.Program

namespace CircuitTrace

theorem getElem?_eq_some_getD {α : Type} {l : List α} {i : Nat} (h : i < l.length) (d : α) :
    l[i]? = some (l.getD i d) := by
  rw [List.getElem?_eq_getElem h, List.getD_eq_getElem _ _ h]

theorem getD_mem {α : Type} {l : List α} {i : Nat} (h : i < l.length) (d : α) :
    l.getD i d ∈ l := by
  rw [List.getD_eq_getElem _ _ h]
  exact List.getElem_mem h

namespace Trace

/-- A cell, and zero where the trace has none. -/
def cell (t : Trace) (row register : Nat) : Nat := (t.getD row []).getD register 0

/-- All rows have the same number of cells. -/
def Shaped (t : Trace) (n : Nat) : Prop := ∀ cells ∈ t, cells.length = n

/-- The variables of a transition constraint on a row and the next. -/
def values (p : Nat) (t : Trace) (row x : Nat) : Option Nat :=
  (Registers.assignment p row (t.getD row []) (t.getD (row + 1) []))[x]?

/-- A polynomial on a row and the next, over `ZMod p`. -/
noncomputable def value (p : Nat) (t : Trace) (row : Nat) (a : Poly) : ZMod p :=
  MvPolynomial.eval (Poly.valuation p (t.values p row)) (a.toMvPolynomial p)

variable {p n : Nat} {t : Trace} {row : Nat}

theorem Shaped.length_getD (h : t.Shaped n) (hr : row < t.length) :
    (t.getD row []).length = n :=
  h _ (getD_mem hr [])

theorem getElem?_cell {register : Nat} (hr : row < t.length)
    (hc : register < (t.getD row []).length) :
    t[row]?.bind (fun cells => cells[register]?) = some (t.cell row register) := by
  rw [getElem?_eq_some_getD hr [], Option.bind_some, getElem?_eq_some_getD hc 0, cell]

theorem values_cycle : t.values p row Registers.cycle = some (Residue.reduce p row) := rfl

theorem values_current (h : t.Shaped n) (hr : row < t.length) {i : Nat} (hi : i < n) :
    t.values p row (Registers.current ⟨n⟩ i) = some (t.cell row i) := by
  have hl : i < (t.getD row []).length := by rwa [h.length_getD hr]
  rw [values, Registers.assignment, Registers.current, Nat.add_comm 1 i, List.cons_append,
    List.getElem?_cons_succ, List.getElem?_append_left hl, getElem?_eq_some_getD hl 0, cell]

theorem values_next (h : t.Shaped n) (hr : row + 1 < t.length) {i : Nat} (hi : i < n) :
    t.values p row (Registers.next ⟨n⟩ i) = some (t.cell (row + 1) i) := by
  have hl : (t.getD row []).length = n := h.length_getD (by omega)
  have hl' : i < (t.getD (row + 1) []).length := by rwa [h.length_getD hr]
  rw [values, Registers.assignment, Registers.next, show 1 + n + i = n + i + 1 by omega,
    List.cons_append, List.getElem?_cons_succ, List.getElem?_append_right (by omega), hl,
    Nat.add_sub_cancel_left, getElem?_eq_some_getD hl' 0, cell]

theorem isSome_values (h : t.Shaped n) (hr : row + 1 < t.length) {x : Nat}
    (hx : x < Registers.varCount ⟨n⟩) : (t.values p row x).isSome := by
  have hl : (t.getD row []).length = n := h.length_getD (by omega)
  have hl' : (t.getD (row + 1) []).length = n := h.length_getD hr
  have hlen : x < (Registers.assignment p row (t.getD row []) (t.getD (row + 1) [])).length := by
    simp only [Registers.varCount] at hx
    rw [Registers.assignment, List.cons_append, List.length_cons, List.length_append]
    omega
  rw [values, List.getElem?_eq_getElem hlen, Option.isSome_some]

section Value

variable (p t row)

@[simp] theorem value_const (c : Nat) : t.value p row (.const c) = (c : ZMod p) := by
  rw [value, Poly.toMvPolynomial_const, MvPolynomial.eval_C]

@[simp] theorem value_one : t.value p row .one = 1 := by
  rw [value, Poly.toMvPolynomial_one, map_one]

@[simp] theorem value_add (a b : Poly) :
    t.value p row (a.add p b) = t.value p row a + t.value p row b := by
  rw [value, Poly.toMvPolynomial_add, map_add, value, value]

theorem value_mul {a b : Poly} (h : a.Fits b) :
    t.value p row (a.mul p b) = t.value p row a * t.value p row b := by
  rw [value, Poly.toMvPolynomial_mul h, map_mul, value, value]

theorem value_sub (a : Poly) {b : Poly} (hb : b.Reduced p) :
    t.value p row (a.sub p b) = t.value p row a - t.value p row b := by
  rw [value, hb.toMvPolynomial_sub, map_sub, value, value]

@[simp] theorem value_cyclePoly : t.value p row Registers.cyclePoly = (row : ZMod p) := by
  rw [value, Registers.cyclePoly, Poly.toMvPolynomial_var, MvPolynomial.eval_X, Poly.valuation,
    values_cycle, Option.getD_some, Residue.cast_reduce]

end Value

theorem value_currentPoly (h : t.Shaped n) (hr : row < t.length) {i : Nat} (hi : i < n) :
    t.value p row (Registers.currentPoly ⟨n⟩ i) = (t.cell row i : ZMod p) := by
  rw [value, Registers.currentPoly, Poly.toMvPolynomial_var, MvPolynomial.eval_X, Poly.valuation,
    values_current h hr hi, Option.getD_some]

theorem value_nextPoly (h : t.Shaped n) (hr : row + 1 < t.length) {i : Nat} (hi : i < n) :
    t.value p row (Registers.nextPoly ⟨n⟩ i) = (t.cell (row + 1) i : ZMod p) := by
  rw [value, Registers.nextPoly, Poly.toMvPolynomial_var, MvPolynomial.eval_X, Poly.valuation,
    values_next h hr hi, Option.getD_some]

theorem value_eq_zero {a : Poly} (h : a.eval p (t.values p row) = .ok 0) :
    t.value p row a = 0 := by
  rw [value, ← Poly.eval_cast h, Nat.cast_zero]

end Trace

namespace Poly

/-- The variables of a polynomial are the row index and registers of a row and the next. -/
def InPair (n : Nat) (a : Poly) : Prop := a.Over (Monomial.Within (· < Registers.varCount ⟨n⟩))

section InPair

variable {p n : Nat} {a b : Poly}

theorem inPair_iff : a.InPair n ↔ ∀ x ∈ a.vars, x ≤ 2 * n := by
  rw [InPair, over_within_iff]
  exact forall₂_congr fun x _ => Nat.lt_succ_iff

theorem inPair_const (c : Nat) : (const c).InPair n := over_term Monomial.within_one c

theorem inPair_one : one.InPair n := inPair_const 1

theorem inPair_var {x : Nat} (h : x < Registers.varCount ⟨n⟩) : (var x).InPair n := by
  have hm : (Monomial.var x).Within (· < Registers.varCount ⟨n⟩) := Monomial.within_var h
  exact over_term hm 1

theorem inPair_cyclePoly : Registers.cyclePoly.InPair n := by
  apply inPair_var
  simp only [Registers.varCount, Registers.cycle]
  omega

theorem inPair_currentPoly {i : Nat} (h : i < n) : (Registers.currentPoly ⟨n⟩ i).InPair n := by
  apply inPair_var
  simp only [Registers.varCount, Registers.current]
  omega

theorem inPair_nextPoly {i : Nat} (h : i < n) : (Registers.nextPoly ⟨n⟩ i).InPair n := by
  apply inPair_var
  simp only [Registers.varCount, Registers.next]
  omega

theorem inPair_add (ha : a.InPair n) (hb : b.InPair n) : (add p a b).InPair n := over_add ha hb

theorem inPair_sub (ha : a.InPair n) (hb : b.InPair n) : (sub p a b).InPair n := over_sub ha hb

theorem inPair_mul (ha : a.InPair n) (hb : b.InPair n) : (mul p a b).InPair n :=
  over_mul ha hb fun _ _ => Monomial.within_mul

theorem inPair_substitute {f : Nat → Poly} {k : Constraint}
    (h : ∀ w, k.Mentions w → (f w).InPair n) : (k.substitute p f).InPair n :=
  Constraint.over_substitute h (fun _ _ => Monomial.within_mul) fun _ => id

/-- On a trace of the right shape the check never misses a variable. -/
theorem InPair.exists_eval {t : Trace} {row : Nat} (h : a.InPair n) (hs : t.Shaped n)
    (hr : row + 1 < t.length) : ∃ r, a.eval p (t.values p row) = .ok r :=
  Poly.exists_eval fun m hm => (h m hm).mono fun _ hx => Trace.isSome_values hs hr hx

theorem InPair.eval_eq_zero_iff {t : Trace} {row : Nat} (hp : 0 < p) (h : a.InPair n)
    (hs : t.Shaped n) (hr : row + 1 < t.length) :
    a.eval p (t.values p row) = .ok 0 ↔ t.value p row a = 0 :=
  Poly.eval_eq_zero_iff hp fun m hm => (h m hm).mono fun _ hx => Trace.isSome_values hs hr hx

end InPair

end Poly

namespace Program

variable {g : Program}

/-- All transition constraints vanish on a row and the next. -/
def VanishesAt (g : Program) (row : Nat) : Prop :=
  ∀ a ∈ g.transitions, a.eval g.modulus (g.trace.values g.modulus row) = .ok 0

/-- A boundary constraint has its cell, and the right residue in it. -/
def Holds (g : Program) (b : BoundaryConstraint) : Prop :=
  (g.cell? b).map (Residue.reduce g.modulus) = some (Residue.reduce g.modulus b.value)

theorem checkShape_eq_ok_iff : g.checkShape = .ok () ↔ g.trace.Shaped g.registerCount := by
  rw [checkShape, forM_eq_ok_iff]
  constructor
  · intro h cells hc
    obtain ⟨i, hi, rfl⟩ := List.mem_iff_getElem.1 hc
    have hrow := h (g.trace[i], i) (List.mem_zipIdx_iff_getElem?.2 (by simp [hi]))
    by_contra hne
    simp [hne] at hrow
  · rintro h ⟨cells, row⟩ hc
    have hcells := h cells (List.fst_mem_of_mem_zipIdx hc)
    simp [hcells]

/-- The check of the pair of rows that begins with a row. -/
def checkPair (g : Program) (row : Nat) : Except TraceError Unit :=
  g.checkTransitionsAt row (Registers.assignment g.modulus row (g.trace.getD row [])
    (g.trace.getD (row + 1) [])).toArray

theorem getElem_pairs {i : Nat} (hi : i < (g.trace.zip g.trace.tail).zipIdx.length) :
    (g.trace.zip g.trace.tail).zipIdx[i] =
      ((g.trace.getD i [], g.trace.getD (i + 1) []), i) := by
  have hlen : i + 1 < g.trace.length := by
    rw [List.length_zipIdx, List.length_zip, List.length_tail] at hi
    omega
  rw [List.getElem_zipIdx, List.getElem_zip, List.getElem_tail, List.getD_eq_getElem _ _ hlen,
    List.getD_eq_getElem _ _ (by omega), Nat.zero_add]

/-- What the value of a transition constraint means for the check. -/
def verdict (constraint row : Nat) : Except Poly.EvalError Nat → Except TraceError Unit
  | .ok 0 => .ok ()
  | .ok (_ + 1) => .error (.transitionViolation constraint row)
  | .error e => .error (.poly e)

theorem verdict_eq_ok_iff {c row : Nat} {x : Except Poly.EvalError Nat} :
    verdict c row x = .ok () ↔ x = .ok 0 := by
  cases x with
  | error e => simp [verdict]
  | ok r => cases r <;> simp [verdict]

/-- Of a constraint that has a value, only a violation is reported. -/
theorem violation_of_verdict {c row r : Nat} {e : TraceError}
    (h : verdict c row (.ok r) = .error e) : r ≠ 0 ∧ e = .transitionViolation c row := by
  cases r with
  | zero => cases h
  | succ r => exact ⟨Nat.succ_ne_zero r, (Except.error.inj h).symm⟩

theorem checkPair_eq (row : Nat) : g.checkPair row = g.transitions.zipIdx.forM fun x =>
    verdict x.2 row (x.1.eval g.modulus (g.trace.values g.modulus row)) := by
  rw [checkPair, checkTransitionsAt]
  simp only [List.getElem?_toArray]
  congr 1
  funext x
  change _ = verdict x.2 row (x.1.eval g.modulus fun y =>
    (Registers.assignment g.modulus row (g.trace.getD row []) (g.trace.getD (row + 1) []))[y]?)
  generalize x.1.eval g.modulus _ = r
  rcases r with e | _ | r <;> rfl

theorem checkPair_eq_ok_iff {row : Nat} : g.checkPair row = .ok () ↔ g.VanishesAt row := by
  rw [checkPair_eq, forM_eq_ok_iff]
  constructor
  · intro h a ha
    obtain ⟨i, hi, rfl⟩ := List.mem_iff_getElem.1 ha
    exact verdict_eq_ok_iff.1
      (h (g.transitions[i], i) (List.mem_zipIdx_iff_getElem?.2 (by simp [hi])))
  · intro h x hx
    exact verdict_eq_ok_iff.2 (h x.1 (List.fst_mem_of_mem_zipIdx hx))

theorem checkTransitions_eq_ok_iff :
    g.checkTransitions = .ok () ↔ ∀ row, row + 1 < g.trace.length → g.VanishesAt row := by
  rw [checkTransitions, forM_eq_ok_iff]
  constructor
  · intro h row hr
    have hi : row < (g.trace.zip g.trace.tail).zipIdx.length := by
      rw [List.length_zipIdx, List.length_zip, List.length_tail]
      omega
    have hrow := h _ (List.getElem_mem hi)
    rw [getElem_pairs] at hrow
    exact checkPair_eq_ok_iff.1 hrow
  · intro h x hx
    obtain ⟨i, hi, rfl⟩ := List.mem_iff_getElem.1 hx
    rw [getElem_pairs]
    apply checkPair_eq_ok_iff.2
    apply h
    rw [List.length_zipIdx, List.length_zip, List.length_tail] at hi
    omega

instance {b : BoundaryConstraint} : Decidable (g.Holds b) := inferInstanceAs (Decidable (_ = _))

theorem checkBoundary_eq : g.checkBoundary = g.boundary.forM fun b =>
    if g.Holds b then .ok () else .error (.boundaryViolation b.row b.register) := rfl

theorem checkBoundary_eq_ok_iff : g.checkBoundary = .ok () ↔ ∀ b ∈ g.boundary, g.Holds b := by
  rw [checkBoundary_eq, forM_eq_ok_iff]
  simp

theorem check_eq : g.check = if g.trace.length < 2 then .error (.tooShort g.trace.length)
    else g.checkShape >>= fun _ => g.checkTransitions >>= fun _ => g.checkBoundary := by
  rw [check]
  split <;> rfl

theorem check_eq_ok_iff : g.check = .ok () ↔
    2 ≤ g.trace.length ∧ g.trace.Shaped g.registerCount ∧
      (∀ row, row + 1 < g.trace.length → g.VanishesAt row) ∧ ∀ b ∈ g.boundary, g.Holds b := by
  rw [check_eq, ← checkShape_eq_ok_iff, ← checkTransitions_eq_ok_iff, ← checkBoundary_eq_ok_iff]
  split
  · simp
    omega
  · rename_i hlen
    cases hs : g.checkShape with
    | error e => simp [bind, Except.bind]
    | ok u =>
      cases ht : g.checkTransitions with
      | error e => simp [bind, Except.bind]
      | ok u => simpa [bind, Except.bind] using fun _ => by omega

/-- What is checked later has no say in an error. -/
theorem check_eq_error_cases {e : TraceError} : g.check = .error e ↔
    g.trace.length < 2 ∧ e = .tooShort g.trace.length ∨
    2 ≤ g.trace.length ∧ g.checkShape = .error e ∨
    2 ≤ g.trace.length ∧ g.checkShape = .ok () ∧ g.checkTransitions = .error e ∨
    2 ≤ g.trace.length ∧ g.checkShape = .ok () ∧ g.checkTransitions = .ok () ∧
      g.checkBoundary = .error e := by
  rw [check_eq]
  split
  · rename_i hlen
    have hnot : ¬2 ≤ g.trace.length := by omega
    simp [hlen, hnot, eq_comm]
  · rename_i hlen
    have hle : 2 ≤ g.trace.length := by omega
    cases hs : g.checkShape with
    | error d => simp [bind, Except.bind, hlen, hle]
    | ok u =>
      cases ht : g.checkTransitions with
      | error d => simp [bind, Except.bind, hlen, hle]
      | ok u => simp [bind, Except.bind, hlen, hle]

theorem check_eq_ok_bounds (h : g.check = .ok ()) :
    2 ≤ g.trace.length ∧ g.trace.Shaped g.registerCount :=
  ⟨(check_eq_ok_iff.1 h).1, (check_eq_ok_iff.1 h).2.1⟩

/-- On an accepted trace the transition constraints are zero over `ZMod p`. -/
theorem value_of_check (h : g.check = .ok ()) {row : Nat} (hr : row + 1 < g.trace.length) {a : Poly}
    (ha : a ∈ g.transitions) : g.trace.value g.modulus row a = 0 :=
  Trace.value_eq_zero ((check_eq_ok_iff.1 h).2.2.1 row hr a ha)

/-- A boundary constraint that holds speaks of a cell of the trace. -/
theorem Holds.row_lt {b : BoundaryConstraint} (h : g.Holds b) : b.row < g.trace.length := by
  by_contra hr
  rw [Holds, cell?, List.getElem?_eq_none (by omega)] at h
  simp at h

theorem holds_iff (hs : g.trace.Shaped g.registerCount) {b : BoundaryConstraint}
    (hr : b.row < g.trace.length) (hc : b.register < g.registerCount) :
    g.Holds b ↔ (g.trace.cell b.row b.register : ZMod g.modulus) = b.value := by
  rw [Holds, cell?, Trace.getElem?_cell hr (by rwa [hs.length_getD hr]), Option.map_some,
    Option.some_inj, Residue.reduce_eq_reduce_iff]

/-- The transitions fail at the first pair of rows that does. -/
theorem checkTransitions_eq_error_iff {e : TraceError} : g.checkTransitions = .error e ↔
    ∃ row, row + 1 < g.trace.length ∧ g.checkPair row = .error e ∧
      ∀ row' < row, g.checkPair row' = .ok () := by
  have hlen (row : Nat) :
      row < (g.trace.zip g.trace.tail).zipIdx.length ↔ row + 1 < g.trace.length := by
    rw [List.length_zipIdx, List.length_zip, List.length_tail]
    omega
  rw [checkTransitions, forM_eq_error_iff]
  constructor
  · rintro ⟨row, hi, hrow, hbefore⟩
    rw [getElem_pairs] at hrow
    refine ⟨row, (hlen row).1 hi, hrow, fun row' hlt => ?_⟩
    have hpair := hbefore row' hlt
    rwa [getElem_pairs] at hpair
  · rintro ⟨row, hr, hrow, hbefore⟩
    refine ⟨row, (hlen row).2 hr, ?_, fun row' hlt => ?_⟩
    · rw [getElem_pairs]
      exact hrow
    · rw [getElem_pairs]
      exact hbefore row' hlt

/-- A pair of rows fails at the first constraint that is not zero there, by what its value means. -/
theorem checkTransitions_eq_error {e : TraceError} (h : g.checkTransitions = .error e) :
    ∃ row c, row + 1 < g.trace.length ∧ c < g.transitions.length ∧
      verdict c row ((g.transitions.getD c .zero).eval g.modulus
        (g.trace.values g.modulus row)) = .error e ∧
      (∀ c' < c,
        (g.transitions.getD c' .zero).eval g.modulus (g.trace.values g.modulus row) = .ok 0) ∧
      ∀ row' < row, g.VanishesAt row' := by
  obtain ⟨row, hr, hrow, hbefore⟩ := checkTransitions_eq_error_iff.1 h
  rw [checkPair_eq] at hrow
  obtain ⟨c, hc, hcon, hfirst⟩ := forM_eq_error hrow
  rw [List.length_zipIdx] at hc
  simp only [List.getElem_zipIdx, Nat.zero_add] at hcon hfirst
  refine ⟨row, c, hr, hc, ?_, ?_, fun row' hlt => checkPair_eq_ok_iff.1 (hbefore row' hlt)⟩
  · rwa [List.getD_eq_getElem _ _ hc]
  · intro c' hlt
    rw [List.getD_eq_getElem _ _ (by omega)]
    exact verdict_eq_ok_iff.1 (hfirst c' hlt)

/-- A trace of the right shape that meets its boundary fails at the first pair of rows on which a
transition constraint fails, and there at the first such constraint. -/
theorem check_eq_error {e : TraceError} (hlen : 2 ≤ g.trace.length)
    (hs : g.trace.Shaped g.registerCount) (hb : ∀ b ∈ g.boundary, g.Holds b)
    (hev : ∀ row, row + 1 < g.trace.length → ∀ a ∈ g.transitions,
      ∃ r, a.eval g.modulus (g.trace.values g.modulus row) = .ok r)
    (h : g.check = .error e) :
    ∃ row c, row + 1 < g.trace.length ∧ c < g.transitions.length ∧
      e = .transitionViolation c row ∧
      (g.transitions.getD c .zero).eval g.modulus (g.trace.values g.modulus row) ≠ .ok 0 ∧
      (∀ c' < c,
        (g.transitions.getD c' .zero).eval g.modulus (g.trace.values g.modulus row) = .ok 0) ∧
      ∀ row' < row, g.VanishesAt row' := by
  rw [check_eq, if_neg (by omega), checkShape_eq_ok_iff.2 hs, checkBoundary_eq_ok_iff.2 hb] at h
  have ht : g.checkTransitions = .error e := by
    cases ht : g.checkTransitions with
    | error d => simpa [ht, bind, Except.bind] using h
    | ok u => simp [ht, bind, Except.bind] at h
  obtain ⟨row, c, hr, hc, hverdict, hfirst, hbefore⟩ := checkTransitions_eq_error ht
  obtain ⟨r, hval⟩ := hev row hr _ (getD_mem hc _)
  rw [hval] at hverdict
  obtain ⟨hne, rfl⟩ := violation_of_verdict hverdict
  refine ⟨row, c, hr, hc, rfl, ?_, hfirst, hbefore⟩
  rw [hval]
  exact fun hzero => hne (Except.ok.inj hzero)

end Program

end CircuitTrace
