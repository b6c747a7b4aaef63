import CircuitTrace.Container.Encoding
import CircuitTrace.Proofs.Compilation

namespace CircuitTrace

theorem mem_drop_of_le {α : Type} {l : List α} {i n : Nat} (hi : i < l.length) (hn : n ≤ i) :
    l[i] ∈ l.drop n := by
  rw [List.mem_drop_iff_getElem]
  refine ⟨i - n, by omega, ?_⟩
  congr 1
  omega

namespace Layout

variable {l : Layout} {k : Circuit} {rowOf : Nat → Nat} {w : Witness} {row i : Nat}

namespace Complete

variable (h : l.Complete k rowOf)
include h

theorem two_le_length : 2 ≤ (l.trace w).length := by
  rw [length_trace]
  exact h.two_le

theorem exists_eval (hr : row + 1 < l.rowCount) {a : Poly} (ha : a ∈ l.transitions) :
    ∃ r, a.eval k.prime ((l.trace w).values k.prime row) = .ok r :=
  (h.inPair a ha).exists_eval (shaped_trace h.shaped) (by rwa [length_trace])

theorem eval_eq_zero_iff (hk : k.WellFormed) (hr : row + 1 < l.rowCount) {a : Poly}
    (ha : a ∈ l.transitions) :
    a.eval k.prime ((l.trace w).values k.prime row) = .ok 0 ↔
      (l.trace w).value k.prime row a = 0 :=
  (h.inPair a ha).eval_eq_zero_iff hk.prime_pos (shaped_trace h.shaped) (by rwa [length_trace])

theorem circuit_mem (hi : i < k.constraints.length) :
    l.transitions.getD i .zero ∈ l.transitions :=
  getD_mem (Nat.lt_of_lt_of_le hi h.covered) _

/-- No constraint fails that is not from the circuit. -/
theorem auxiliary_vanishes (hk : k.WellFormed) (hr : row + 1 < l.rowCount) {a : Poly}
    (ha : a ∈ l.transitions.drop k.constraints.length) :
    a.eval k.prime ((l.trace w).values k.prime row) = .ok 0 :=
  (h.eval_eq_zero_iff hk hr (List.mem_of_mem_drop ha)).2 (h.auxiliary hr a ha)

/-- A constraint of the circuit fails on its own pair of rows alone, and there if the values violate
it. -/
theorem vanishes_iff (hk : k.WellFormed) (hone : w.value oneWire = 1) (hr : row + 1 < l.rowCount)
    (hi : i < k.constraints.length) :
    (l.transitions.getD i .zero).eval k.prime ((l.trace w).values k.prime row) = .ok 0 ↔
      (row = rowOf i → k.constraints[i].residual k.prime w.value = 0) := by
  rw [h.eval_eq_zero_iff hk hr (h.circuit_mem hi)]
  by_cases hrow : row = rowOf i
  · subst hrow
    rw [h.binds hone hi, Witness.residual_eq_zero_iff hk.prime_pos]
    exact ⟨fun hv _ => hv, fun hv => hv rfl⟩
  · rw [h.free hi hr hrow]
    exact ⟨fun _ heq => absurd heq hrow, fun _ => rfl⟩

omit h in
/-- The transition constraints of the circuit come first, the auxiliary ones behind them. -/
theorem mem_cases {a : Poly} (ha : a ∈ l.transitions) :
    (∃ i < k.constraints.length, a = l.transitions.getD i .zero) ∨
      a ∈ l.transitions.drop k.constraints.length := by
  obtain ⟨i, hi, rfl⟩ := List.mem_iff_getElem.1 ha
  by_cases hlt : i < k.constraints.length
  · exact .inl ⟨i, hlt, (List.getD_eq_getElem _ _ hi).symm⟩
  · exact .inr (mem_drop_of_le hi (by omega))

/-- A generated trace is accepted exactly if its values are a witness. -/
theorem check_iff (hk : k.WellFormed) (hsize : w.size = k.wireCount) (hone : w.value oneWire = 1) :
    (l.program k.prime w (l.trace w)).check = .ok () ↔ w.check k = .ok () := by
  rw [Program.check_eq_ok_iff, Witness.check_eq_ok_iff]
  constructor
  · rintro ⟨-, -, hvanish, -⟩
    refine ⟨hsize, hone, ?_⟩
    intro c hc
    obtain ⟨i, hi, rfl⟩ := List.mem_iff_getElem.1 hc
    have hr : rowOf i + 1 < l.rowCount := h.rowOf_lt i hi
    have hzero := hvanish (rowOf i) (by rwa [program, length_trace]) _ (h.circuit_mem hi)
    exact (h.vanishes_iff hk hone hr hi).1 hzero rfl
  · rintro ⟨-, -, hresidual⟩
    refine ⟨h.two_le_length, shaped_trace h.shaped, ?_, h.bounded hone⟩
    intro row hr a ha
    rw [program, length_trace] at hr
    rcases mem_cases ha with ⟨i, hi, rfl⟩ | ha
    · exact (h.vanishes_iff hk hone hr hi).2 fun _ => hresidual _ (List.getElem_mem hi)
    · exact h.auxiliary_vanishes hk hr ha

/-- A generated trace that is rejected fails at a constraint of the circuit, on the pair of rows
that it binds. The constraints in front of it hold, as far as they bind the same pair. -/
theorem check_eq_error (hk : k.WellFormed) (hone : w.value oneWire = 1) {e : TraceError}
    (he : (l.program k.prime w (l.trace w)).check = .error e) :
    ∃ c, ∃ hc : c < k.constraints.length, e = .transitionViolation c (rowOf c) ∧
      k.constraints[c].residual k.prime w.value ≠ 0 ∧
      ∀ c' (hc' : c' < k.constraints.length), c' < c → rowOf c' = rowOf c →
        k.constraints[c'].residual k.prime w.value = 0 := by
  obtain ⟨row, c, hr, hlt, rfl, hfail, hfirst, -⟩ := Program.check_eq_error h.two_le_length
    (shaped_trace h.shaped) (h.bounded hone)
    (fun row hr a ha => h.exists_eval (by rwa [program, length_trace] at hr) ha) he
  simp only [program, length_trace] at hr hlt hfail hfirst
  -- It is not an auxiliary constraint, and it is on its own pair: elsewhere it vanishes.
  have hc : c < k.constraints.length := by
    by_contra hc
    have hmem : l.transitions[c] ∈ l.transitions.drop k.constraints.length :=
      mem_drop_of_le hlt (by omega)
    rw [List.getD_eq_getElem _ _ hlt] at hfail
    exact hfail (h.auxiliary_vanishes hk hr hmem)
  rw [Ne, h.vanishes_iff hk hone hr hc] at hfail
  obtain ⟨rfl, hresidual⟩ := Classical.not_imp.1 hfail
  refine ⟨c, hc, rfl, hresidual, ?_⟩
  intro c' hc' hbefore heq
  exact (h.vanishes_iff hk hone hr hc').1 (hfirst c' hbefore) heq.symm

theorem checkBoundary_eq_ok (hone : w.value oneWire = 1) :
    (l.program k.prime w (l.trace w)).checkBoundary = .ok () :=
  Program.checkBoundary_eq_ok_iff.2 (h.bounded hone)

end Complete

end Layout

namespace Arithmetization

variable {k : Circuit} {config : Config} {a : Arithmetization} {w : Witness}

theorem exists_complete (hk : k.WellFormed) (h : (ofCircuit k config).outcome = .ok a) :
    ∃ rowOf, a.layout.Complete k rowOf := by
  rcases complete_layout hk h with ⟨-, hcomplete⟩ | ⟨-, packing, -, hcomplete⟩
  · exact ⟨_, hcomplete⟩
  · exact ⟨_, hcomplete⟩

theorem program_eq_ok (h : (ofCircuit k config).outcome = .ok a) (hsize : w.size = k.wireCount) :
    a.program w = .ok (a.layout.program k.prime w (a.layout.trace w)) := by
  obtain ⟨hmodulus, hwires, -⟩ := ofCircuit_eq_ok h
  rw [program_eq_ok_iff, hwires, hmodulus]
  exact ⟨hsize, rfl⟩

theorem check_iff_of_program {g : Program} (hk : k.WellFormed)
    (h : (ofCircuit k config).outcome = .ok a) (hsize : w.size = k.wireCount)
    (hone : w.value oneWire = 1) (hg : a.program w = .ok g) :
    g.check = .ok () ↔ w.check k = .ok () := by
  obtain ⟨rowOf, hcomplete⟩ := exists_complete hk h
  obtain rfl := Except.ok.inj ((program_eq_ok h hsize).symm.trans hg)
  exact hcomplete.check_iff hk hsize hone

/-- Where the check of a generated trace fails, by the strategy of the layout. -/
theorem violation_of_check {e : TraceError} (hk : k.WellFormed)
    (h : (ofCircuit k config).outcome = .ok a) (hsize : w.size = k.wireCount)
    (hone : w.value oneWire = 1)
    (he : (a.layout.program k.prime w (a.layout.trace w)).check = .error e) :
    ∃ c row, e = .transitionViolation c row ∧
      (∃ hc : c < k.constraints.length, k.constraints[c].residual k.prime w.value ≠ 0) ∧
      (config.resolve k.wireCount = .singleRow → row = 0 ∧ w.check k = .error (.violated c)) ∧
      (config.resolve k.wireCount ≠ .singleRow → ∃ packing,
        (Packing.ofCircuit k config.packing : Logged CompileError Packing).outcome = .ok packing ∧
          row = min (packing.home c) (packing.rowCount - 2)) := by
  rcases complete_layout hk h with ⟨hs, hcomplete⟩ | ⟨hs, packing, hpacking, hcomplete⟩
  · obtain ⟨c, hc, rfl, hresidual, hfirst⟩ := hcomplete.check_eq_error hk hone he
    refine ⟨c, 0, rfl, ⟨hc, hresidual⟩, ?_, fun hne => absurd hs hne⟩
    intro _
    refine ⟨rfl, Witness.check_eq_violated hsize hone hc hresidual ?_⟩
    intro c' hc' hbefore
    exact hfirst c' hc' hbefore rfl
  · obtain ⟨c, hc, rfl, hresidual, -⟩ := hcomplete.check_eq_error hk hone he
    exact ⟨c, packing.pairOf c, rfl, ⟨hc, hresidual⟩, fun heq => absurd heq hs,
      fun _ => ⟨packing, hpacking, rfl⟩⟩

/-- Values with a one on the constant wire compile, and the program is accepted if and only if they
are a witness, for each strategy alike. A rejected program fails at a constraint of the circuit
that the values violate; the auxiliary constraints and the boundary never fail. -/
theorem check_program_iff_check {bytes : Bytes}
    (hparse : (Circuit.parse bytes).outcome = .ok k)
    (hcompile : (ofCircuit k config).outcome = .ok a) (hsize : w.size = k.wireCount)
    (hone : w.value oneWire = 1) :
    ∃ g, a.program w = .ok g ∧ (g.check = .ok () ↔ w.check k = .ok ()) ∧
      (∀ config' a' g', (ofCircuit k config').outcome = .ok a' → a'.program w = .ok g' →
        (g'.check = .ok () ↔ g.check = .ok ())) ∧
      (∀ e, g.check = .error e → ∃ c row, e = .transitionViolation c row ∧
        (∃ hc : c < k.constraints.length, k.constraints[c].residual k.prime w.value ≠ 0) ∧
        (config.resolve k.wireCount = .singleRow → row = 0 ∧ w.check k = .error (.violated c)) ∧
        (config.resolve k.wireCount ≠ .singleRow → ∃ packing,
          (Packing.ofCircuit k config.packing : Logged CompileError Packing).outcome = .ok packing ∧
            row = min (packing.home c) (packing.rowCount - 2))) ∧
      (∀ row, row + 1 < g.trace.length → ∀ x ∈ g.transitions.drop k.constraints.length,
        x.eval g.modulus (g.trace.values g.modulus row) = .ok 0) ∧
      g.checkBoundary = .ok () := by
  have hk : k.WellFormed := Circuit.wellFormed_of_parse hparse
  obtain ⟨rowOf, hcomplete⟩ := exists_complete hk hcompile
  have hiff := hcomplete.check_iff hk hsize hone
  refine ⟨_, program_eq_ok hcompile hsize, hiff, ?_, ?_, ?_, hcomplete.checkBoundary_eq_ok hone⟩
  · intro config' a' g' hcompile' hprogram'
    rw [hiff]
    exact check_iff_of_program hk hcompile' hsize hone hprogram'
  · intro e he
    exact violation_of_check hk hcompile hsize hone he
  · intro row hr x hx
    have hr : row + 1 < a.layout.rowCount := by rwa [Layout.program, Layout.length_trace] at hr
    exact hcomplete.auxiliary_vanishes hk hr hx

/-- Three rows modulo two, with values that are not reduced. They violate the constraint whose home
is the last row. -/
theorem check_program_iff_check_squaredProduct : ∃ a g,
    (ofCircuit (.squaredProduct 2) (.threeRows 2 (by decide))).outcome = .ok a ∧
      a.program ⟨[1, 4, 3, 5, 1, 1, 7]⟩ = .ok g ∧
      ∃ row, g.check = .error (.transitionViolation 2 row) := by
  have hparse := Circuit.parse_squaredProduct (p := 2) (by decide) (by decide)
  obtain ⟨a, hcompile, -⟩ : ∃ a,
      (ofCircuit (.squaredProduct 2) (.threeRows 2 (by decide))).outcome = .ok a ∧
        a.modulus = 2 := by
    decide +kernel
  obtain ⟨g, hprogram, hiff, -, hfail, -⟩ := check_program_iff_check hparse hcompile
    (w := ⟨[1, 4, 3, 5, 1, 1, 7]⟩) (by decide) (by decide)
  refine ⟨a, g, hcompile, hprogram, ?_⟩
  cases hcheck : g.check with
  | ok u => exact absurd (hiff.1 hcheck) (by decide)
  | error e =>
    obtain ⟨c, row, rfl, ⟨hc, hresidual⟩, -⟩ := hfail e hcheck
    have hfirst : ∀ c', ∀ hc' : c' < 3, (Circuit.squaredProduct 2).constraints[c'].residual 2
        (Witness.value ⟨[1, 4, 3, 5, 1, 1, 7]⟩) ≠ 0 → c' = 2 := by decide
    obtain rfl := hfirst c hc hresidual
    exact ⟨row, rfl⟩

end Arithmetization

end CircuitTrace
