import CircuitTrace.Proofs.Completeness
import CircuitTrace.Proofs.Soundness
import CircuitTrace.Proofs.StatementRoundTrip

namespace CircuitTrace

namespace Trace

/-- The numbers that the limbs of a trace stand for, reduced or not. -/
def decode (w : LimbWidth) (trace : EncodedTrace) : Trace :=
  trace.map fun cells => cells.map (Limbs.toNat w)

/-- The limbs of all cells stand for residues. -/
def Residues (w : LimbWidth) (p : Nat) (trace : EncodedTrace) : Prop :=
  ∀ cells ∈ trace, ∀ limbs ∈ cells, Limbs.toNat w limbs < p

instance (w : LimbWidth) (p : Nat) (trace : EncodedTrace) : Decidable (Residues w p trace) :=
  inferInstanceAs (Decidable (∀ cells ∈ trace, ∀ limbs ∈ cells, Limbs.toNat w limbs < p))

end Trace

theorem Statement.decodeTrace_eq_ok_iff {w : LimbWidth} {p : Nat} {trace : EncodedTrace}
    {t : Trace} : decodeTrace w p trace = .ok t ↔
      Trace.Residues w p trace ∧ Trace.decode w trace = t :=
  mapM_eq_ok_iff_forall fun _ _ => mapM_eq_ok_iff_forall fun _ _ => element_eq_ok_iff

namespace Program.Canonical

variable {g : Program} {w : LimbWidth} {proof : EncodedTrace}

/-- The number of rows is compared first. -/
theorem verify_of_length_ne (hlen : proof.length ≠ g.trace.length) :
    (ProverInput.ofProgram w g).statement.verify proof =
      .error (.traceLength g.trace.length proof.length) :=
  if_pos hlen

/-- Then the cells are decoded, and only then anything is checked. -/
theorem verify_of_length_eq (hg : g.Canonical) (hlen : proof.length = g.trace.length) :
    (ProverInput.ofProgram w g).statement.verify proof =
      Statement.decodeTrace w g.modulus proof >>= fun t =>
        { g with trace := t }.check.mapError .trace := by
  have hrows : ¬proof.length ≠ (ProverInput.ofProgram w g).statement.rowCount :=
    not_not_intro hlen
  rw [Statement.verify, if_neg hrows, hg.program_eq_map]
  cases Statement.decodeTrace w g.modulus proof <;> rfl

theorem verify_of_residues (hg : g.Canonical) (hlen : proof.length = g.trace.length)
    (hresidues : Trace.Residues w g.modulus proof) :
    (ProverInput.ofProgram w g).statement.verify proof =
      { g with trace := Trace.decode w proof }.check.mapError .trace := by
  rw [hg.verify_of_length_eq hlen, Statement.decodeTrace_eq_ok_iff.2 ⟨hresidues, rfl⟩]
  rfl

theorem verify_eq_ok_iff (hg : g.Canonical) (w : LimbWidth) (proof : EncodedTrace) :
    (ProverInput.ofProgram w g).statement.verify proof = .ok () ↔
      proof.length = g.trace.length ∧ Trace.Residues w g.modulus proof ∧
        { g with trace := Trace.decode w proof }.check = .ok () := by
  constructor
  · intro h
    have hlen : proof.length = g.trace.length := by
      by_contra hne
      rw [verify_of_length_ne hne] at h
      cases h
    rw [hg.verify_of_length_eq hlen] at h
    obtain ⟨t, hdecode, hcheck⟩ := bind_eq_ok_iff.1 h
    obtain ⟨hresidues, rfl⟩ := Statement.decodeTrace_eq_ok_iff.1 hdecode
    exact ⟨hlen, hresidues, mapError_eq_ok_iff.1 hcheck⟩
  · rintro ⟨hlen, hresidues, hcheck⟩
    rw [hg.verify_of_residues hlen hresidues]
    exact mapError_eq_ok_iff.2 hcheck

end Program.Canonical

/-- What is read off a trace is reduced. -/
theorem Layout.reduced_witnessOf {p : Nat} (hp : 0 < p) (l : Layout) (n : Nat) (t : Trace) :
    (l.witnessOf p n t).Reduced p := by
  intro value hvalue
  obtain ⟨x, -, rfl⟩ := List.mem_map.1 hvalue
  exact Nat.mod_lt x hp

namespace Arithmetization

/-- A proof is accepted against the statement of a compiled program if and only if it has as many
rows as the layout, residues in all cells, and a trace that the program accepts. An accepted proof
carries a witness of the circuit that has the public inputs of the statement. Only the check of the
trace refuses a proof of the right form. -/
theorem verify_eq_ok_iff_check {bytes : Bytes} {k : Circuit} {config : Config} {a : Arithmetization}
    {w₀ : Witness} (hparse : (Circuit.parse bytes).outcome = .ok k)
    (hcompile : (ofCircuit k config).outcome = .ok a) (hsize : w₀.size = k.wireCount)
    (hreduced : w₀.Reduced k.prime) (b : LimbWidth) :
    ∃ g, a.program w₀ = .ok g ∧ ∀ proof : EncodedTrace,
      ((ProverInput.ofProgram b g).statement.verify proof = .ok () ↔
        proof.length = a.layout.rowCount ∧ Trace.Residues b k.prime proof ∧
          { g with trace := Trace.decode b proof }.check = .ok ()) ∧
      ((ProverInput.ofProgram b g).statement.verify proof = .ok () →
        (a.layout.witnessOf k.prime k.wireCount (Trace.decode b proof)).check k = .ok () ∧
          ∀ wire ∈ k.publicWires.toList,
            (a.layout.witnessOf k.prime k.wireCount (Trace.decode b proof)).value wire =
              w₀.value wire) ∧
      (proof.length = a.layout.rowCount → Trace.Residues b k.prime proof →
        (ProverInput.ofProgram b g).statement.verify proof =
          { g with trace := Trace.decode b proof }.check.mapError .trace) := by
  have hk : k.WellFormed := Circuit.wellFormed_of_parse hparse
  have hprogram := program_eq_ok hcompile hsize
  have hcanonical := canonical_of_program hcompile hreduced hprogram
  have hlen := Layout.length_trace a.layout w₀
  refine ⟨_, hprogram, fun proof => ?_⟩
  have hiff := hcanonical.verify_eq_ok_iff b proof
  rw [Layout.program, hlen] at hiff
  refine ⟨hiff, ?_, ?_⟩
  · intro h
    obtain ⟨-, hresidues, hcheck⟩ := hiff.1 h
    have haccepts := accepts_of_check hcompile hprogram hcheck
    have hsound := sound_layout hk hcompile
    refine ⟨hsound.check_witnessOf hk haccepts, ?_⟩
    intro wire hwire
    have hread := Layout.reduced_witnessOf hk.prime_pos a.layout k.wireCount (Trace.decode b proof)
    exact (hsound.value_witnessOf hk haccepts hwire).eq_of_lt_of_lt
      (hread.value_lt hk.prime_pos wire) (hreduced.value_lt hk.prime_pos wire)
  · intro hrows hresidues
    exact hcanonical.verify_of_residues (hrows.trans hlen.symm) hresidues

/-- A width that does not divide that of a word. -/
def fiveBits : LimbWidth := ⟨5, Nat.le_add_left 1 4, Nat.le_add_left 5 59⟩

/-- Three rows in limbs of five bits, some with zeros behind the number and one wider than five
bits. -/
def wideRows : EncodedTrace :=
  [[[1], [], [0, 0], [2], [], [3], [6], []],
    [[], [1], [], [2, 0], [], [3], [6], [18]],
    [[], [], [1], [2], [], [36], [18], []]]

/-- The program is compiled for private values that are not a witness. -/
theorem verify_eq_ok_iff_check_squaredProduct : ∃ a g,
    (ofCircuit (.squaredProduct 97) (.threeRows 97 (by decide))).outcome = .ok a ∧
      a.program ⟨[1, 0, 2, 0, 5, 7, 9]⟩ = .ok g ∧
      (ProverInput.ofProgram fiveBits g).statement.verify wideRows = .ok () ∧
      ∃ w : Witness, w.check (.squaredProduct 97) = .ok () ∧ w.value 2 = 2 ∧ w.value 3 = 0 := by
  have hparse := Circuit.parse_squaredProduct (p := 97) (by decide) (by decide)
  obtain ⟨a, hcompile, hrows, g, hprogram, hcheck⟩ : ∃ a,
      (ofCircuit (.squaredProduct 97) (.threeRows 97 (by decide))).outcome = .ok a ∧
        a.layout.rowCount = 3 ∧ ∃ g, a.program ⟨[1, 0, 2, 0, 5, 7, 9]⟩ = .ok g ∧
          { g with trace := Trace.decode fiveBits wideRows }.check = .ok () := by
    decide +kernel
  obtain ⟨g', hprogram', hproofs⟩ :=
    verify_eq_ok_iff_check hparse hcompile
      (show Witness.size ⟨[1, 0, 2, 0, 5, 7, 9]⟩ = 7 from rfl) (by decide) fiveBits
  obtain rfl : g = g' := Except.ok.inj (hprogram.symm.trans hprogram')
  obtain ⟨hiff, hread, -⟩ := hproofs wideRows
  have hverify := hiff.2 ⟨hrows.symm, by decide +kernel, hcheck⟩
  obtain ⟨hwitness, hpublic⟩ := hread hverify
  exact ⟨a, g, hcompile, hprogram, hverify, _, hwitness, hpublic 2 (by decide),
    hpublic 3 (by decide)⟩

end Arithmetization

end CircuitTrace
