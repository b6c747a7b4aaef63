import CircuitTrace.Proofs.Pipeline
import CircuitTrace.Proofs.Verification

/-!
What a statement tells of the witness it was compiled from: the values of the public inputs, and
nothing else. The layout is made from the circuit alone, and the boundary looks at a witness only
through the cells of public inputs. So a proof made from one witness is accepted against the
statement of another if and only if the two agree on the public inputs.
-/
namespace CircuitTrace

/-- Two lists of wire values that have the same public inputs. -/
def Circuit.SamePublic (k : Circuit) (w₁ w₂ : Witness) : Prop :=
  ∀ wire ∈ k.publicWires.toList, w₁.value wire = w₂.value wire

instance (k : Circuit) (w₁ w₂ : Witness) : Decidable (k.SamePublic w₁ w₂) :=
  inferInstanceAs (Decidable (∀ wire ∈ k.publicWires.toList, w₁.value wire = w₂.value wire))

namespace Layout

variable {l : Layout} {p : Nat} {w₁ w₂ : Witness}

theorem boundary_eq_boundary_iff : l.boundary w₁ = l.boundary w₂ ↔
    ∀ wire ∈ l.wireBoundary.map WireBoundary.wire, w₁.value wire = w₂.value wire := by
  rw [boundary, boundary, List.append_cancel_left_eq, List.map_inj_left, List.forall_mem_map]
  refine forall₂_congr fun cell _ => ?_
  constructor
  · exact congrArg BoundaryConstraint.value
  · intro h
    rw [WireBoundary.constraint, WireBoundary.constraint, h]

/-- The statements of two programs of one layout differ in their boundaries or not at all. -/
theorem statement_eq_statement_iff (b : LimbWidth) :
    (ProverInput.ofProgram b (l.program p w₁ (l.trace w₁))).statement =
        (ProverInput.ofProgram b (l.program p w₂ (l.trace w₂))).statement ↔
      l.boundary w₁ = l.boundary w₂ := by
  constructor
  · intro h
    refine List.map_injective_iff.2 ?_ (congrArg Statement.boundary h)
    rintro ⟨row, register, value⟩ ⟨row', register', value'⟩ hcells
    obtain ⟨hrow, hregister, hvalue⟩ := EncodedBoundary.mk.inj hcells
    exact (BoundaryConstraint.mk.injEq ..).mpr
      ⟨hrow, hregister, Limbs.ofNat_injective b hvalue⟩
  · intro h
    simp only [ProverInput.ofProgram, program, length_trace, h]

end Layout

namespace Arithmetization

variable {k : Circuit} {config : Config} {a : Arithmetization} {w w₁ w₂ : Witness} {b : LimbWidth}

theorem boundary_eq_boundary_iff_samePublic (hk : k.WellFormed)
    (h : (ofCircuit k config).outcome = .ok a) (w₁ w₂ : Witness) :
    a.layout.boundary w₁ = a.layout.boundary w₂ ↔ k.SamePublic w₁ w₂ := by
  rw [Layout.boundary_eq_boundary_iff, wireBoundary_layout hk h, Circuit.SamePublic]

/-- A proof that is accepted against the statement of some values carries their public inputs. -/
theorem samePublic_witnessOf_of_verify (hk : k.WellFormed)
    (h : (ofCircuit k config).outcome = .ok a) (hsize : w.size = k.wireCount)
    (hw : w.Reduced k.prime) {proof : EncodedTrace}
    (hverify : (ProverInput.ofProgram b
      (a.layout.program k.prime w (a.layout.trace w))).statement.verify proof = .ok ()) :
    k.SamePublic (a.layout.witnessOf k.prime k.wireCount (Trace.decode b proof)) w := by
  intro wire hwire
  have hprogram := program_eq_ok h hsize
  have hcanonical := canonical_of_program h hw hprogram
  obtain ⟨-, -, hcheck⟩ := (hcanonical.verify_eq_ok_iff b proof).1 hverify
  have haccepts := accepts_of_check h hprogram hcheck
  have hread := Layout.reduced_witnessOf hk.prime_pos a.layout k.wireCount (Trace.decode b proof)
  exact ((sound_layout hk h).value_witnessOf hk haccepts hwire).eq_of_lt_of_lt
    (hread.value_lt hk.prime_pos wire) (hw.value_lt hk.prime_pos wire)

/-- The statements that are compiled from two lists of values are the same if and only if the values
agree on the public inputs, for every layout and every limb width. If the first of them are a
witness, the proof that is made from them is accepted against the statement of the second in just
this case. -/
theorem statement_eq_iff_samePublic {bytes : Bytes} (hparse : (Circuit.parse bytes).outcome = .ok k)
    (hcompile : (ofCircuit k config).outcome = .ok a) (hsize₁ : w₁.size = k.wireCount)
    (hsize₂ : w₂.size = k.wireCount) (hw₁ : w₁.Reduced k.prime) (hw₂ : w₂.Reduced k.prime)
    (b : LimbWidth) :
    ∃ g₁ g₂, a.program w₁ = .ok g₁ ∧ a.program w₂ = .ok g₂ ∧
      ((ProverInput.ofProgram b g₁).statement = (ProverInput.ofProgram b g₂).statement ↔
        k.SamePublic w₁ w₂) ∧
      (w₁.check k = .ok () → ∃ proof, (ProverInput.ofProgram b g₁).prove = .ok proof ∧
        ((ProverInput.ofProgram b g₂).statement.verify proof = .ok () ↔
          k.SamePublic w₁ w₂)) := by
  have hk : k.WellFormed := Circuit.wellFormed_of_parse hparse
  have hprogram₁ := program_eq_ok hcompile hsize₁
  have hstatement := (Layout.statement_eq_statement_iff (l := a.layout) (p := k.prime) b).trans
    (boundary_eq_boundary_iff_samePublic hk hcompile w₁ w₂)
  refine ⟨_, _, hprogram₁, program_eq_ok hcompile hsize₂, hstatement, fun hcheck => ?_⟩
  have hone : w₁.value oneWire = 1 := (Witness.check_eq_ok_iff.1 hcheck).2.1
  have haccepted := (check_iff_of_program hk hcompile hsize₁ hone hprogram₁).2 hcheck
  obtain ⟨hverify, hprove⟩ :=
    (canonical_of_program hcompile hw₁ hprogram₁).prove_eq_ok haccepted b
  refine ⟨_, hprove, ?_, ?_⟩
  · intro hverify₂ wire hwire
    -- The proof carries the public inputs of both statements that it is accepted against.
    have hpublic₁ := samePublic_witnessOf_of_verify hk hcompile hsize₁ hw₁ hverify wire hwire
    have hpublic₂ := samePublic_witnessOf_of_verify hk hcompile hsize₂ hw₂ hverify₂ wire hwire
    exact hpublic₁.symm.trans hpublic₂
  · intro hpublic
    rw [← hstatement.2 hpublic]
    exact hverify

/-- Three rows, a witness, and two lists of values that are none: one with the same public inputs,
one with another. -/
theorem statement_eq_iff_samePublic_squaredProduct : ∃ a g₁ g₂ g₃,
    (ofCircuit (.squaredProduct 97) (.threeRows 97 (by decide))).outcome = .ok a ∧
      a.program ⟨[1, 36, 2, 0, 3, 6, 18]⟩ = .ok g₁ ∧ a.program ⟨[1, 0, 2, 0, 5, 7, 9]⟩ = .ok g₂ ∧
      a.program ⟨[1, 36, 2, 1, 3, 6, 18]⟩ = .ok g₃ ∧
      (ProverInput.ofProgram fiveBits g₁).statement =
        (ProverInput.ofProgram fiveBits g₂).statement ∧
      ∃ proof, (ProverInput.ofProgram fiveBits g₁).prove = .ok proof ∧
        (ProverInput.ofProgram fiveBits g₂).statement.verify proof = .ok () ∧
        (ProverInput.ofProgram fiveBits g₃).statement.verify proof ≠ .ok () := by
  have hparse := Circuit.parse_squaredProduct (p := 97) (by decide) (by decide)
  obtain ⟨a, hcompile, -⟩ : ∃ a,
      (ofCircuit (.squaredProduct 97) (.threeRows 97 (by decide))).outcome = .ok a ∧
        a.modulus = 97 := by
    decide +kernel
  have hsize : Witness.size ⟨[1, 36, 2, 0, 3, 6, 18]⟩ = 7 := rfl
  have hcheck : Witness.check ⟨[1, 36, 2, 0, 3, 6, 18]⟩ (.squaredProduct 97) = .ok () := by
    decide +kernel
  obtain ⟨g₁, g₂, hg₁, hg₂, hstatement, hproof⟩ := statement_eq_iff_samePublic hparse hcompile hsize
    (show Witness.size ⟨[1, 0, 2, 0, 5, 7, 9]⟩ = 7 from rfl) (by decide) (by decide) fiveBits
  obtain ⟨g₁', g₃, hg₁', hg₃, -, hproof'⟩ := statement_eq_iff_samePublic hparse hcompile hsize
    (show Witness.size ⟨[1, 36, 2, 1, 3, 6, 18]⟩ = 7 from rfl) (by decide) (by decide) fiveBits
  obtain rfl := Except.ok.inj (hg₁.symm.trans hg₁')
  obtain ⟨proof, hprove, hverify⟩ := hproof hcheck
  obtain ⟨proof', hprove', hverify'⟩ := hproof' hcheck
  obtain rfl := Except.ok.inj (hprove.symm.trans hprove')
  exact ⟨a, g₁, g₂, g₃, hcompile, hg₁, hg₂, hg₃, hstatement.2 (by decide), proof, hprove,
    hverify.2 (by decide), fun h => absurd (hverify'.1 h) (by decide)⟩

end Arithmetization

end CircuitTrace
