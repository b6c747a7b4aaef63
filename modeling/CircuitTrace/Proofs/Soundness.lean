import CircuitTrace.Container.Encoding
import CircuitTrace.Proofs.Compilation

namespace CircuitTrace

namespace Layout

variable {l : Layout} {k : Circuit} {w : Witness} {t : Trace}

theorem Sound.check_witnessOf (h : l.Sound k) (hk : k.WellFormed) (ht : l.Accepts k.prime w t) :
    (l.witnessOf k.prime k.wireCount t).check k = .ok () :=
  Layout.check_witnessOf hk (h.vanishes ht)

theorem Sound.value_witnessOf (h : l.Sound k) (hk : k.WellFormed) (ht : l.Accepts k.prime w t)
    {wire : Nat} (hwire : wire ∈ k.publicWires.toList) :
    (l.witnessOf k.prime k.wireCount t).value wire ≡ w.value wire [MOD k.prime] := by
  rw [← ZMod.natCast_eq_natCast_iff, cast_witnessOf (hk.publicWire_lt hwire).2]
  exact h.repeats ht wire hwire

end Layout

namespace Arithmetization

/-- What is read off an accepted trace, of any length and with any cells, passes as a witness of the
circuit. It repeats the public inputs of the values that the program was compiled for. The cells
that are read are those of the first row, one for each wire, or those that the packing has. -/
theorem check_witnessOf_of_check {bytes : Bytes} {k : Circuit} {config : Config}
    {a : Arithmetization} {w₀ : Witness} {g : Program} {t : Trace}
    (hparse : (Circuit.parse bytes).outcome = .ok k)
    (hcompile : (ofCircuit k config).outcome = .ok a) (hprogram : a.program w₀ = .ok g)
    (hcheck : { g with trace := t }.check = .ok ()) :
    (a.layout.witnessOf k.prime k.wireCount t).check k = .ok () ∧
      (∀ wire ∈ k.publicWires.toList,
        (a.layout.witnessOf k.prime k.wireCount t).value wire ≡ w₀.value wire [MOD k.prime]) ∧
      ∀ wire < k.wireCount,
        (config.resolve k.wireCount = .singleRow ∧ a.layout.placeOf? wire = some (0, wire)) ∨
          ∃ packing,
            (Packing.ofCircuit k config.packing : Logged CompileError Packing).outcome =
              .ok packing ∧
            a.layout.placeOf? wire = (packing.wireCell wire).map fun b => (b.row, b.register) := by
  have hk : k.WellFormed := Circuit.wellFormed_of_parse hparse
  have hsound : a.layout.Sound k := sound_layout hk hcompile
  have haccepts : a.layout.Accepts k.prime w₀ t := accepts_of_check hcompile hprogram hcheck
  refine ⟨hsound.check_witnessOf hk haccepts, ?_, ?_⟩
  · intro wire hwire
    exact hsound.value_witnessOf hk haccepts hwire
  · intro wire hwire
    exact placeOf?_layout hk hcompile hwire

/-- Three rows modulo two, so that the indices of the rows are not told apart. The trace has a row
more, cells that are not reduced, and another private input than the program was compiled for. -/
theorem check_witnessOf_of_check_squaredProduct : ∃ a g,
    (ofCircuit (.squaredProduct 2) (.threeRows 2 (by decide))).outcome = .ok a ∧
      a.program ⟨[1, 1, 1, 0, 1, 1, 1]⟩ = .ok g ∧
      { g with trace := [[1, 0, 2, 3, 0, 0, 4, 0], [0, 1, 0, 1, 2, 0, 0, 2],
        [0, 0, 1, 1, 0, 2, 0, 0], [0, 1, 0, 1, 0, 5, 7, 9]] }.check = .ok () ∧
      ∃ w : Witness, w.check (.squaredProduct 2) = .ok () ∧ w.value 2 ≡ 1 [MOD 2] := by
  have hparse := Circuit.parse_squaredProduct (p := 2) (by decide) (by decide)
  obtain ⟨a, hcompile, g, hprogram, hcheck⟩ : ∃ a,
      (ofCircuit (.squaredProduct 2) (.threeRows 2 (by decide))).outcome = .ok a ∧
        ∃ g, a.program ⟨[1, 1, 1, 0, 1, 1, 1]⟩ = .ok g ∧
          { g with trace := [[1, 0, 2, 3, 0, 0, 4, 0], [0, 1, 0, 1, 2, 0, 0, 2],
            [0, 0, 1, 1, 0, 2, 0, 0], [0, 1, 0, 1, 0, 5, 7, 9]] }.check = .ok () := by
    decide +kernel
  obtain ⟨hwitness, hpublic, -⟩ := check_witnessOf_of_check hparse hcompile hprogram hcheck
  exact ⟨a, g, hcompile, hprogram, hcheck, _, hwitness, hpublic 2 (by decide)⟩

end Arithmetization

end CircuitTrace
