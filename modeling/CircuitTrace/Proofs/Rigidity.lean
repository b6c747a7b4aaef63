import CircuitTrace.Container.Encoding
import CircuitTrace.Proofs.Compilation

namespace CircuitTrace

namespace Layout

variable {l : Layout} {k : Circuit} {packing : Packing} {w : Witness} {t : Trace}

/-- The trace of the witness read off an accepted trace is this trace, modulo the prime. -/
theorem Rigid.reduce_eq_reduce_trace (h : l.Rigid k) (hprime : k.prime.Prime)
    (hle : l.rowCount ≤ k.prime) (hlen : t.length = l.rowCount) (ht : l.Accepts k.prime w t) :
    t.reduce k.prime =
      (l.trace (l.witnessOf k.prime k.wireCount t)).reduce k.prime :=
  Linked.reduce_eq_reduce_trace (h.linked ht) hlen ht.shaped h.shaped h.inRange
    (h.const hprime hle ht) (h.one ht)

/-- The cells of an accepted packed trace that have no local wire: selectors, globals and zeros. -/
structure Framed (packing : Packing) (p : Nat) (t : Trace) : Prop where
  selector : ∀ {row i}, row < packing.rowCount → i < packing.rowCount →
    t.cell row (packing.columns.selector i) ≡ if i = row then 1 else 0 [MOD p]
  global : ∀ {row row' i}, row < packing.rowCount → row' < packing.rowCount →
    i < packing.globals.length →
    t.cell row (packing.columns.global i) ≡ t.cell row' (packing.columns.global i) [MOD p]
  padding : ∀ {row j}, row < packing.rowCount → j < packing.width →
    (packing.rows.getD row []).length ≤ j → t.cell row (packing.columns.payload j) ≡ 0 [MOD p]

theorem framed_ofPacking (hk : k.WellFormed) (hf : packing.Fits k)
    (h : ofPacking k packing = .ok l) (hprime : k.prime.Prime) (hle : l.rowCount ≤ k.prime)
    (ht : l.Accepts k.prime w t) : Framed packing k.prime t where
  selector {row i} hr hi := by
    have hcell : l.cell? row (packing.columns.selector i) =
        some (.const (if i = row then 1 else 0)) := by
      rw [cell?_packed (cells_ofPacking h) hr, Packing.rowCells_selector hi]
    rw [← ZMod.natCast_eq_natCast_iff]
    exact (rigid_ofPacking hk hf h).const hprime hle ht hcell
  global {row row' i} hr hr' hi := by
    have hl := cells_ofPacking h
    have hwire := List.getElem?_eq_getElem hi
    rw [← ZMod.natCast_eq_natCast_iff]
    exact linked_ofPacking hk hf h ht (cell?_packed_global hl hr hwire)
      (cell?_packed_global hl hr' hwire)
  padding {row j} hr hj hused := by
    have hcell : l.cell? row (packing.columns.payload j) = some (.const 0) := by
      rw [cell?_packed (cells_ofPacking h) hr, Packing.rowCells_padding hused hj]
    rw [← ZMod.natCast_eq_natCast_iff]
    exact (rigid_ofPacking hk hf h).const hprime hle ht hcell

end Layout

namespace Arithmetization

/-- An accepted trace of the compiled length is, modulo a prime not below the number of rows, the
trace of the witness read off it. Its selectors, globals and padding are what the packing says, and
accepted traces that differ modulo the prime give different witnesses. -/
theorem reduce_eq_reduce_trace_of_check {bytes : Bytes} {k : Circuit} {config : Config}
    {a : Arithmetization} {w₀ : Witness} {g : Program} {t : Trace}
    (hparse : (Circuit.parse bytes).outcome = .ok k)
    (hcompile : (ofCircuit k config).outcome = .ok a) (hprogram : a.program w₀ = .ok g)
    (hprime : k.prime.Prime) (hle : a.layout.rowCount ≤ k.prime)
    (hlen : t.length = g.trace.length) (hcheck : { g with trace := t }.check = .ok ()) :
    t.reduce k.prime =
        (a.layout.trace (a.layout.witnessOf k.prime k.wireCount t)).reduce k.prime ∧
      (∀ packing, config.resolve k.wireCount ≠ .singleRow →
        (Packing.ofCircuit k config.packing : Logged CompileError Packing).outcome = .ok packing →
          Layout.Framed packing k.prime t) ∧
      ∀ w₁ g₁ t₁, a.program w₁ = .ok g₁ → t₁.length = g₁.trace.length →
        { g₁ with trace := t₁ }.check = .ok () → t.reduce k.prime ≠ t₁.reduce k.prime →
          a.layout.witnessOf k.prime k.wireCount t ≠ a.layout.witnessOf k.prime k.wireCount t₁ := by
  have hk : k.WellFormed := Circuit.wellFormed_of_parse hparse
  have hrigid : a.layout.Rigid k := rigid_layout hk hcompile
  have length_program {w : Witness} {g : Program} (hg : a.program w = .ok g) :
      g.trace.length = a.layout.rowCount := by
    obtain ⟨-, rfl⟩ := program_eq_ok_iff.1 hg
    exact Layout.length_trace _ _
  have haccepts := accepts_of_check hcompile hprogram hcheck
  have htrace := hrigid.reduce_eq_reduce_trace hprime hle (hlen.trans (length_program hprogram))
    haccepts
  refine ⟨htrace, ?_, ?_⟩
  · intro packing hpacked hpacking
    rcases layout_cases hcompile with ⟨hs, -⟩ | ⟨-, packing', hpacking', hl⟩
    · exact absurd hs hpacked
    · obtain rfl : packing' = packing := Except.ok.inj (hpacking'.symm.trans hpacking)
      exact Layout.framed_ofPacking hk (Packing.fits_ofCircuit hk hpacking) hl hprime hle haccepts
  · intro w₁ g₁ t₁ hprogram₁ hlen₁ hcheck₁ hne heq
    have htrace₁ := hrigid.reduce_eq_reduce_trace hprime hle
      (hlen₁.trans (length_program hprogram₁)) (accepts_of_check hcompile hprogram₁ hcheck₁)
    rw [htrace, htrace₁, heq] at hne
    exact hne rfl

/-- Three rows modulo three. The trace has cells that are not reduced, and another private input
than the program was compiled for. -/
theorem reduce_eq_reduce_trace_of_check_squaredProduct : ∃ a g,
    (ofCircuit (.squaredProduct 3) (.threeRows 3 (by decide))).outcome = .ok a ∧
      a.program ⟨[1, 1, 1, 0, 1, 1, 1]⟩ = .ok g ∧
      { g with trace := [[4, 0, 3, 1, 0, 2, 5, 0], [0, 1, 0, 1, 3, 2, 2, 1],
        [0, 0, 1, 1, 0, 1, 1, 6]] }.check = .ok () ∧
      ∃ w, Trace.reduce 3 [[4, 0, 3, 1, 0, 2, 5, 0], [0, 1, 0, 1, 3, 2, 2, 1],
        [0, 0, 1, 1, 0, 1, 1, 6]] = (a.layout.trace w).reduce 3 := by
  have hparse := Circuit.parse_squaredProduct (p := 3) (by decide) (by decide)
  obtain ⟨a, hcompile, hrows, g, hprogram, hlen, hcheck⟩ : ∃ a,
      (ofCircuit (.squaredProduct 3) (.threeRows 3 (by decide))).outcome = .ok a ∧
        a.layout.rowCount ≤ 3 ∧ ∃ g, a.program ⟨[1, 1, 1, 0, 1, 1, 1]⟩ = .ok g ∧
          g.trace.length = 3 ∧
          { g with trace := [[4, 0, 3, 1, 0, 2, 5, 0], [0, 1, 0, 1, 3, 2, 2, 1],
            [0, 0, 1, 1, 0, 1, 1, 6]] }.check = .ok () := by
    decide +kernel
  obtain ⟨htrace, -⟩ := reduce_eq_reduce_trace_of_check
    (t := [[4, 0, 3, 1, 0, 2, 5, 0], [0, 1, 0, 1, 3, 2, 2, 1], [0, 0, 1, 1, 0, 1, 1, 6]])
    hparse hcompile hprogram Nat.prime_three hrows hlen.symm hcheck
  exact ⟨a, g, hcompile, hprogram, hcheck, _, htrace⟩

end Arithmetization

end CircuitTrace
