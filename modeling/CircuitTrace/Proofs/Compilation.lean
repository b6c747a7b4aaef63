import CircuitTrace.Arithmetization
import CircuitTrace.Proofs.PackedBinding
import CircuitTrace.Proofs.RoundTrip
import CircuitTrace.Proofs.SingleRow

namespace CircuitTrace

namespace Arithmetization

variable {k : Circuit} {config : Config} {a : Arithmetization} {l : Layout}

/-- A layout for a strategy is the single row, or the layout of the packing of the circuit. -/
theorem layoutFor_eq_ok {pc : PackingConfig} {s : Strategy}
    (h : (layoutFor k pc s).outcome = .ok l) :
    (s = .singleRow ∧ l = Layout.singleRow k) ∨
      (s ≠ .singleRow ∧ ∃ packing,
        (Packing.ofCircuit k pc : Logged CompileError Packing).outcome = .ok packing ∧
          Layout.ofPacking k packing = .ok l) := by
  have packed (h : (do return (← Layout.packed k pc).2 : Logged CompileError Layout).outcome =
      .ok l) : ∃ packing,
        (Packing.ofCircuit k pc : Logged CompileError Packing).outcome = .ok packing ∧
          Layout.ofPacking k packing = .ok l := by
    obtain ⟨⟨packing, l'⟩, hpacked, hl⟩ := Logged.outcome_bind_eq_ok_iff.1 h
    obtain rfl : l' = l := Except.ok.inj hl
    rw [Layout.packed] at hpacked
    obtain ⟨packing', hpacking, hpacked⟩ := Logged.outcome_bind_eq_ok_iff.1 hpacked
    obtain ⟨l'', hlayout, hpacked⟩ := Logged.outcome_bind_eq_ok_iff.1 hpacked
    obtain ⟨-, -, hpair⟩ := Logged.outcome_bind_eq_ok_iff.1 hpacked
    obtain ⟨rfl, rfl⟩ := Prod.mk.inj (Except.ok.inj hpair)
    exact ⟨packing', hpacking, hlayout⟩
  cases s with
  | singleRow => exact .inl ⟨rfl, (Except.ok.inj h).symm⟩
  | packed => exact .inr ⟨nofun, packed h⟩
  | auto => exact .inr ⟨nofun, packed h⟩

theorem ofCircuit_eq_ok (h : (ofCircuit k config).outcome = .ok a) :
    a.modulus = k.prime ∧ a.wireCount = k.wireCount ∧
      (layoutFor k config.packing (config.resolve k.wireCount)).outcome = .ok a.layout := by
  obtain ⟨-, h⟩ := Logged.guard_outcome_eq_ok h
  obtain ⟨l, hl, h⟩ := Logged.outcome_bind_eq_ok_iff.1 h
  have last {b : Arithmetization}
      (h : (do Logged.emit (.layoutBuilt l.strategy l.registerCount l.rowCount l.transitions.length)
               return b : Logged CompileError Arithmetization).outcome = .ok a) : b = a := by
    obtain ⟨-, -, h⟩ := Logged.outcome_bind_eq_ok_iff.1 h
    exact Except.ok.inj h
  obtain rfl : (⟨k.prime, k.wireCount, l⟩ : Arithmetization) = a := by
    split at h
    · exact last (Logged.guard_outcome_eq_ok h).2
    · exact last h
  exact ⟨rfl, rfl, hl⟩

/-- The strategies that a compilation can have used. -/
theorem layout_cases (h : (ofCircuit k config).outcome = .ok a) :
    (config.resolve k.wireCount = .singleRow ∧ a.layout = Layout.singleRow k) ∨
      (config.resolve k.wireCount ≠ .singleRow ∧ ∃ packing,
        (Packing.ofCircuit k config.packing : Logged CompileError Packing).outcome = .ok packing ∧
          Layout.ofPacking k packing = .ok a.layout) :=
  layoutFor_eq_ok (ofCircuit_eq_ok h).2.2

theorem program_eq_ok_iff {w : Witness} {g : Program} :
    a.program w = .ok g ↔
      w.size = a.wireCount ∧ g = a.layout.program a.modulus w (a.layout.trace w) := by
  rw [program]
  split
  · rename_i hne
    simp [hne]
  · rename_i heq
    rw [not_not] at heq
    constructor
    · intro h
      exact ⟨heq, (Except.ok.inj h).symm⟩
    · rintro ⟨-, rfl⟩
      rfl

/-- A compiled program with another trace is checked as the program of the layout with this
trace. -/
theorem accepts_of_check {w : Witness} {g : Program} {t : Trace}
    (h : (ofCircuit k config).outcome = .ok a) (hg : a.program w = .ok g)
    (ht : { g with trace := t }.check = .ok ()) : a.layout.Accepts k.prime w t := by
  obtain ⟨-, rfl⟩ := program_eq_ok_iff.1 hg
  rw [(ofCircuit_eq_ok h).1] at ht
  exact ht

section Binding

variable (hk : k.WellFormed) (h : (ofCircuit k config).outcome = .ok a)
include hk h

/-- Wires are read off register `wire` of the first row, or off the cell that the packing has. -/
theorem placeOf?_layout {wire : Nat} (hw : wire < k.wireCount) :
    (config.resolve k.wireCount = .singleRow ∧ a.layout.placeOf? wire = some (0, wire)) ∨
      ∃ packing,
        (Packing.ofCircuit k config.packing : Logged CompileError Packing).outcome = .ok packing ∧
          a.layout.placeOf? wire = (packing.wireCell wire).map fun b => (b.row, b.register) := by
  rcases layout_cases h with ⟨hs, hl⟩ | ⟨-, packing, hpacking, hl⟩
  · rw [hl]
    exact .inl ⟨hs, Layout.placeOf?_singleRow hw⟩
  · exact .inr ⟨packing, hpacking,
      Layout.placeOf?_packed (Layout.cells_ofPacking hl) (Packing.fits_ofCircuit hk hpacking) wire⟩

theorem sound_layout : a.layout.Sound k := by
  rcases layout_cases h with ⟨-, hl⟩ | ⟨-, packing, hpacking, hl⟩
  · rw [hl]
    exact Layout.sound_singleRow hk
  · exact Layout.sound_ofPacking hk (Packing.fits_ofCircuit hk hpacking) hl

theorem complete_layout :
    (config.resolve k.wireCount = .singleRow ∧ a.layout.Complete k fun _ => 0) ∨
      (config.resolve k.wireCount ≠ .singleRow ∧ ∃ packing,
        (Packing.ofCircuit k config.packing : Logged CompileError Packing).outcome = .ok packing ∧
          a.layout.Complete k packing.pairOf) := by
  rcases layout_cases h with ⟨hs, hl⟩ | ⟨hs, packing, hpacking, hl⟩
  · rw [hl]
    exact .inl ⟨hs, Layout.complete_singleRow hk⟩
  · exact .inr ⟨hs, packing, hpacking,
      Layout.complete_ofPacking hk (Packing.fits_ofCircuit hk hpacking) hl⟩

theorem rigid_layout : a.layout.Rigid k := by
  rcases layout_cases h with ⟨-, hl⟩ | ⟨-, packing, hpacking, hl⟩
  · rw [hl]
    exact Layout.rigid_singleRow hk
  · exact Layout.rigid_ofPacking hk (Packing.fits_ofCircuit hk hpacking) hl

end Binding

end Arithmetization

/-- The square of `x * y` on wire 1, for a public `x` on wire 2 and a private `y` on wire 4. On
three rows, `y` and the products lie on two rows each, `x` is a global, and so is the public input
on wire 3, which no constraint uses. -/
def Circuit.squaredProduct (p : Nat) : Circuit where
  fieldSize := 1
  prime := p
  wireCount := 7
  outputCount := 1
  publicCount := 2
  privateCount := 1
  labelCount := 7
  constraints :=
    [⟨.ofList [(2, 1)], .ofList [(4, 1)], .ofList [(5, 1)]⟩,
      ⟨.ofList [(5, 1)], .ofList [(4, 1)], .ofList [(6, 1)]⟩,
      ⟨.ofList [(6, 1)], .ofList [(2, 1)], .ofList [(1, 1)]⟩]

/-- In every field whose modulus has room in a byte, it is read as it is written. -/
theorem Circuit.parse_squaredProduct {p : Nat} (hp : Residue.IsModulus p) (hbyte : p < 256) :
    (parse (squaredProduct p).encode).outcome = .ok (squaredProduct p) := by
  have hterms : ∀ c ∈ (squaredProduct p).constraints, ∀ l ∈ c.parts, ∀ e ∈ l.entries,
      e.1 < 7 ∧ e.2 = 1 := by
    change ∀ c ∈ (squaredProduct 2).constraints, _
    decide +kernel
  have hlength : (squaredProduct p).encodeConstraints.length < 2 ^ 63 := by
    change (squaredProduct 2).encodeConstraints.length < 2 ^ 63
    decide +kernel
  apply parse_encode
  constructor
  · constructor <;> simp [header, squaredProduct, Header.requiredWires, hp, hbyte]
  · intro c hc l hl e he
    obtain ⟨hwire, hone⟩ := hterms c hc l hl e he
    exact ⟨hwire, hone ▸ hp⟩
  · simp only [List.forall_mem_cons, length_encodeHeader, length_encodeLabels]
    simpa [squaredProduct] using hlength

/-- Packs three groups of constraints. -/
def Config.threeRows (p : Nat) (h : Residue.IsModulus p) : Config where
  modulus := p
  limbWidth := Config.default.limbWidth
  strategy := .packed
  packing := { targetGroups := some 3 }
  isModulus := h

end CircuitTrace
