import CircuitTrace.Statement
import CircuitTrace.Proofs.Canonical
import CircuitTrace.Proofs.Limbs

/-!
Statements and traces say all of a canonical program. Limbs give back the number, and the terms of a
polynomial come in the order of their monomials, so adding them one by one merges none of them and
builds the same polynomial again. What is read back is canonical where the powers of every term fit.
-/
namespace CircuitTrace

namespace Statement

variable {w : LimbWidth} {p : Nat}

theorem isModulus_of_field {s : Statement} (h : s.field = .ok (w, p)) : Residue.IsModulus p := by
  rw [field] at h
  split at h
  · cases h
  · split at h
    · rename_i hp
      obtain ⟨rfl, rfl⟩ := Prod.mk.inj (Except.ok.inj h)
      exact hp
    · cases h

theorem element_eq_ok_iff {limbs : List Nat} {v : Nat} :
    element w p limbs = .ok v ↔ Limbs.toNat w limbs < p ∧ Limbs.toNat w limbs = v := by
  rw [element]
  split
  · rename_i h
    rw [Except.ok.injEq]
    exact (and_iff_right h).symm
  · rename_i h
    constructor
    · nofun
    · rintro ⟨hlt, -⟩
      exact absurd hlt h

theorem element_ofNat {v : Nat} (h : v < p) : element w p (Limbs.ofNat w v) = .ok v := by
  rw [element_eq_ok_iff, Limbs.toNat_ofNat]
  exact ⟨h, rfl⟩

theorem lt_of_element {limbs : List Nat} {v : Nat} (h : element w p limbs = .ok v) : v < p := by
  obtain ⟨hlt, rfl⟩ := element_eq_ok_iff.1 h
  exact hlt

theorem decodePoly_ofTerm {a : Poly} (h : a.Canonical p) :
    decodePoly w p (a.terms.entries.map (EncodedTerm.ofTerm w)) = .ok a := by
  have fold (l : List (Monomial × Nat)) (hl : ∀ t ∈ l, t.2 < p ∧ t.1.Canonical) (b : Poly) :
      (l.map (EncodedTerm.ofTerm w)).foldlM (fun sum t =>
        (element w p t.coefficient).map (sum.addTerm p (.ofPowers t.powers))) b =
          .ok (l.foldl (fun r t => r.addTerm p t.1 t.2) b) := by
    induction l generalizing b with
    | nil => rfl
    | cons t l ih =>
      obtain ⟨hcoefficient, hexponents⟩ := hl t (by simp)
      rw [List.map_cons, List.foldlM_cons, EncodedTerm.ofTerm, element_ofNat hcoefficient,
        hexponents.ofPowers_entries]
      exact ih (fun d hd => hl d (by simp [hd])) _
  rw [decodePoly, fold _ (fun t ht => ⟨(h.reduced t ht).2, h.exponents t ht⟩)]
  exact congrArg _ h.reduced.ofTerms_entries

theorem canonical_of_decodePoly {terms : List EncodedTerm} {a : Poly}
    (hfits : ∀ t ∈ terms, Monomial.PowersFit t.powers) (h : decodePoly w p terms = .ok a) :
    a.Canonical p := by
  apply foldlM_eq_ok_induction h Poly.canonical_zero
  intro t ht b b' hb hterm
  obtain ⟨c, hc, rfl⟩ := map_eq_ok_iff.1 hterm
  exact hb.addTerm (hfits t ht).canonical (lt_of_element hc)

/-- No exponent outgrows its word in a term of a statement. -/
def Fits (s : Statement) : Prop := ∀ terms ∈ s.transitions, ∀ t ∈ terms, Monomial.PowersFit t.powers

instance (s : Statement) : Decidable s.Fits :=
  inferInstanceAs (Decidable (∀ terms ∈ s.transitions, ∀ t ∈ terms, Monomial.PowersFit t.powers))

end Statement

/-- The statement of a canonical program gives the program back, around any trace that decodes. -/
theorem Program.Canonical.program_eq_map {g : Program} (hg : g.Canonical) (w : LimbWidth)
    (trace : EncodedTrace) : (ProverInput.ofProgram w g).statement.program trace =
      (Statement.decodeTrace w g.modulus trace).map fun t => { g with trace := t } := by
  have hfield : (ProverInput.ofProgram w g).statement.field = .ok (w, g.modulus) := by
    rw [Statement.field]
    simp only [ProverInput.ofProgram, LimbWidth.ofNat?_bits, Limbs.toNat_ofNat, if_pos hg.isModulus]
  have htransitions : (ProverInput.ofProgram w g).statement.transitions.mapM
      (Statement.decodePoly w g.modulus) = .ok g.transitions :=
    mapM_map_eq_ok fun a ha => Statement.decodePoly_ofTerm (hg.transitions a ha)
  have hboundary : (ProverInput.ofProgram w g).statement.boundary.mapM
      (Statement.decodeBoundary w g.modulus) = .ok g.boundary :=
    mapM_map_eq_ok fun b hb => by
      rw [Statement.decodeBoundary, Statement.element_ofNat (hg.boundary b hb)]
      rfl
  simp only [Statement.program, hfield, htransitions, hboundary, bind, Except.bind]
  cases Statement.decodeTrace w g.modulus trace <;> rfl

/-- A canonical program is what its statement says of its trace. -/
theorem Program.Canonical.program_eq {g : Program} (hg : g.Canonical) (w : LimbWidth) :
    (ProverInput.ofProgram w g).statement.program (ProverInput.ofProgram w g).trace = .ok g := by
  have htrace : Statement.decodeTrace w g.modulus (ProverInput.ofProgram w g).trace =
      .ok g.trace :=
    mapM_map_eq_ok fun cells hcells =>
      mapM_map_eq_ok fun cell hcell => Statement.element_ofNat (hg.trace cells hcells cell hcell)
  rw [hg.program_eq_map, htrace]
  rfl

theorem Statement.canonical_of_program {s : Statement} (hfits : s.Fits) {trace : EncodedTrace}
    {g : Program} (h : s.program trace = .ok g) : g.Canonical := by
  obtain ⟨⟨w, p⟩, hfield, h⟩ := bind_eq_ok_iff.1 h
  obtain ⟨transitions, htransitions, h⟩ := bind_eq_ok_iff.1 h
  obtain ⟨boundary, hboundary, h⟩ := bind_eq_ok_iff.1 h
  obtain ⟨rows, hrows, h⟩ := bind_eq_ok_iff.1 h
  obtain rfl := Except.ok.inj h
  refine ⟨?_, ?_, ?_, ?_⟩
  · exact isModulus_of_field hfield
  · intro a ha
    obtain ⟨terms, hmem, hterms⟩ := exists_of_mem_mapM htransitions ha
    exact canonical_of_decodePoly (hfits terms hmem) hterms
  · intro b hb
    obtain ⟨encoded, -, hencoded⟩ := exists_of_mem_mapM hboundary hb
    obtain ⟨value, hvalue, rfl⟩ := map_eq_ok_iff.1 hencoded
    exact lt_of_element hvalue
  · intro cells hcells cell hcell
    obtain ⟨encoded, -, hencoded⟩ := exists_of_mem_mapM hrows hcells
    obtain ⟨limbs, -, hlimbs⟩ := exists_of_mem_mapM hencoded hcell
    exact lt_of_element hlimbs

namespace ProverInput

end ProverInput

end CircuitTrace
