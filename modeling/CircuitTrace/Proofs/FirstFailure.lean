import CircuitTrace.Proofs.TraceCheck

namespace CircuitTrace

/-- Lists that are related element by element are related at every index, and beyond their end
where the defaults are. -/
theorem forall₂_getD {α β : Type} {R : α → β → Prop} {l : List α} {l' : List β} {d : α} {d' : β}
    (h : List.Forall₂ R l l') (hd : R d d') (i : Nat) : R (l.getD i d) (l'.getD i d') := by
  induction h generalizing i with
  | nil => exact hd
  | cons hx _ ih =>
    cases i with
    | zero => exact hx
    | succ i => exact ih i

namespace Trace

/-- The point over `ZMod p` at which the constraints of a row and the next are taken: the index of
the row, then the cells of the row, then those of the next. -/
def point (p n : Nat) (t : Trace) (row x : Nat) : ZMod p :=
  if x = 0 then row
  else if x ≤ n then t.cell row (x - 1)
  else t.cell (row + 1) (x - 1 - n)

/-- The traces have the same rows of cells, up to multiples of the modulus. -/
def Congruent (p : Nat) : Trace → Trace → Prop := List.Forall₂ (List.Forall₂ (· ≡ · [MOD p]))

namespace Congruent

variable {p n : Nat} {t t' : Trace}

theorem row (h : Congruent p t t') (row : Nat) :
    List.Forall₂ (· ≡ · [MOD p]) (t.getD row []) (t'.getD row []) :=
  forall₂_getD h .nil row

theorem length_row (h : Congruent p t t') (row : Nat) :
    (t.getD row []).length = (t'.getD row []).length :=
  (h.row row).length_eq

theorem cell (h : Congruent p t t') (row register : Nat) :
    t.cell row register ≡ t'.cell row register [MOD p] :=
  forall₂_getD (h.row row) rfl register

theorem shaped (h : Congruent p t t') (hs : t.Shaped n) : t'.Shaped n := by
  intro cells hc
  obtain ⟨row, hr, rfl⟩ := List.mem_iff_getElem.1 hc
  rw [← List.getD_eq_getElem t' [] hr, ← h.length_row]
  exact hs.length_getD (h.length_eq ▸ hr)

theorem point (h : Congruent p t t') (row : Nat) : t.point p n row = t'.point p n row := by
  funext x
  have hcell (row register : Nat) : (t.cell row register : ZMod p) = t'.cell row register :=
    (ZMod.natCast_eq_natCast_iff _ _ _).2 (h.cell row register)
  simp only [Trace.point, hcell]

end Congruent

end Trace

/-- Both constraints give a cell the same residue. -/
structure BoundaryConstraint.Congruent (p : Nat) (b b' : BoundaryConstraint) : Prop where
  row_eq : b.row = b'.row
  register_eq : b.register = b'.register
  value_modEq : b.value ≡ b'.value [MOD p]

namespace Program

variable {g : Program} {e : TraceError} {row : Nat}

/-- The value of a constraint on a row and the next. -/
noncomputable def residue (g : Program) (row : Nat) (a : Poly) : ZMod g.modulus :=
  MvPolynomial.eval (g.trace.point g.modulus g.registerCount row) (a.toMvPolynomial g.modulus)

/-- A boundary constraint speaks of a cell of the trace, and the cell has the right residue. -/
structure Meets (g : Program) (b : BoundaryConstraint) : Prop where
  row_lt : b.row < g.trace.length
  register_lt : b.register < (g.trace.getD b.row []).length
  cell_modEq : g.trace.cell b.row b.register ≡ b.value [MOD g.modulus]

/-- What an accepted program satisfies. -/
structure Valid (g : Program) : Prop where
  two_le : 2 ≤ g.trace.length
  shaped : g.trace.Shaped g.registerCount
  transitions : ∀ row, row + 1 < g.trace.length → ∀ a ∈ g.transitions, g.residue row a = 0
  boundary : ∀ b ∈ g.boundary, g.Meets b

/-- The first thing that is wrong: first with the length of the trace, then with the shape of its
rows, then with a constraint on two rows, then with the boundary. -/
inductive FirstFailure (g : Program) : TraceError → Prop
  | tooShort (hlen : g.trace.length < 2) : FirstFailure g (.tooShort g.trace.length)
  | shape {row : Nat} (hlen : 2 ≤ g.trace.length) (hr : row < g.trace.length)
    (hcells : (g.trace.getD row []).length ≠ g.registerCount)
    (hfirst : ∀ row' < row, (g.trace.getD row' []).length = g.registerCount) :
    FirstFailure g (.shape row g.registerCount (g.trace.getD row []).length)
  | transition {row c : Nat} (hlen : 2 ≤ g.trace.length) (hs : g.trace.Shaped g.registerCount)
    (hr : row + 1 < g.trace.length) (hc : c < g.transitions.length)
    (hvalue : g.residue row (g.transitions.getD c .zero) ≠ 0)
    (hfirst : ∀ c' < c, g.residue row (g.transitions.getD c' .zero) = 0)
    (hbefore : ∀ row' < row, ∀ a ∈ g.transitions, g.residue row' a = 0) :
    FirstFailure g (.transitionViolation c row)
  | boundary {i : Nat} (hlen : 2 ≤ g.trace.length) (hs : g.trace.Shaped g.registerCount)
    (ht : ∀ row, row + 1 < g.trace.length → ∀ a ∈ g.transitions, g.residue row a = 0)
    (hi : i < g.boundary.length) (hcell : ¬g.Meets g.boundary[i])
    (hfirst : ∀ j, ∀ hj : j < i, g.Meets g.boundary[j]) :
    FirstFailure g (.boundaryViolation g.boundary[i].row g.boundary[i].register)

section Congruence

variable {boundary : List BoundaryConstraint} {trace : Trace}

theorem residue_congr (ht : g.trace.Congruent g.modulus trace) (row : Nat) (a : Poly) :
    g.residue row a = { g with boundary := boundary, trace := trace }.residue row a := by
  rw [residue, residue, ht.point]

theorem Meets.congr {b b' : BoundaryConstraint} (ht : g.trace.Congruent g.modulus trace)
    (hb : b.Congruent g.modulus b') :
    g.Meets b ↔ { g with boundary := boundary, trace := trace }.Meets b' := by
  obtain ⟨row, register, value⟩ := b
  obtain ⟨row', register', value'⟩ := b'
  obtain ⟨hrow, hregister, hvalue⟩ := hb
  obtain rfl : row = row' := hrow
  obtain rfl : register = register' := hregister
  have hcell := ht.cell row register
  constructor
  · rintro ⟨hr, hc, hmeets⟩
    exact ⟨ht.length_eq ▸ hr, ht.length_row row ▸ hc, hcell.symm.trans (hmeets.trans hvalue)⟩
  · rintro ⟨hr, hc, hmeets⟩
    exact ⟨ht.length_eq ▸ hr, ht.length_row row ▸ hc, hcell.trans (hmeets.trans hvalue.symm)⟩

variable (hb : List.Forall₂ (BoundaryConstraint.Congruent g.modulus) g.boundary boundary)
  (ht : g.trace.Congruent g.modulus trace)
include hb ht

theorem Meets.congr_getElem {i : Nat} (hi : i < g.boundary.length) (hi' : i < boundary.length) :
    g.Meets g.boundary[i] ↔ { g with boundary := boundary, trace := trace }.Meets boundary[i] :=
  Meets.congr ht (hb.get hi hi')

theorem Valid.congr (h : g.Valid) :
    { g with boundary := boundary, trace := trace }.Valid where
  two_le := ht.length_eq ▸ h.two_le
  shaped := ht.shaped h.shaped
  transitions row hr a ha := by
    rw [← residue_congr ht]
    exact h.transitions row (ht.length_eq ▸ hr) a ha
  boundary b' hb' := by
    obtain ⟨i, hi', rfl⟩ := List.mem_iff_getElem.1 hb'
    have hi : i < g.boundary.length := hb.length_eq ▸ hi'
    exact (Meets.congr_getElem hb ht hi hi').1 (h.boundary _ (List.getElem_mem hi))

theorem FirstFailure.congr (h : g.FirstFailure e) :
    { g with boundary := boundary, trace := trace }.FirstFailure e := by
  have hlength : g.trace.length = trace.length := ht.length_eq
  cases h with
  | tooShort hlen =>
    rw [hlength] at hlen ⊢
    exact .tooShort hlen
  | shape hlen hr hcells hfirst =>
    rw [ht.length_row] at hcells ⊢
    exact .shape (hlength ▸ hlen) (hlength ▸ hr) hcells fun row' hlt =>
      (ht.length_row row').symm.trans (hfirst row' hlt)
  | transition hlen hs hr hc hvalue hfirst hbefore =>
    rw [residue_congr ht] at hvalue
    exact .transition (hlength ▸ hlen) (ht.shaped hs) (hlength ▸ hr) hc hvalue
      (fun c' hlt => (residue_congr ht _ _).symm.trans (hfirst c' hlt))
      fun row' hlt a ha => (residue_congr ht _ _).symm.trans (hbefore row' hlt a ha)
  | @boundary i hlen hs hzero hi hcell hfirst =>
    have hi' : i < boundary.length := hb.length_eq ▸ hi
    have hpair : g.boundary[i].Congruent g.modulus boundary[i] := hb.get hi hi'
    rw [hpair.row_eq, hpair.register_eq]
    rw [Meets.congr_getElem hb ht hi hi'] at hcell
    refine .boundary (hlength ▸ hlen) (ht.shaped hs) (fun row hr a ha => ?_) hi' hcell
      fun j hj => ?_
    · rw [← residue_congr ht]
      exact hzero row (hlength ▸ hr) a ha
    · exact (Meets.congr_getElem hb ht (hj.trans hi) (hj.trans hi')).1 (hfirst j hj)

end Congruence

end Program

end CircuitTrace
