import CircuitTrace.Proofs.Confluence
import CircuitTrace.Proofs.Pruning

/-!
Where a search gives up. A round counts the unknown wires and not what it looked at; but as nothing
ever makes a wire unknown again, a round that leaves their number as it was has changed nothing at
all. So every gadget and every equation was tried at the last assignment, or is known there.
-/
namespace CircuitTrace

/-- A gadget that runs and leaves an assignment as it is. -/
def Gadget.Leaves {n : Nat} (g : Gadget) (p : Nat) (a : Assignment n) : Prop :=
  ∃ count, g.apply p a = (.ok count, a)

/-- An equation that is not solved: it has several unknown wires or none, or a search leaves the
single one alone. -/
def Equation.Unsolved (p : Nat) (values : Nat → Option Nat) (e : Equation) : Prop :=
  ∀ wire, e.unknowns values = [wire] → e.solveFor p values wire = .ok none

theorem Equation.Unsolved.cases {p : Nat} {values : Nat → Option Nat} {e : Equation}
    (h : e.Unsolved p values)
    (hq : ∀ wire, e.unknowns values = [wire] → (e.residual p values).Quadratic wire) :
    e.unknowns values = [] ∨ 2 ≤ (e.unknowns values).length ∨
      ∃ wire, e.unknowns values = [wire] ∧ (e.residual p values).coeff? (.var wire) = none ∧
        (e.residual p values).coeff? (.power wire 2) = none := by
  rcases hunknown : e.unknowns values with _ | ⟨wire, _ | ⟨wire', rest⟩⟩
  · exact .inl rfl
  · exact .inr (.inr ⟨wire, rfl, (solveFor_eq_none_iff (hq wire hunknown)).1 (h wire hunknown)⟩)
  · exact .inr (.inl (by simp))

namespace Solver

variable {s : Solver} {n : Nat} {a b : Assignment n}

/-- What a round has gone over so far leads nowhere: it has no use for the gadgets that are not
ahead of it any more, nor for the equations that it kept. -/
structure Fruitless (s : Solver) (ahead : List (Gadget × Nat)) (kept : List Equation)
    (a : Assignment n) : Prop where
  gadgets : ∀ g ∈ s.gadgets, (∃ index, (g, index) ∈ ahead) ∨ g.Leaves s.circuit.prime a
  equations : ∀ e ∈ kept, e.Unsolved s.circuit.prime a.get?

/-- A round begins with some unknown wires, never has more of them, and was fruitless as long as it
has as many. -/
def Phase.FruitlessSoFar (s : Solver) (a : Assignment n) : Phase → Prop
  | .between _ => True
  | .within before gadgets _ kept =>
    0 < before ∧ a.unknownCount ≤ before ∧ (a.unknownCount = before → s.Fruitless gadgets kept a)

section Run

variable (hk : s.circuit.WellFormed) (hfills : ∀ g ∈ s.gadgets, g.FillsUnknown s.circuit.prime)
  {q q' : Point s.circuit.wireCount}
include hk hfills

theorem Next.fruitlessSoFar (h : s.Next q q') (hwithin : q.phase.Within s)
    (hq : q.phase.FruitlessSoFar s q.assignment) : q'.phase.FruitlessSoFar s q'.assignment := by
  cases h with
  | @opens _ _ a _ hne =>
    refine ⟨Nat.pos_of_ne_zero hne, le_refl _, fun _ => ⟨?_, by simp⟩⟩
    intro g hg
    obtain ⟨index, hindex⟩ := List.mem_iff_getElem?.1 hg
    exact .inl ⟨index, List.mem_zipIdx_iff_getElem?.2 hindex⟩
  | @applies _ before index count g gs es kept a b _ happly =>
    obtain ⟨hpos, hle, hfruitless⟩ := hq
    have hg : g ∈ s.gadgets := (List.forall_mem_cons.1 hwithin.1).1
    rcases (extends_applyGadget (hfills g hg) happly).eq_or_lt with rfl | hless
    · refine ⟨hpos, hle, fun hsame => ⟨?_, (hfruitless hsame).equations⟩⟩
      intro g' hg'
      rcases (hfruitless hsame).gadgets g' hg' with ⟨index', hahead⟩ | hleaves
      · rcases List.mem_cons.1 hahead with heq | hahead
        · obtain ⟨rfl, -⟩ := Prod.mk.inj heq
          exact .inr ⟨count, applyGadget_eq_ok_iff.1 happly⟩
        · exact .inl ⟨index', hahead⟩
      · exact .inr hleaves
    · have hlt : b.unknownCount < before := lt_of_lt_of_le hless hle
      exact ⟨hpos, hlt.le, fun hsame => absurd hsame hlt.ne⟩
  | drops => exact hq
  | @eliminates _ before wire value e es kept a _ hunknown =>
    obtain ⟨hpos, hle, -⟩ := hq
    have he : e ∈ s.equations := hwithin.2.1 e List.mem_cons_self
    have hlt := lt_of_unknowns hk he hunknown
    -- The assignment has changed, as the equation has lost its unknown wire.
    have hne : a.assign wire value ≠ a := by
      intro heq
      have hknown := unknowns_assign hunknown hlt value
      rw [heq, hunknown] at hknown
      cases hknown
    have hless := (extends_assign_of_unknowns hunknown value).eq_or_lt.resolve_left hne
    have hlt : (a.assign wire value).unknownCount < before := lt_of_lt_of_le hless hle
    exact ⟨hpos, hlt.le, fun hsame => absurd hsame hlt.ne⟩
  | @keeps _ before e es kept a _ hunsolved =>
    obtain ⟨hpos, hle, hfruitless⟩ := hq
    refine ⟨hpos, hle, fun hsame => ⟨(hfruitless hsame).gadgets, ?_⟩⟩
    rw [List.forall_mem_append, List.forall_mem_singleton]
    exact ⟨(hfruitless hsame).equations, hunsolved⟩
  | closes => trivial

theorem fruitlessSoFar_of_reaches {a : Assignment s.circuit.wireCount}
    (h : s.Reaches (s.opening a) q) : q.phase.FruitlessSoFar s q.assignment := by
  induction h with
  | refl => trivial
  | tail hreaches hnext ih =>
    have hwithin := Reaches.within hreaches (s.within_opening a)
    exact hnext.fruitlessSoFar hk hfills hwithin ih

end Run

/-- A search reports that it cannot go on only at the end of a round that found nothing. -/
theorem Halts.of_unsatisfiable {q : Point n} {run : Logged SolveError (Assignment n)}
    {unknown first : Nat} (h : s.Halts q run)
    (herror : run.outcome = .error (.unsatisfiable unknown first)) :
    (∃ before kept, q.phase = .within before [] [] kept ∧
      ¬q.assignment.unknownCount < before) ∧
      unknown = q.assignment.unknownCount ∧ first = q.assignment.firstUnknown := by
  cases h with
  | solved => cases herror
  | fails happly =>
    obtain ⟨d, rfl⟩ := gadgetFailed_of_applyGadget happly
    cases herror
  | refuses hunknown hvalue =>
    rcases unsupported_or_arithmetic_of_solveFor hvalue with rfl | ⟨d, rfl⟩
    · cases herror
    · cases herror
  | @stalls _ before kept _ _ hless =>
    cases herror
    exact ⟨⟨before, kept, rfl, hless⟩, rfl, rfl⟩

/-- A solver that cannot go on was stopped by its search. -/
theorem ends_of_unsatisfiable {inputs : List Nat} {unknown first : Nat}
    (h : (s.solve inputs).outcome = .error (.unsatisfiable unknown first)) :
    ∃ a, s.start inputs = .ok a ∧ s.Ends (s.opening a)
      ⟨(s.solve inputs).events, .error (.unsatisfiable unknown first)⟩ := by
  rw [solve] at h ⊢
  rcases Logged.outcome_bind_eq_error_iff.1 h with hstart | ⟨a, hstart, h⟩
  · have hstart : s.start inputs = .error (.unsatisfiable unknown first) := hstart
    rw [start] at hstart
    split at hstart
    · cases hstart
    · cases hstart
  refine ⟨a, hstart, ?_⟩
  rw [Logged.bind_of_ok hstart]
  rcases Logged.outcome_bind_eq_error_iff.1 h with hsearch | ⟨r, -, h⟩
  · rw [Logged.bind_of_error hsearch]
    have hends := ends_search s 0 s.equations a []
    rw [hsearch] at hends
    exact hends
  · rcases Logged.outcome_bind_eq_error_iff.1 h with hfinish | ⟨w, -, h⟩
    · have hfinish : s.finish r.assignment = .error (.unsatisfiable unknown first) := hfinish
      obtain ⟨d, -, hd⟩ := mapError_eq_error_iff.1 (map_eq_error_iff.1 hfinish)
      cases hd
    · cases h

/-- An assignment from which neither a gadget nor an equation leads further. -/
structure Fixpoint (s : Solver) (b : Assignment n) : Prop where
  gadgets : ∀ g ∈ s.gadgets, g.Leaves s.circuit.prime b
  equations : ∀ e ∈ s.equations, e.unknowns b.get? = [] ∨ 2 ≤ (e.unknowns b.get?).length ∨
    ∃ wire, e.unknowns b.get? = [wire] ∧
      (e.residual s.circuit.prime b.get?).coeff? (.var wire) = none ∧
      (e.residual s.circuit.prime b.get?).coeff? (.power wire 2) = none

/-- A solver that reports that it cannot go on has come to an assignment from which nothing leads
further, and reports the number of wires that are unknown there and the first of them. -/
theorem fixpoint_of_unsatisfiable {bytes : Bytes}
    (hparse : (Circuit.parse bytes).outcome = .ok s.circuit)
    (hfills : ∀ g ∈ s.gadgets, g.FillsUnknown s.circuit.prime) {inputs : List Nat}
    {unknown first : Nat}
    (h : (s.solve inputs).outcome = .error (.unsatisfiable unknown first)) :
    ∃ a, s.start inputs = .ok a ∧
      s.Ends (s.opening a) ⟨(s.solve inputs).events, .error (.unsatisfiable unknown first)⟩ ∧
      ∀ q, s.Reaches (s.opening a) q →
        s.Halts q ⟨(s.solve inputs).events, .error (.unsatisfiable unknown first)⟩ →
        0 < unknown ∧ unknown = q.assignment.unknownWires.length ∧
          first ∈ q.assignment.unknownWires ∧ (∀ wire ∈ q.assignment.unknownWires, first ≤ wire) ∧
          s.Fixpoint q.assignment := by
  have hk : s.circuit.WellFormed := Circuit.wellFormed_of_parse hparse
  obtain ⟨a, hstart, hends⟩ := ends_of_unsatisfiable h
  refine ⟨a, hstart, hends, ?_⟩
  intro q hreaches hhalts
  obtain ⟨⟨before, kept, hphase, hless⟩, rfl, rfl⟩ := hhalts.of_unsatisfiable rfl
  have hround := fruitlessSoFar_of_reaches hk hfills hreaches
  rw [hphase] at hround
  obtain ⟨hpos, hle, hfruitless⟩ := hround
  have hsame : q.assignment.unknownCount = before := le_antisymm hle (Nat.le_of_not_lt hless)
  have hunknown : 0 < q.assignment.unknownCount := hsame ▸ hpos
  refine ⟨hunknown, (Assignment.length_unknownWires _).symm, Assignment.firstUnknown_mem hunknown,
    fun wire => Assignment.firstUnknown_le, ?_, ?_⟩
  · intro g hg
    exact ((hfruitless hsame).gadgets g hg).resolve_left (by simp)
  · intro e he
    have hsettled := settled_of_reaches hk hfills hreaches e he
    simp only [hphase, Phase.active, List.append_nil] at hsettled
    by_cases hmem : e ∈ kept
    · apply ((hfruitless hsame).equations e hmem).cases
      intro wire hwire
      have hextends := hreaches.extends hfills (s.within_opening a)
      have hone := hextends oneWire 1 (started_of_start hk hstart).one
      obtain ⟨i, c, -, rfl⟩ := mem_equations_iff.1 he
      exact Equation.quadratic_residual (by simp [hone]) hwire
    · exact .inl (hsettled hmem)

/-- A gadget that only claims to write, and one that waits for the wire that cancels. -/
def waiting : Solver where
  circuit := cancelling
  gadgets := [⟨"idle", fun _ _ a => (.ok 1, a)⟩, BitDecomposition.toGadget ⟨5, 6, 1⟩]

theorem fixpoint_of_unsatisfiable_waiting : ∃ b : Assignment 7,
    b.unknownWires.length = 1 ∧ 5 ∈ b.unknownWires ∧ waiting.Fixpoint b := by
  have hparse : (Circuit.parse waiting.circuit.encode).outcome = .ok waiting.circuit := by
    decide +kernel
  have hfills : ∀ g ∈ waiting.gadgets, g.FillsUnknown waiting.circuit.prime := by
    intro g hg
    simp only [waiting, List.mem_cons, List.not_mem_nil, or_false] at hg
    rcases hg with rfl | rfl
    · exact fun a => .refl a
    · exact BitDecomposition.fillsUnknown _ _
  have hsolve : (waiting.solve [0, 3]).outcome = .error (.unsatisfiable 1 5) := by decide +kernel
  obtain ⟨a, -, ⟨q, hreaches, hhalts⟩, hfixpoint⟩ :=
    fixpoint_of_unsatisfiable hparse hfills hsolve
  obtain ⟨-, hcount, hfirst, -, hfix⟩ := hfixpoint q hreaches hhalts
  exact ⟨q.assignment, hcount.symm, hfirst, hfix⟩

end Solver

end CircuitTrace
