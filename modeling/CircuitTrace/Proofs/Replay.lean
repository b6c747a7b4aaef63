import CircuitTrace.Container.Encoding
import CircuitTrace.Proofs.BitSplitting
import CircuitTrace.Proofs.Moves

/-!
Replaying what was recorded. A search and the replay of its path hold the same assignment before
every step, as long as a gadget that reports to have filled nothing has changed nothing: then each
move of a search that leaves no step behind is no step for the replay either.
-/
namespace CircuitTrace

/-- A gadget has changed nothing when it reports to have filled nothing. What it does when it
reports a positive number is left open. -/
def Gadget.IdleAtZero (g : Gadget) (p : Nat) : Prop :=
  ∀ {n : Nat} {a b : Assignment n}, g.apply p a = (.ok 0, b) → b = a

theorem BitDecomposition.idleAtZero (g : BitDecomposition) (p : Nat) :
    g.toGadget.IdleAtZero p := by
  intro n a b h
  have h : g.apply a = (.ok 0, b) := h
  rcases unchanged_or_fires g a with hsame | ⟨value, -, hfill⟩
  · rw [h] at hsame
    exact hsame
  · rw [hfill] at h
    obtain ⟨hcount, rfl⟩ := Prod.mk.inj h
    have hcount : g.count.toNat = 0 := Except.ok.inj hcount
    rw [fill, hcount]
    rfl

namespace Solver

variable {s : Solver} {n : Nat} {a b c : Assignment n}

/-- Steps lead from an assignment to another, at whatever place of a path they stand. -/
def Follows (s : Solver) (steps : List Step) (a b : Assignment n) : Prop :=
  ∀ k, (steps.zipIdx k).foldlM (fun a step => s.follow s.equations step.2 a step.1) a = .ok b

theorem Follows.nil (s : Solver) (a : Assignment n) : s.Follows [] a a := fun _ => rfl

theorem Follows.cons {step : Step} {steps : List Step}
    (hstep : ∀ k, s.follow s.equations k a step = .ok b) (h : s.Follows steps b c) :
    s.Follows (step :: steps) a c := by
  intro k
  rw [List.zipIdx_cons, List.foldlM_cons, hstep k]
  exact h (k + 1)

theorem Follows.followAll {steps : List Step} (h : s.Follows steps a b) :
    s.followAll s.equations steps a = .ok b := h 0

theorem follow_gadget {g : Gadget} {index count : Nat} (hg : s.gadgets[index]? = some g)
    (h : applyGadget s.circuit.prime g a = .ok (count, b)) (hcount : count ≠ 0) (k : Nat) :
    s.follow s.equations k a (.gadget index) = .ok b := by
  simp only [follow, hg, h, bind, Except.bind]
  rw [if_neg hcount]
  rfl

theorem follow_eliminate {e : Equation} (he : s.Placed e) {wire value : Nat}
    (hunknown : e.unknowns a.get? = [wire])
    (h : e.solveFor s.circuit.prime a.get? wire = .ok (some value)) (k : Nat) :
    s.follow s.equations k a (.eliminate e.index wire) = .ok (a.assign wire value) := by
  have he : s.equations[e.index]? = some e := he
  simp only [follow, he, hunknown, if_true, h, bind, Except.bind]
  rfl

/-- The moves that become steps, followed alone, have the effect of all of them. -/
theorem Moves.follows (hidle : ∀ g ∈ s.gadgets, g.IdleAtZero s.circuit.prime) {moves : List Move}
    (h : s.Moves a moves b) : s.Follows (moves.filterMap Move.step?) a b := by
  induction h with
  | nil a => exact Follows.nil s a
  | @apply index count g moves a b c hg happly _ ih =>
    rw [List.filterMap_cons, Move.step?]
    -- A gadget without a step must not have moved the assignment; one with a step is applied again
    -- to the same assignment and repeats its report, true or not.
    by_cases hcount : count = 0
    · subst hcount
      have hb : b = a := hidle g (List.mem_of_getElem? hg) (applyGadget_eq_ok_iff.1 happly)
      rw [if_pos rfl, ← hb]
      exact ih
    · rw [if_neg hcount]
      exact Follows.cons (follow_gadget hg happly hcount) ih
  | eliminate he hunknown hvalue _ ih =>
    exact Follows.cons (follow_eliminate he hunknown hvalue) ih

/-- The steps of a search, followed alone, lead to where it ends, and there all wires are known. -/
theorem follows_search (hidle : ∀ g ∈ s.gadgets, g.IdleAtZero s.circuit.prime) {rounds : Nat}
    {active : List Equation} (hactive : ∀ e ∈ active, s.Placed e) {r : Search n}
    (h : (s.search rounds active a).outcome = .ok r) :
    s.Follows r.steps a r.assignment ∧ r.assignment.unknownCount = 0 := by
  obtain ⟨⟨moves, hmoves, hsteps⟩, hknown⟩ := recorded_search hactive h
  rw [hsteps]
  exact ⟨hmoves.follows hidle, hknown⟩

/-- A recorded path replays to the witness that it was recorded with. -/
theorem replay_of_solve {inputs : List Nat} {w : Witness} {path : Path}
    (hidle : ∀ g ∈ s.gadgets, g.IdleAtZero s.circuit.prime)
    (h : (s.solve inputs).outcome = .ok (w, path)) : s.replay inputs path = .ok w := by
  rw [solve] at h
  obtain ⟨a, hstart, h⟩ := Logged.outcome_bind_eq_ok_iff.1 h
  obtain ⟨r, hsearch, h⟩ := Logged.outcome_bind_eq_ok_iff.1 h
  obtain ⟨w', hfinish, h⟩ := Logged.outcome_bind_eq_ok_iff.1 h
  obtain ⟨-, -, h⟩ := Logged.outcome_bind_eq_ok_iff.1 h
  obtain ⟨rfl, rfl⟩ := Prod.mk.inj (Except.ok.inj h)
  obtain ⟨hfollows, hknown⟩ := follows_search hidle s.placed_equations hsearch
  have hstart : s.start inputs = .ok a := hstart
  have hfinish : s.finish r.assignment = .ok w' := hfinish
  simp only [replay, hstart, hfollows.followAll, bind, Except.bind, ne_eq, not_true_eq_false,
    if_false, hknown]
  exact hfinish

/-- The square of wire 2 on wire 3, its bits from wire 4 on, and the square times its last bit on
wire 1. The first gadget reports a wire that it never fills, the second can fire once the square is
known. -/
def squareBits : Solver where
  circuit := {
    fieldSize := 1
    prime := 97
    wireCount := 7
    outputCount := 1
    publicCount := 1
    privateCount := 0
    labelCount := 7
    constraints :=
      [⟨.ofList [(2, 1)], .ofList [(2, 1)], .ofList [(3, 1)]⟩,
        ⟨.ofList [(4, 1), (5, 2), (6, 4)], .ofList [(0, 1)], .ofList [(3, 1)]⟩,
        ⟨.ofList [(3, 1)], .ofList [(6, 1)], .ofList [(1, 1)]⟩] }
  gadgets := [⟨"idle", fun _ _ a => (.ok 1, a)⟩, BitDecomposition.toGadget ⟨3, 4, 3⟩]

theorem parse_squareBits :
    (Circuit.parse squareBits.circuit.encode).outcome = .ok squareBits.circuit := by
  decide +kernel

theorem fillsUnknown_squareBits :
    ∀ g ∈ squareBits.gadgets, g.FillsUnknown squareBits.circuit.prime := by
  intro g hg
  simp only [squareBits, List.mem_cons, List.not_mem_nil, or_false] at hg
  rcases hg with rfl | rfl
  · exact fun a => .refl a
  · exact BitDecomposition.fillsUnknown _ _

theorem replay_of_solve_squareBits : ∃ path : Path,
    path.steps = [.gadget 0, .eliminate 0 3, .gadget 0, .gadget 1, .eliminate 2 1] ∧
      squareBits.replay [2] path = .ok ⟨[1, 4, 2, 4, 0, 0, 1]⟩ := by
  obtain ⟨⟨w, path⟩, hsolve, rfl, hsteps⟩ : ∃ r, (squareBits.solve [2]).outcome = .ok r ∧
      r.1 = ⟨[1, 4, 2, 4, 0, 0, 1]⟩ ∧
      r.2.steps = [.gadget 0, .eliminate 0 3, .gadget 0, .gadget 1, .eliminate 2 1] := by
    decide +kernel
  have hidle : ∀ g ∈ squareBits.gadgets, g.IdleAtZero squareBits.circuit.prime := by
    intro g hg
    simp only [squareBits, List.mem_cons, List.not_mem_nil, or_false] at hg
    rcases hg with rfl | rfl
    · intro n a b h
      cases (Prod.mk.inj h).1
    · exact BitDecomposition.idleAtZero _ _
  exact ⟨path, hsteps, replay_of_solve hidle hsolve⟩

end Solver

end CircuitTrace
