import CircuitTrace.Proofs.Inversion
import CircuitTrace.Solver

/-!
The moves of a search: it applies a gadget, or it eliminates a wire from an equation. A path records
the eliminations, and of the gadgets those that report to have filled something.
-/
namespace CircuitTrace

/-- The wires that the second assignment knows and the first does not. -/
def Assignment.gained {n : Nat} (a b : Assignment n) : List Nat :=
  (List.range n).filter fun wire => (a.get? wire).isNone && (b.get? wire).isSome

inductive Move where
  /-- The gadget at a place was applied. It reported `count` wires, true or not, and filled some. -/
  | apply (index count : Nat) (filled : List Nat)
  /-- A wire was eliminated from a constraint. -/
  | eliminate (constraint wire : Nat)

/-- What a path records of a move. -/
def Move.step? : Move → Option Step
  | .apply index count _ => if count = 0 then none else some (.gadget index)
  | .eliminate constraint wire => some (.eliminate constraint wire)

namespace Solver

variable {s : Solver} {n : Nat} {a b c : Assignment n}

theorem applyGadget_eq_ok_iff {p count : Nat} {g : Gadget} :
    applyGadget p g a = .ok (count, b) ↔ g.apply p a = (.ok count, b) := by
  rw [applyGadget]
  rcases g.apply p a with ⟨_ | count', b'⟩
  · simp
  · simp

/-- An equation stands at its own place among the equations of the circuit. -/
def Placed (s : Solver) (e : Equation) : Prop := s.equations[e.index]? = some e

theorem placed_equations (s : Solver) : ∀ e ∈ s.equations, s.Placed e := by
  intro e he
  obtain ⟨⟨constraint, index⟩, hmem, rfl⟩ := List.mem_map.1 he
  have hindex := List.mem_zipIdx_iff_getElem?.1 hmem
  rw [Placed, equations, List.getElem?_map, List.getElem?_zipIdx]
  simp only [Equation.ofConstraint]
  rw [hindex]
  simp

/-- Moves lead from an assignment to another. -/
inductive Moves (s : Solver) : Assignment n → List Move → Assignment n → Prop
  | nil (a : Assignment n) : Moves s a [] a
  | apply {index count : Nat} {g : Gadget} {moves : List Move} {a b c : Assignment n}
      (hg : s.gadgets[index]? = some g)
      (h : applyGadget s.circuit.prime g a = .ok (count, b)) (hmoves : Moves s b moves c) :
      Moves s a (.apply index count (a.gained b) :: moves) c
  | eliminate {wire value : Nat} {e : Equation} {moves : List Move} {a c : Assignment n}
      (he : s.Placed e) (hunknown : e.unknowns a.get? = [wire])
      (h : e.solveFor s.circuit.prime a.get? wire = .ok (some value))
      (hmoves : Moves s (a.assign wire value) moves c) :
      Moves s a (.eliminate e.index wire :: moves) c

theorem Moves.append {moves moves' : List Move} (h : s.Moves a moves b)
    (h' : s.Moves b moves' c) : s.Moves a (moves ++ moves') c := by
  induction h with
  | nil => exact h'
  | apply hg happly _ ih => exact .apply hg happly (ih h')
  | eliminate he hunknown hvalue _ ih => exact .eliminate he hunknown hvalue (ih h')

/-- Moves can be cut at any place. -/
theorem Moves.split {moves moves' : List Move} (h : s.Moves a (moves ++ moves') c) :
    ∃ b, s.Moves a moves b ∧ s.Moves b moves' c := by
  induction moves generalizing a with
  | nil => exact ⟨a, .nil a, h⟩
  | cons m moves ih =>
    cases h with
    | apply hg happly hrest =>
      obtain ⟨b, hb, hc⟩ := ih hrest
      exact ⟨b, .apply hg happly hb, hc⟩
    | eliminate he hunknown hvalue hrest =>
      obtain ⟨b, hb, hc⟩ := ih hrest
      exact ⟨b, .eliminate he hunknown hvalue hb, hc⟩

/-- A search has made moves, and recorded steps of them. -/
def Recorded (s : Solver) (a : Assignment n) (steps : List Step) (b : Assignment n) : Prop :=
  ∃ moves, s.Moves a moves b ∧ steps = moves.filterMap Move.step?

theorem Recorded.append {steps steps' : List Step} (h : s.Recorded a steps b)
    (h' : s.Recorded b steps' c) : s.Recorded a (steps ++ steps') c := by
  obtain ⟨moves, hmoves, rfl⟩ := h
  obtain ⟨moves', hmoves', rfl⟩ := h'
  exact ⟨moves ++ moves', hmoves.append hmoves', (List.filterMap_append ..).symm⟩

theorem recorded_applyGadgets {l : List (Gadget × Nat)}
    (hl : ∀ x ∈ l, s.gadgets[x.2]? = some x.1) {steps : List Step}
    (h : applyGadgets s.circuit.prime l a = .ok (b, steps)) : s.Recorded a steps b := by
  induction l generalizing a steps with
  | nil =>
    obtain ⟨rfl, rfl⟩ := Prod.mk.inj (Except.ok.inj h)
    exact ⟨[], .nil a, rfl⟩
  | cons x l ih =>
    obtain ⟨g, index⟩ := x
    have hg : s.gadgets[index]? = some g := hl (g, index) (by simp)
    obtain ⟨⟨count, a'⟩, happly, h⟩ := bind_eq_ok_iff.1 h
    obtain ⟨⟨b', steps'⟩, hrest, h⟩ := bind_eq_ok_iff.1 h
    obtain ⟨rfl, rfl⟩ := Prod.mk.inj (Except.ok.inj h)
    obtain ⟨moves, hmoves, rfl⟩ := ih (fun y hy => hl y (by simp [hy])) hrest
    refine ⟨_, .apply hg happly hmoves, ?_⟩
    rw [List.filterMap_cons, Move.step?]
    split <;> rfl

/-- What stays active was active before. -/
theorem recorded_pass {es : List Equation} (hes : ∀ e ∈ es, s.Placed e) {r : Pass n}
    (h : (pass s.circuit.prime es a).outcome = .ok r) :
    s.Recorded a r.steps r.assignment ∧ ∀ e ∈ r.active, e ∈ es := by
  induction es generalizing a r with
  | nil =>
    obtain rfl := Except.ok.inj h
    exact ⟨⟨[], .nil a, rfl⟩, fun e he => he⟩
  | cons e es ih =>
    have hrest : ∀ e ∈ es, s.Placed e := fun e he => hes e (by simp [he])
    have keep {r' : Pass n} (h' : (pass s.circuit.prime es a).outcome = .ok r') :
        s.Recorded a r'.steps r'.assignment ∧ ∀ d ∈ e :: r'.active, d ∈ e :: es := by
      obtain ⟨hrecorded, hactive⟩ := ih hrest h'
      refine ⟨hrecorded, ?_⟩
      intro d hd
      rcases List.mem_cons.1 hd with rfl | hd
      · exact List.mem_cons_self
      · exact List.mem_cons_of_mem _ (hactive d hd)
    rw [pass] at h
    split at h
    · obtain ⟨hrecorded, hactive⟩ := ih hrest h
      exact ⟨hrecorded, fun d hd => List.mem_cons_of_mem _ (hactive d hd)⟩
    · rename_i wire hunknown
      obtain ⟨root, hroot, h⟩ := Logged.outcome_bind_eq_ok_iff.1 h
      cases root with
      | some value =>
        obtain ⟨-, -, h⟩ := Logged.outcome_bind_eq_ok_iff.1 h
        obtain ⟨r', hr', h⟩ := Logged.outcome_bind_eq_ok_iff.1 h
        obtain rfl := Except.ok.inj h
        obtain ⟨⟨moves, hmoves, hsteps⟩, hactive⟩ := ih hrest hr'
        exact ⟨⟨_, .eliminate (hes e (by simp)) hunknown hroot hmoves,
          congrArg (Step.eliminate e.index wire :: ·) hsteps⟩,
          fun d hd => List.mem_cons_of_mem _ (hactive d hd)⟩
      | none =>
        obtain ⟨r', hr', h⟩ := Logged.outcome_bind_eq_ok_iff.1 h
        obtain rfl := Except.ok.inj h
        exact keep hr'
    · obtain ⟨r', hr', h⟩ := Logged.outcome_bind_eq_ok_iff.1 h
      obtain rfl := Except.ok.inj h
      exact keep hr'

/-- The moves of a search lead to where it ends, and there all wires are known. -/
theorem recorded_search {rounds : Nat} {active : List Equation}
    (hactive : ∀ e ∈ active, s.Placed e) {r : Search n}
    (h : (s.search rounds active a).outcome = .ok r) :
    s.Recorded a r.steps r.assignment ∧ r.assignment.unknownCount = 0 := by
  -- Along the rounds, each of which lowers the number of unknown wires.
  induction hcount : a.unknownCount using Nat.strong_induction_on
    generalizing a rounds active r with
  | _ count ih =>
    rw [search] at h
    split at h
    · rename_i hzero
      obtain rfl := Except.ok.inj h
      exact ⟨⟨[], .nil a, rfl⟩, hzero⟩
    · obtain ⟨⟨b, gadgetSteps⟩, hgadgets, h⟩ := Logged.outcome_bind_eq_ok_iff.1 h
      obtain ⟨q, hpass, h⟩ := Logged.outcome_bind_eq_ok_iff.1 h
      obtain ⟨-, -, h⟩ := Logged.outcome_bind_eq_ok_iff.1 h
      have hfill : s.Recorded a gadgetSteps b := by
        apply recorded_applyGadgets _ hgadgets
        intro x hx
        exact List.mem_zipIdx_iff_getElem?.1 hx
      obtain ⟨heliminate, hstill⟩ := recorded_pass hactive hpass
      split at h
      · rename_i hless
        obtain ⟨rest, hsearch, h⟩ := Logged.outcome_bind_eq_ok_iff.1 h
        obtain rfl := Except.ok.inj h
        obtain ⟨hrest, hknown⟩ := ih _ (by omega) (fun e he => hactive e (hstill e he)) hsearch rfl
        exact ⟨(hfill.append heliminate).append hrest, hknown⟩
      · cases h

end Solver

end CircuitTrace
