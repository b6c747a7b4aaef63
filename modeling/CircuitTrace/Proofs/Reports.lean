import CircuitTrace.Proofs.Replay

/-!
What the reports of gadgets decide. A search counts the wires that are known and trusts no report,
so a report decides nothing but whether the path has a step for the gadget.
-/
namespace CircuitTrace

/-- Two gadgets make the same of every assignment, or fail with the same error, which names the
gadget. They may report whatever they like. -/
def Gadget.SameEffect (k : Circuit) (g g' : Gadget) : Prop :=
  ∀ a : Assignment k.wireCount,
    (Solver.applyGadget k.prime g a).map Prod.snd = (Solver.applyGadget k.prime g' a).map Prod.snd

/-- A gadget with another report. -/
def Gadget.reporting (g : Gadget) (report : Nat → Nat) : Gadget where
  name := g.name
  apply p _ a := ((g.apply p a).1.map report, (g.apply p a).2)

theorem Gadget.sameEffect_reporting (k : Circuit) (g : Gadget) (report : Nat → Nat) :
    g.SameEffect k (g.reporting report) := by
  intro a
  have happly : (g.reporting report).apply k.prime a =
      ((g.apply k.prime a).1.map report, (g.apply k.prime a).2) := rfl
  rw [Solver.applyGadget, Solver.applyGadget, happly]
  rcases g.apply k.prime a with ⟨error | count, b⟩
  · rfl
  · rfl

/-- Outcomes that agree in what is read off them still agree behind computations that use no more of
them. -/
theorem map_bind_congr {ε α β γ δ : Type} {f : α → γ} {g : β → δ} {x x' : Except ε α}
    {h h' : α → Except ε β} (hx : x.map f = x'.map f)
    (hh : ∀ a a', f a = f a' → (h a).map g = (h' a').map g) :
    (x.bind h).map g = (x'.bind h').map g := by
  cases x with
  | error e =>
    cases x' with
    | error e' => exact congrArg Except.error (Except.error.inj hx)
    | ok a' => cases hx
  | ok a =>
    cases x' with
    | error e' => cases hx
    | ok a' => exact hh a a' (Except.ok.inj hx)

namespace Step

/-- The constraint and the wire of a step, if it is an elimination. -/
def elimination? : Step → Option (Nat × Nat)
  | .eliminate constraint wire => some (constraint, wire)
  | .gadget _ => none

/-- Steps without those of gadgets. -/
def eliminations (steps : List Step) : List (Nat × Nat) := steps.filterMap elimination?

theorem eliminations_append (steps steps' : List Step) :
    eliminations (steps ++ steps') = eliminations steps ++ eliminations steps' :=
  List.filterMap_append

/-- Whether a gadget has a step is no matter of eliminations. -/
theorem eliminations_gadget (count index : Nat) (steps : List Step) :
    eliminations (if count = 0 then steps else .gadget index :: steps) = eliminations steps := by
  split <;> rfl

end Step

open Step (eliminations)

namespace Solver

variable {k : Circuit} {gadgets gadgets' : List Gadget} {n : Nat}

/-- What a search comes to besides the steps of gadgets. -/
def Search.found (r : Search n) : Assignment n × Nat × List (Nat × Nat) :=
  (r.assignment, r.rounds, eliminations r.steps)

section SameEffect

variable (h : List.Forall₂ (Gadget.SameEffect k) gadgets gadgets')
include h

theorem applyGadgets_congr (index : Nat) (a : Assignment k.wireCount) :
    (applyGadgets k.prime (gadgets.zipIdx index) a).map (fun r => (r.1, eliminations r.2)) =
      (applyGadgets k.prime (gadgets'.zipIdx index) a).map fun r => (r.1, eliminations r.2) := by
  induction h generalizing index a with
  | nil => rfl
  | cons hg _ ih =>
    rw [List.zipIdx_cons, List.zipIdx_cons, applyGadgets, applyGadgets]
    refine map_bind_congr (hg a) ?_
    rintro ⟨count, b⟩ ⟨count', b'⟩ (rfl : b = b')
    refine map_bind_congr (ih (index + 1) b) ?_
    rintro ⟨c, steps⟩ ⟨c', steps'⟩ hsame
    obtain ⟨rfl, hsteps⟩ := Prod.mk.inj hsame
    refine congrArg (fun e => Except.ok (c, e)) ?_
    rw [Step.eliminations_gadget, Step.eliminations_gadget, hsteps]

theorem search_congr (rounds : Nat) (active : List Equation) (a : Assignment k.wireCount) :
    ((⟨k, gadgets⟩ : Solver).search rounds active a).outcome.map Search.found =
      ((⟨k, gadgets'⟩ : Solver).search rounds active a).outcome.map Search.found := by
  -- Along the rounds. Both searches go on for the same reason: fewer wires are unknown.
  induction hcount : a.unknownCount using Nat.strong_induction_on
    generalizing rounds active a with
  | _ count ih =>
    rw [search, search]
    by_cases hzero : a.unknownCount = 0
    · rw [if_pos hzero, if_pos hzero]
    rw [if_neg hzero, if_neg hzero, Logged.outcome_bind, Logged.outcome_bind]
    refine map_bind_congr (applyGadgets_congr h 0 a) ?_
    rintro ⟨b, steps⟩ ⟨b', steps'⟩ hsame
    obtain ⟨rfl, hsteps⟩ := Prod.mk.inj hsame
    dsimp only
    rw [Logged.outcome_bind, Logged.outcome_bind]
    refine map_bind_congr (f := id) rfl ?_
    rintro r r' (rfl : r = r')
    simp only [Logged.emit_bind]
    by_cases hless : r.assignment.unknownCount < a.unknownCount
    · rw [dif_pos hless, dif_pos hless, Logged.outcome_bind, Logged.outcome_bind]
      refine map_bind_congr (ih _ (hcount ▸ hless) (rounds + 1) r.active r.assignment rfl) ?_
      intro rest rest' hrest
      simp only [Search.found, Prod.mk.injEq] at hrest
      obtain ⟨hassignment, hrounds, heliminations⟩ := hrest
      refine congrArg Except.ok ?_
      simp only [Search.found, Step.eliminations_append, hassignment, hrounds, heliminations,
        hsteps]
    · rw [dif_neg hless, dif_neg hless]

end SameEffect

/-- Gadgets with the same effects lead to the same witness or to the same error, whatever they
report, and the paths that are recorded differ in steps of gadgets only. -/
theorem solve_congr_of_sameEffect (h : List.Forall₂ (Gadget.SameEffect k) gadgets gadgets')
    (inputs : List Nat) :
    ((⟨k, gadgets⟩ : Solver).solve inputs).outcome.map
        (fun r => (r.1, r.2.circuit, r.2.eliminations)) =
      ((⟨k, gadgets'⟩ : Solver).solve inputs).outcome.map
        fun r => (r.1, r.2.circuit, r.2.eliminations) := by
  rw [solve, solve, Logged.outcome_bind, Logged.outcome_bind]
  refine map_bind_congr (f := id) rfl ?_
  rintro a a' (rfl : a = a')
  rw [Logged.outcome_bind, Logged.outcome_bind]
  refine map_bind_congr (search_congr h 0 _ a) ?_
  intro r r' hr
  simp only [Search.found, Prod.mk.injEq] at hr
  obtain ⟨hassignment, -, heliminations⟩ := hr
  rw [hassignment, Logged.outcome_bind, Logged.outcome_bind]
  refine map_bind_congr (f := id) rfl ?_
  rintro w w' (rfl : w = w')
  exact congrArg (fun e => Except.ok (w, k.fingerprint, e)) heliminations

/-- Without any reports the bits are filled all the same, and the same wires are eliminated. -/
theorem solve_congr_of_sameEffect_squareBits : ∃ path : Path,
    ((⟨squareBits.circuit, squareBits.gadgets.map (Gadget.reporting · fun _ => 0)⟩ :
      Solver).solve [2]).outcome = .ok (⟨[1, 4, 2, 4, 0, 0, 1]⟩, path) ∧
        path.eliminations = [(0, 3), (2, 1)] := by
  have hsame : List.Forall₂ (Gadget.SameEffect squareBits.circuit) squareBits.gadgets
      (squareBits.gadgets.map (Gadget.reporting · fun _ => 0)) := by
    rw [List.forall₂_map_right_iff, List.forall₂_same]
    exact fun g _ => g.sameEffect_reporting _ _
  have hsolve := solve_congr_of_sameEffect hsame [2]
  obtain ⟨⟨w, path⟩, hreported, rfl, hsteps⟩ : ∃ r, (squareBits.solve [2]).outcome = .ok r ∧
      r.1 = ⟨[1, 4, 2, 4, 0, 0, 1]⟩ ∧ r.2.eliminations = [(0, 3), (2, 1)] := by
    decide +kernel
  have hsolve := (congrArg (Except.map _) hreported).symm.trans hsolve
  obtain ⟨⟨w', path'⟩, hsilent, heq⟩ := map_eq_ok_iff.1 hsolve.symm
  simp only [Prod.mk.injEq] at heq
  obtain ⟨rfl, -, heliminations⟩ := heq
  exact ⟨path', hsilent, heliminations.trans hsteps⟩

end Solver

end CircuitTrace
