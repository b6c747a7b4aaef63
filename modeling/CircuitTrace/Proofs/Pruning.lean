import CircuitTrace.Container.Encoding
import CircuitTrace.Proofs.Solving

/-!
Why a search may stop looking at some equations. An equation leaves the active ones when all its
wires are known, and no wire becomes unknown again. So a search comes to the same as one that scans
all equations in every round, down to what it reports on the way.
-/
namespace CircuitTrace

namespace Solver

variable {s : Solver} {n : Nat} {a b : Assignment n}

/-- Scans equations in order and solves those with a single unknown wire. -/
def scan (p : Nat) : List Equation → Assignment n →
    Logged SolveError (Assignment n × List Step)
  | [], a => return (a, [])
  | e :: rest, a =>
    match e.unknowns a.get? with
    | [wire] => do
      match ← e.solveFor p a.get? wire with
      | some value =>
        Logged.emit (.eliminated e.index wire (e.residual p a.get?) value)
        let (b, steps) ← scan p rest (a.assign wire value)
        return (b, .eliminate e.index wire :: steps)
      | none => scan p rest a
    | _ => scan p rest a

/-- Repeats rounds in which all equations are scanned, until all wires are known or a round finds
none. -/
def scanSearch (s : Solver) (rounds : Nat) (a : Assignment n) : Logged SolveError (Search n) :=
  if a.unknownCount = 0 then return ⟨a, rounds, []⟩
  else do
    let (b, gadgetSteps) ← applyGadgets s.circuit.prime s.gadgets.zipIdx a
    let (c, steps) ← scan s.circuit.prime s.equations b
    Logged.emit (.solverRound (rounds + 1) (a.unknownCount - c.unknownCount) c.unknownCount)
    if _h : c.unknownCount < a.unknownCount then
      let rest ← scanSearch s (rounds + 1) c
      return { rest with steps := gadgetSteps ++ steps ++ rest.steps }
    else
      Logged.ofExcept (.error (.unsatisfiable c.unknownCount c.firstUnknown))
  termination_by a.unknownCount

/-- Solves for inputs by scanning all equations in every round, and records the path. -/
def scanSolve (s : Solver) (inputs : List Nat) : Logged SolveError (Witness × Path) := do
  let a ← s.start inputs
  let r ← s.scanSearch 0 a
  let witness ← s.finish r.assignment
  let path : Path := ⟨s.circuit.fingerprint, r.steps⟩
  let cost := s.cost path
  Logged.emit
    (.witnessSolved r.rounds path.steps.length cost.multiplications cost.additions)
  return (witness, path)

/-- The equations that a search still looks at, in this round or in a later one. -/
def Phase.active : Phase → List Equation
  | .between active => active
  | .within _ _ ahead kept => kept ++ ahead

/-- The equations that a search no longer looks at have no unknown wires. -/
def Settled (s : Solver) (q : Point n) : Prop :=
  ∀ e ∈ s.equations, e ∉ q.phase.active → e.unknowns q.assignment.get? = []

/-- A step that adds values only drops equations that it leaves without unknown wires. -/
theorem Settled.step {q q' : Point n} (hq : s.Settled q)
    (hextends : q.assignment.Extends q'.assignment)
    (hactive : ∀ e ∈ q.phase.active, e ∈ q'.phase.active ∨ e.unknowns q'.assignment.get? = []) :
    s.Settled q' := by
  intro e he hnot
  by_cases hmem : e ∈ q.phase.active
  · exact (hactive e hmem).resolve_left hnot
  · exact unknowns_eq_nil_of_extends hextends (hq e he hmem)

section Run

variable (hk : s.circuit.WellFormed) (hfills : ∀ g ∈ s.gadgets, g.FillsUnknown s.circuit.prime)
  {q q' : Point s.circuit.wireCount}
include hk hfills

theorem Next.settled (h : s.Next q q') (hwithin : q.phase.Within s) (hq : s.Settled q) :
    s.Settled q' := by
  refine hq.step (h.extends hfills hwithin) ?_
  cases h with
  | opens => exact fun e he => .inl he
  | applies => exact fun e he => .inl he
  | @drops _ _ d es kept a _ hunknown =>
    intro e (he : e ∈ kept ++ d :: es)
    rcases List.mem_append.1 he with hkept | hahead
    · exact .inl (List.mem_append_left es hkept)
    · rcases List.mem_cons.1 hahead with rfl | hes
      · exact .inr hunknown
      · exact .inl (List.mem_append_right kept hes)
  | @eliminates _ _ wire value d es kept a _ hunknown =>
    intro e (he : e ∈ kept ++ d :: es)
    rcases List.mem_append.1 he with hkept | hahead
    · exact .inl (List.mem_append_left es hkept)
    · rcases List.mem_cons.1 hahead with rfl | hes
      · have hmem : e ∈ s.equations := hwithin.2.1 e List.mem_cons_self
        have hlt := lt_of_unknowns hk hmem hunknown
        exact .inr (unknowns_assign hunknown hlt value)
      · exact .inl (List.mem_append_right kept hes)
  | @keeps _ _ d es kept =>
    intro e (he : e ∈ kept ++ d :: es)
    have heq : kept ++ [d] ++ es = kept ++ d :: es := List.append_assoc kept [d] es
    exact .inl (show e ∈ kept ++ [d] ++ es from heq ▸ he)
  | @closes _ _ kept =>
    intro e (he : e ∈ kept ++ [])
    exact .inl (show e ∈ kept from List.append_nil kept ▸ he)

/-- At every point of a search, all that it does not look at any more is known. -/
theorem settled_of_reaches {a : Assignment s.circuit.wireCount} (h : s.Reaches (s.opening a) q) :
    s.Settled q := by
  induction h with
  | refl => exact fun e he hnot => absurd he hnot
  | tail hreaches hnext ih =>
    have hwithin := Reaches.within hreaches (s.within_opening a)
    exact hnext.settled hk hfills hwithin ih

end Run

/-- Some equations are left out of a list, all of them without unknown wires. -/
inductive Prunes (a : Assignment n) : List Equation → List Equation → Prop
  | nil : Prunes a [] []
  | keep {es all : List Equation} (e : Equation) (h : Prunes a es all) :
      Prunes a (e :: es) (e :: all)
  | drop {e : Equation} {es all : List Equation} (hknown : e.unknowns a.get? = [])
      (h : Prunes a es all) : Prunes a es (e :: all)

theorem Prunes.refl (a : Assignment n) (es : List Equation) : Prunes a es es := by
  induction es with
  | nil => exact .nil
  | cons e es ih => exact .keep e ih

theorem Prunes.mono {es all : List Equation} (h : Prunes a es all) (hextends : a.Extends b) :
    Prunes b es all := by
  induction h with
  | nil => exact .nil
  | keep e _ ih => exact .keep e ih
  | drop hknown _ ih => exact .drop (unknowns_eq_nil_of_extends hextends hknown) ih

section Scan

variable {p : Nat} {e : Equation} {es : List Equation}

theorem scan_cons_of_value {wire value : Nat} (hunknown : e.unknowns a.get? = [wire])
    (h : e.solveFor p a.get? wire = .ok (some value)) :
    scan p (e :: es) a =
      ⟨.eliminated e.index wire (e.residual p a.get?) value ::
        (scan p es (a.assign wire value)).events,
      (scan p es (a.assign wire value)).outcome.map fun r =>
        (r.1, .eliminate e.index wire :: r.2)⟩ := by
  simp only [scan, hunknown, h]
  rw [Logged.bind_of_ok (Logged.outcome_monadLift _)]
  simp only [Logged.emit_bind, Logged.bind_pure_eq]
  rfl

theorem scan_cons_of_none
    (h : ∀ wire, e.unknowns a.get? = [wire] → e.solveFor p a.get? wire = .ok none) :
    scan p (e :: es) a = scan p es a := by
  rw [scan]
  split
  · rename_i wire hwire
    rw [Logged.bind_of_ok (a := none) (h wire hwire)]
    rfl
  · rfl

theorem scan_cons_of_nil (h : e.unknowns a.get? = []) : scan p (e :: es) a = scan p es a :=
  scan_cons_of_none (by simp [h])

theorem scan_cons_of_error {wire : Nat} {error : SolveError} (hunknown : e.unknowns a.get? = [wire])
    (h : e.solveFor p a.get? wire = .error error) : scan p (e :: es) a = ⟨[], .error error⟩ := by
  simp only [scan, hunknown, h]
  rfl

/-- A pass over the equations that are left does what a scan of all does, and the equations that it
drops are known behind it. -/
theorem scan_eq_pass {es all : List Equation} (hall : ∀ e ∈ all, e.InRange n)
    (h : Prunes a es all) :
    scan p all a =
        ⟨(pass p es a).events, (pass p es a).outcome.map fun r => (r.assignment, r.steps)⟩ ∧
      ∀ r, (pass p es a).outcome = .ok r → a.Extends r.assignment ∧
        Prunes r.assignment r.active all := by
  induction all generalizing es a with
  | nil =>
    cases h
    refine ⟨rfl, ?_⟩
    intro r hr
    obtain rfl := Except.ok.inj hr
    exact ⟨.refl a, .nil⟩
  | cons e all ih =>
    obtain ⟨he, hall⟩ := List.forall_mem_cons.1 hall
    cases h with
    | drop hknown h =>
      obtain ⟨hscan, hpass⟩ := ih hall h
      rw [scan_cons_of_nil hknown]
      refine ⟨hscan, ?_⟩
      intro r hr
      obtain ⟨hextends, hprunes⟩ := hpass r hr
      exact ⟨hextends, .drop (unknowns_eq_nil_of_extends hextends hknown) hprunes⟩
    | @keep es _ _ h =>
      -- The pass drops the equation if it is known, and also behind its own elimination.
      rcases pass_cons_cases p e a with hunknown | ⟨wire, value, hunknown, hvalue⟩ |
        ⟨hunknown, hnone⟩ | ⟨wire, error, hunknown, herror⟩
      · obtain ⟨hscan, hpass⟩ := ih hall h
        rw [pass_cons_of_nil hunknown, scan_cons_of_nil hunknown]
        refine ⟨hscan, ?_⟩
        intro r hr
        obtain ⟨hextends, hprunes⟩ := hpass r hr
        exact ⟨hextends, .drop (unknowns_eq_nil_of_extends hextends hunknown) hprunes⟩
      · have hassign := extends_assign_of_unknowns hunknown value
        obtain ⟨hscan, hpass⟩ := ih hall (h.mono hassign)
        rw [pass_cons_of_value hunknown hvalue, scan_cons_of_value hunknown hvalue, hscan]
        constructor
        · cases (pass p es (a.assign wire value)).outcome <;> rfl
        · intro r hr
          obtain ⟨r', hr', rfl⟩ := map_eq_ok_iff.1 hr
          obtain ⟨hextends, hprunes⟩ := hpass r' hr'
          have hknown := unknowns_assign hunknown (he.lt_of_unknowns hunknown) value
          exact ⟨hassign.trans hextends,
            .drop (unknowns_eq_nil_of_extends hextends hknown) hprunes⟩
      · obtain ⟨hscan, hpass⟩ := ih hall h
        rw [pass_cons_of_none hnone hunknown, scan_cons_of_none hnone, hscan]
        constructor
        · cases (pass p es a).outcome <;> rfl
        · intro r hr
          obtain ⟨r', hr', rfl⟩ := map_eq_ok_iff.1 hr
          obtain ⟨hextends, hprunes⟩ := hpass r' hr'
          exact ⟨hextends, .keep e hprunes⟩
      · rw [pass_cons_of_error hunknown herror, scan_cons_of_error hunknown herror]
        refine ⟨rfl, ?_⟩
        intro r hr
        cases hr

end Scan

theorem extends_applyGadgets (hfills : ∀ g ∈ s.gadgets, g.FillsUnknown s.circuit.prime)
    {l : List (Gadget × Nat)} (hl : ∀ x ∈ l, x.1 ∈ s.gadgets) {steps : List Step}
    (h : applyGadgets s.circuit.prime l a = .ok (b, steps)) : a.Extends b := by
  induction l generalizing a steps with
  | nil =>
    obtain ⟨rfl, rfl⟩ := Prod.mk.inj (Except.ok.inj h)
    exact .refl a
  | cons x l ih =>
    obtain ⟨hx, hl⟩ := List.forall_mem_cons.1 hl
    obtain ⟨⟨count, a'⟩, happly, h⟩ := bind_eq_ok_iff.1 h
    obtain ⟨⟨b', steps'⟩, hrest, h⟩ := bind_eq_ok_iff.1 h
    obtain ⟨rfl, rfl⟩ := Prod.mk.inj (Except.ok.inj h)
    exact (extends_applyGadget (hfills _ hx) happly).trans (ih hl hrest)

section Search

variable (hk : s.circuit.WellFormed) (hfills : ∀ g ∈ s.gadgets, g.FillsUnknown s.circuit.prime)
include hk hfills

/-- Rounds that leave out known equations go as rounds over all equations. -/
theorem search_eq_scanSearch (rounds : Nat) {active : List Equation}
    {a : Assignment s.circuit.wireCount} (h : Prunes a active s.equations) :
    s.search rounds active a = s.scanSearch rounds a := by
  -- Along the rounds, each of which lowers the number of unknown wires.
  induction hcount : a.unknownCount using Nat.strong_induction_on
    generalizing a rounds active with
  | _ count ih =>
    rw [search, scanSearch]
    by_cases hzero : a.unknownCount = 0
    · rw [if_pos hzero, if_pos hzero]
    rw [if_neg hzero, if_neg hzero]
    cases hgadgets : applyGadgets s.circuit.prime s.gadgets.zipIdx a with
    | error error => rfl
    | ok x =>
      obtain ⟨b, gadgetSteps⟩ := x
      have hmem : ∀ x ∈ s.gadgets.zipIdx, x.1 ∈ s.gadgets := by
        intro x hx
        exact List.mem_of_getElem? (List.mem_zipIdx_iff_getElem?.1 hx)
      have hextends := extends_applyGadgets hfills hmem hgadgets
      obtain ⟨hscan, hpruned⟩ :=
        scan_eq_pass (p := s.circuit.prime) (inRange_equations hk) (h.mono hextends)
      rw [Logged.bind_of_ok (a := (b, gadgetSteps)) rfl,
        Logged.bind_of_ok (a := (b, gadgetSteps)) rfl]
      dsimp only
      rw [hscan]
      cases hpass : (pass s.circuit.prime active b).outcome with
      | error error =>
        rw [Logged.bind_of_error hpass]
        rfl
      | ok r =>
        obtain ⟨-, hprunes⟩ := hpruned r hpass
        rw [Logged.bind_of_ok hpass, Logged.bind_of_ok (a := (r.assignment, r.steps)) rfl]
        simp only [Logged.emit_bind]
        by_cases hless : r.assignment.unknownCount < a.unknownCount
        · have hrest := ih _ (hcount ▸ hless) (rounds + 1) hprunes rfl
          simp only [hless, dite_true, hrest]
        · simp only [hless, dite_false]

end Search

/-- Solving with fewer and fewer equations comes to the same as solving with all of them in every
round, whatever the gadgets fill, and reports the same on the way. At no point of a search has an
equation that was left out an unknown wire. -/
theorem solve_eq_scanSolve {bytes : Bytes} (hparse : (Circuit.parse bytes).outcome = .ok s.circuit)
    (hfills : ∀ g ∈ s.gadgets, g.FillsUnknown s.circuit.prime) (inputs : List Nat) :
    s.solve inputs = s.scanSolve inputs ∧
      ∀ a, s.start inputs = .ok a →
        s.Ends (s.opening a) ⟨(s.search 0 s.equations a).events,
          (s.search 0 s.equations a).outcome.map Search.assignment⟩ ∧
        ∀ q, s.Reaches (s.opening a) q → s.Settled q := by
  have hk : s.circuit.WellFormed := Circuit.wellFormed_of_parse hparse
  constructor
  · have hsearch : ∀ a, s.search 0 s.equations a = s.scanSearch 0 a :=
      fun a => search_eq_scanSearch hk hfills 0 (.refl a s.equations)
    simp only [solve, scanSolve, hsearch]
  · intro a _
    exact ⟨ends_search s 0 s.equations a [], fun q => settled_of_reaches hk hfills⟩

/-- The square is eliminated in the first round, and in the second its equation is left out. -/
theorem solve_eq_scanSolve_squareBits :
    ∃ path, (squareBits.scanSolve [2]).outcome = .ok (⟨[1, 4, 2, 4, 0, 0, 1]⟩, path) ∧
      path.steps = [.gadget 0, .eliminate 0 3, .gadget 0, .gadget 1, .eliminate 2 1] := by
  obtain ⟨heq, -⟩ := solve_eq_scanSolve parse_squareBits fillsUnknown_squareBits [2]
  obtain ⟨⟨w, path⟩, hsolve, rfl, hsteps⟩ : ∃ r, (squareBits.solve [2]).outcome = .ok r ∧
      r.1 = ⟨[1, 4, 2, 4, 0, 0, 1]⟩ ∧
      r.2.steps = [.gadget 0, .eliminate 0 3, .gadget 0, .gadget 1, .eliminate 2 1] := by
    decide +kernel
  exact ⟨path, heq ▸ hsolve, hsteps⟩

end Solver

end CircuitTrace
