import CircuitTrace.Proofs.Replay

/-!
A search as a machine. Each step of the machine applies one gadget, looks at one equation, or opens
or closes a round, and what the machine halts with is what the search gives: whatever holds along
the steps holds during every search, also of one that fails.
-/
namespace CircuitTrace.Solver

variable {n : Nat} {s : Solver}

/-- What is ahead of a search. -/
inductive Phase where
  /-- Between two rounds, with the equations that are active. -/
  | between (active : List Equation)
  /-- In a round that began with `before` unknown wires, with the gadgets and equations it still
  has to come to, and the equations so far that stay active. -/
  | within (before : Nat) (gadgets : List (Gadget × Nat)) (ahead kept : List Equation)

/-- Where a search stands. -/
structure Point (n : Nat) where
  rounds : Nat
  phase : Phase
  assignment : Assignment n
  /-- What was reported on the way. -/
  log : List Event

/-- One step of a search. -/
inductive Next (s : Solver) : Point n → Point n → Prop
  | opens {r : Nat} {active : List Equation} {a : Assignment n} {log : List Event}
      (h : a.unknownCount ≠ 0) :
      Next s ⟨r, .between active, a, log⟩
        ⟨r, .within a.unknownCount s.gadgets.zipIdx active [], a, log⟩
  | applies {r m index count : Nat} {g : Gadget} {gs : List (Gadget × Nat)}
      {es kept : List Equation} {a b : Assignment n} {log : List Event}
      (h : applyGadget s.circuit.prime g a = .ok (count, b)) :
      Next s ⟨r, .within m ((g, index) :: gs) es kept, a, log⟩ ⟨r, .within m gs es kept, b, log⟩
  | drops {r m : Nat} {e : Equation} {es kept : List Equation} {a : Assignment n}
      {log : List Event} (h : e.unknowns a.get? = []) :
      Next s ⟨r, .within m [] (e :: es) kept, a, log⟩ ⟨r, .within m [] es kept, a, log⟩
  | eliminates {r m wire value : Nat} {e : Equation} {es kept : List Equation} {a : Assignment n}
      {log : List Event} (hunknown : e.unknowns a.get? = [wire])
      (h : e.solveFor s.circuit.prime a.get? wire = .ok (some value)) :
      Next s ⟨r, .within m [] (e :: es) kept, a, log⟩
        ⟨r, .within m [] es kept, a.assign wire value,
          log ++ [.eliminated e.index wire (e.residual s.circuit.prime a.get?) value]⟩
  | keeps {r m : Nat} {e : Equation} {es kept : List Equation} {a : Assignment n}
      {log : List Event}
      (h : ∀ wire, e.unknowns a.get? = [wire] →
        e.solveFor s.circuit.prime a.get? wire = .ok none) :
      Next s ⟨r, .within m [] (e :: es) kept, a, log⟩
        ⟨r, .within m [] es (kept ++ [e]), a, log⟩
  | closes {r m : Nat} {kept : List Equation} {a : Assignment n} {log : List Event}
      (h : a.unknownCount < m) :
      Next s ⟨r, .within m [] [] kept, a, log⟩
        ⟨r + 1, .between kept, a,
          log ++ [.solverRound (r + 1) (m - a.unknownCount) a.unknownCount]⟩

/-- Where a search stands before its first round. -/
def opening (s : Solver) (a : Assignment n) : Point n := ⟨0, .between s.equations, a, []⟩

/-- Some steps of a search. -/
abbrev Reaches (s : Solver) : Point n → Point n → Prop := Relation.ReflTransGen s.Next

/-- A point at which a search is over, with all that it reported and its outcome. -/
inductive Halts (s : Solver) : Point n → Logged SolveError (Assignment n) → Prop
  | solved {r : Nat} {active : List Equation} {a : Assignment n} {log : List Event}
      (h : a.unknownCount = 0) : Halts s ⟨r, .between active, a, log⟩ ⟨log, .ok a⟩
  | fails {r m index : Nat} {g : Gadget} {gs : List (Gadget × Nat)} {es kept : List Equation}
      {a : Assignment n} {log : List Event} {error : SolveError}
      (h : applyGadget s.circuit.prime g a = .error error) :
      Halts s ⟨r, .within m ((g, index) :: gs) es kept, a, log⟩ ⟨log, .error error⟩
  | refuses {r m wire : Nat} {e : Equation} {es kept : List Equation} {a : Assignment n}
      {log : List Event} {error : SolveError} (hunknown : e.unknowns a.get? = [wire])
      (h : e.solveFor s.circuit.prime a.get? wire = .error error) :
      Halts s ⟨r, .within m [] (e :: es) kept, a, log⟩ ⟨log, .error error⟩
  | stalls {r m : Nat} {kept : List Equation} {a : Assignment n} {log : List Event}
      (h : ¬a.unknownCount < m) :
      Halts s ⟨r, .within m [] [] kept, a, log⟩
        ⟨log ++ [.solverRound (r + 1) (m - a.unknownCount) a.unknownCount],
          .error (.unsatisfiable a.unknownCount a.firstUnknown)⟩

/-- The search from a point halts with a given outcome. -/
def Ends (s : Solver) (q : Point n) (run : Logged SolveError (Assignment n)) : Prop :=
  ∃ q', s.Reaches q q' ∧ s.Halts q' run

theorem Ends.of_reaches {q q' : Point n} {run : Logged SolveError (Assignment n)}
    (h : s.Reaches q q') (h' : s.Ends q' run) : s.Ends q run := by
  obtain ⟨q'', hreaches, hhalts⟩ := h'
  exact ⟨q'', h.trans hreaches, hhalts⟩

theorem Halts.ends {q : Point n} {run : Logged SolveError (Assignment n)} (h : s.Halts q run) :
    s.Ends q run := ⟨q, .refl, h⟩

/-- A search that comes to a result knows all wires where it halts. -/
theorem Halts.of_ok {q : Point n} {run : Logged SolveError (Assignment n)} {a : Assignment n}
    (h : s.Halts q run) (ha : run.outcome = .ok a) :
    q.assignment = a ∧ a.unknownCount = 0 ∧ run.events = q.log := by
  cases h with
  | solved hzero =>
    obtain rfl := Except.ok.inj ha
    exact ⟨rfl, hzero, rfl⟩
  | fails => cases ha
  | refuses => cases ha
  | stalls => cases ha

variable {r m : Nat} {gs : List (Gadget × Nat)} {es kept : List Equation} {a b : Assignment n}
  {log : List Event} {error : SolveError}

theorem reaches_applyGadgets {steps : List Step}
    (h : applyGadgets s.circuit.prime gs a = .ok (b, steps)) :
    s.Reaches ⟨r, .within m gs es kept, a, log⟩ ⟨r, .within m [] es kept, b, log⟩ := by
  induction gs generalizing a steps with
  | nil =>
    obtain ⟨rfl, rfl⟩ := Prod.mk.inj (Except.ok.inj h)
    exact .refl
  | cons x gs ih =>
    obtain ⟨g, index⟩ := x
    obtain ⟨⟨count, a'⟩, happly, h⟩ := bind_eq_ok_iff.1 h
    obtain ⟨⟨b', steps'⟩, hrest, h⟩ := bind_eq_ok_iff.1 h
    obtain ⟨rfl, rfl⟩ := Prod.mk.inj (Except.ok.inj h)
    exact .head (.applies happly) (ih hrest)

theorem ends_applyGadgets (h : applyGadgets s.circuit.prime gs a = .error error) :
    s.Ends ⟨r, .within m gs es kept, a, log⟩ ⟨log, .error error⟩ := by
  induction gs generalizing a with
  | nil => cases h
  | cons x gs ih =>
    obtain ⟨g, index⟩ := x
    cases happly : applyGadget s.circuit.prime g a with
    | error error' =>
      have heq : error' = error := by simpa [applyGadgets, happly, bind, Except.bind] using h
      exact heq ▸ (Halts.fails happly).ends
    | ok x =>
      obtain ⟨count, a'⟩ := x
      apply Ends.of_reaches (.single (.applies happly))
      cases hrest : applyGadgets s.circuit.prime gs a' with
      | ok y => simp [applyGadgets, happly, hrest, bind, Except.bind, pure, Except.pure] at h
      | error error' =>
        have heq : error' = error := by
          simpa [applyGadgets, happly, hrest, bind, Except.bind] using h
        exact ih (heq ▸ hrest)

section Pass

variable {p : Nat} {e : Equation}

theorem pass_cons_of_nil (hunknown : e.unknowns a.get? = []) :
    pass p (e :: es) a = pass p es a := by
  rw [pass, hunknown]

theorem pass_cons_of_value {wire value : Nat} (hunknown : e.unknowns a.get? = [wire])
    (h : e.solveFor p a.get? wire = .ok (some value)) :
    pass p (e :: es) a =
      ⟨.eliminated e.index wire (e.residual p a.get?) value ::
        (pass p es (a.assign wire value)).events,
      (pass p es (a.assign wire value)).outcome.map fun q =>
        { q with steps := .eliminate e.index wire :: q.steps }⟩ := by
  simp only [pass, hunknown, h]
  rw [Logged.bind_of_ok (Logged.outcome_monadLift _)]
  simp only [Logged.emit_bind, Logged.bind_pure_eq]
  rfl

theorem pass_cons_of_none
    (h : ∀ wire, e.unknowns a.get? = [wire] → e.solveFor p a.get? wire = .ok none)
    (hunknown : e.unknowns a.get? ≠ []) :
    pass p (e :: es) a = ⟨(pass p es a).events,
      (pass p es a).outcome.map fun q => { q with active := e :: q.active }⟩ := by
  rw [pass]
  split
  · contradiction
  · rename_i wire hwire
    rw [Logged.bind_of_ok (a := none) (h wire hwire)]
    simp only [Logged.bind_pure_eq]
    rfl
  · rw [Logged.bind_pure_eq]

theorem pass_cons_of_error {wire : Nat} (hunknown : e.unknowns a.get? = [wire])
    (h : e.solveFor p a.get? wire = .error error) :
    pass p (e :: es) a = ⟨[], .error error⟩ := by
  simp only [pass, hunknown, h]
  rfl

theorem pass_cons_cases (p : Nat) (e : Equation) (a : Assignment n) :
    e.unknowns a.get? = [] ∨
      (∃ wire value, e.unknowns a.get? = [wire] ∧
        e.solveFor p a.get? wire = .ok (some value)) ∨
      (e.unknowns a.get? ≠ [] ∧
        ∀ wire, e.unknowns a.get? = [wire] → e.solveFor p a.get? wire = .ok none) ∨
      ∃ wire error, e.unknowns a.get? = [wire] ∧ e.solveFor p a.get? wire = .error error := by
  rcases hunknown : e.unknowns a.get? with _ | ⟨wire, _ | ⟨wire', rest⟩⟩
  · exact .inl rfl
  · rcases hvalue : e.solveFor p a.get? wire with error | _ | value
    · exact .inr (.inr (.inr ⟨wire, error, rfl, hvalue⟩))
    · exact .inr (.inr (.inl ⟨by simp, by simp [hvalue]⟩))
    · exact .inr (.inl ⟨wire, value, rfl, hvalue⟩)
  · exact .inr (.inr (.inl ⟨by simp, by simp⟩))

end Pass

/-- A pass comes to the end of the round, or halts in it. -/
theorem run_pass (s : Solver) (r m : Nat) (es kept : List Equation) (a : Assignment n)
    (log : List Event) : (∀ q, (pass s.circuit.prime es a).outcome = .ok q →
      s.Reaches ⟨r, .within m [] es kept, a, log⟩ ⟨r, .within m [] [] (kept ++ q.active),
        q.assignment, log ++ (pass s.circuit.prime es a).events⟩) ∧
    ∀ error, (pass s.circuit.prime es a).outcome = .error error →
      s.Ends ⟨r, .within m [] es kept, a, log⟩
        ⟨log ++ (pass s.circuit.prime es a).events, .error error⟩ := by
  induction es generalizing a kept log with
  | nil =>
    constructor
    · intro q h
      obtain rfl := Except.ok.inj h
      have hevents : (pass s.circuit.prime [] a).events = [] := rfl
      rw [hevents, List.append_nil, List.append_nil]
    · intro error h
      cases h
  | cons e es ih =>
    rcases pass_cons_cases s.circuit.prime e a with hunknown | ⟨wire, value, hunknown, hvalue⟩ |
      ⟨hunknown, hnone⟩ | ⟨wire, error, hunknown, herror⟩
    · rw [pass_cons_of_nil hunknown]
      obtain ⟨hok, herror⟩ := ih kept a log
      refine ⟨fun q h => .head (.drops hunknown) (hok q h), fun error h => ?_⟩
      exact Ends.of_reaches (.single (.drops hunknown)) (herror error h)
    · rw [pass_cons_of_value hunknown hvalue]
      obtain ⟨hok, herror⟩ := ih kept (a.assign wire value)
        (log ++ [.eliminated e.index wire (e.residual s.circuit.prime a.get?) value])
      simp only [List.append_assoc, List.singleton_append] at hok herror
      constructor
      · intro q h
        obtain ⟨q', hq', rfl⟩ := map_eq_ok_iff.1 h
        exact .head (.eliminates hunknown hvalue) (hok q' hq')
      · intro error h
        apply Ends.of_reaches (.single (.eliminates hunknown hvalue))
        exact herror error (map_eq_error_iff.1 h)
    · rw [pass_cons_of_none hnone hunknown]
      obtain ⟨hok, herror⟩ := ih (kept ++ [e]) a log
      simp only [List.append_assoc, List.singleton_append] at hok
      constructor
      · intro q h
        obtain ⟨q', hq', rfl⟩ := map_eq_ok_iff.1 h
        exact .head (.keeps hnone) (hok q' hq')
      · intro error h
        apply Ends.of_reaches (.single (.keeps hnone))
        exact herror error (map_eq_error_iff.1 h)
    · rw [pass_cons_of_error hunknown herror]
      constructor
      · intro q h
        cases h
      · intro error' h
        obtain rfl := Except.error.inj h
        rw [List.append_nil]
        exact (Halts.refuses hunknown herror).ends

/-- The machine halts with what the search reports and comes to. -/
theorem ends_search (s : Solver) (rounds : Nat) (active : List Equation) (a : Assignment n)
    (log : List Event) :
    s.Ends ⟨rounds, .between active, a, log⟩ ⟨log ++ (s.search rounds active a).events,
      (s.search rounds active a).outcome.map Search.assignment⟩ := by
  -- Along the rounds, each of which lowers the number of unknown wires.
  induction hcount : a.unknownCount using Nat.strong_induction_on
    generalizing a rounds active log with
  | _ count ih =>
    rw [search]
    by_cases hzero : a.unknownCount = 0
    · simp only [hzero, if_true]
      change s.Ends _ ⟨log ++ [], .ok a⟩
      rw [List.append_nil]
      exact (Halts.solved hzero).ends
    rw [if_neg hzero]
    apply Ends.of_reaches (.single (.opens hzero))
    cases hgadgets : applyGadgets s.circuit.prime s.gadgets.zipIdx a with
    | error error =>
      rw [Logged.bind_of_error (e := error) rfl, Logged.events_monadLift, List.append_nil]
      exact ends_applyGadgets hgadgets
    | ok x =>
      obtain ⟨b, gadgetSteps⟩ := x
      apply Ends.of_reaches (reaches_applyGadgets hgadgets)
      rw [Logged.bind_of_ok (a := (b, gadgetSteps)) rfl, Logged.events_monadLift, List.nil_append]
      dsimp only
      obtain ⟨hok, herror⟩ := run_pass s rounds a.unknownCount active [] b log
      cases hpass : (pass s.circuit.prime active b).outcome with
      | error error =>
        rw [Logged.bind_of_error hpass]
        exact herror error hpass
      | ok q =>
        rw [Logged.bind_of_ok hpass]
        apply Ends.of_reaches (hok q hpass)
        simp only [Logged.emit_bind]
        by_cases hless : q.assignment.unknownCount < a.unknownCount
        · simp only [hless, dite_true, Logged.bind_pure_eq]
          apply Ends.of_reaches (.single (.closes hless))
          have hrest := ih _ (hcount ▸ hless) (rounds + 1) q.active q.assignment
            (log ++ (pass s.circuit.prime active b).events ++ [.solverRound (rounds + 1)
              (a.unknownCount - q.assignment.unknownCount) q.assignment.unknownCount]) rfl
          have houtcome (x : Except SolveError (Search n)) (f : List Step → List Step) :
              (x.map fun rest => (⟨rest.assignment, rest.rounds, f rest.steps⟩ : Search n)).map
                Search.assignment = x.map Search.assignment := by
            cases x <;> rfl
          rw [houtcome _ fun steps => gadgetSteps ++ q.steps ++ steps]
          simpa only [List.append_assoc, List.singleton_append, List.nil_append] using hrest
        · simp only [hless, dite_false]
          have hstalls : s.Ends ⟨rounds, .within a.unknownCount [] [] ([] ++ q.active),
              q.assignment, log ++ (pass s.circuit.prime active b).events⟩ _ :=
            (Halts.stalls hless).ends
          rw [List.append_assoc] at hstalls
          exact hstalls

end CircuitTrace.Solver
