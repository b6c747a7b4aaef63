import CircuitTrace.Proofs.Run

namespace CircuitTrace

/-- Something went wrong before the final check. -/
def SolveError.BeforeCheck : SolveError → Prop
  | .witness _ => False
  | _ => True

/-- Something went wrong while the inputs were set or a step was taken. -/
def SolveError.OnTheWay : SolveError → Prop
  | .witness _ | .pathMismatch _ _ => False
  | _ => True

theorem SolveError.OnTheWay.beforeCheck {error : SolveError} (h : error.OnTheWay) :
    error.BeforeCheck := by
  cases error <;> trivial

namespace Solver

variable {s : Solver} {inputs : List Nat} {n : Nat} {a b : Assignment n}

theorem onTheWay_of_start {error : SolveError} (h : s.start inputs = .error error) :
    error.OnTheWay := by
  rw [start] at h
  split at h
  · obtain rfl := Except.error.inj h
    trivial
  · cases h

theorem gadgetFailed_of_applyGadget {p : Nat} {g : Gadget} {error : SolveError}
    (h : applyGadget p g a = .error error) : ∃ d, error = .gadgetFailed g.name d := by
  rw [applyGadget] at h
  split at h
  · cases h
  · exact ⟨_, (Except.error.inj h).symm⟩

/-- An elimination fails in one of two ways. -/
theorem unsupported_or_arithmetic_of_solveFor {p wire : Nat} {e : Equation}
    {values : Nat → Option Nat} {error : SolveError}
    (h : e.solveFor p values wire = .error error) :
    error = .unsupportedResidual e.index wire (e.residual p values).size ∨
      ∃ d, error = .arithmetic d := by
  have quotient {x : Except ArithmeticError (Option Nat)}
      (hx : x.mapError SolveError.arithmetic = .error error) : ∃ d, error = .arithmetic d := by
    obtain ⟨d, -, rfl⟩ := mapError_eq_error_iff.1 hx
    exact ⟨d, rfl⟩
  simp only [Equation.solveFor] at h
  split at h
  · split at h
    · split at h
      · cases h
      · exact .inl (Except.error.inj h).symm
      · exact .inr ⟨_, (Except.error.inj h).symm⟩
    · exact .inl (Except.error.inj h).symm
  · split at h
    · exact .inr (quotient h)
    · exact .inr (quotient h)
    · exact .inl (Except.error.inj h).symm
  · cases h
  · cases h

theorem onTheWay_of_applyGadget {p : Nat} {g : Gadget} {error : SolveError}
    (h : applyGadget p g a = .error error) : error.OnTheWay := by
  obtain ⟨d, rfl⟩ := gadgetFailed_of_applyGadget h
  trivial

theorem onTheWay_of_solveFor {p wire : Nat} {e : Equation} {values : Nat → Option Nat}
    {error : SolveError} (h : e.solveFor p values wire = .error error) : error.OnTheWay := by
  rcases unsupported_or_arithmetic_of_solveFor h with rfl | ⟨d, rfl⟩
  · trivial
  · trivial

theorem Halts.beforeCheck {q : Point n} {run : Logged SolveError (Assignment n)}
    {error : SolveError} (h : s.Halts q run) (herror : run.outcome = .error error) :
    error.BeforeCheck := by
  cases h with
  | solved => cases herror
  | fails happly =>
    obtain rfl := Except.error.inj herror
    exact (onTheWay_of_applyGadget happly).beforeCheck
  | refuses hunknown hvalue =>
    obtain rfl := Except.error.inj herror
    exact (onTheWay_of_solveFor hvalue).beforeCheck
  | stalls =>
    obtain rfl := Except.error.inj herror
    trivial

theorem onTheWay_of_follow {k : Nat} {step : Step} {error : SolveError}
    (h : s.follow s.equations k a step = .error error) : error.OnTheWay := by
  cases step with
  | eliminate constraint wire =>
    rw [follow] at h
    split at h
    · obtain rfl := Except.error.inj h
      trivial
    split at h
    · rcases bind_eq_error_iff.1 h with hvalue | ⟨root, -, h⟩
      · exact onTheWay_of_solveFor hvalue
      · cases root with
        | some value => cases h
        | none =>
          obtain rfl := Except.error.inj h
          trivial
    · obtain rfl := Except.error.inj h
      trivial
  | gadget index =>
    rw [follow] at h
    split at h
    · obtain rfl := Except.error.inj h
      trivial
    · rcases bind_eq_error_iff.1 h with happly | ⟨⟨count, b⟩, -, h⟩
      · exact onTheWay_of_applyGadget happly
      · rcases guard_eq_error h with rfl | h
        · trivial
        · cases h

theorem onTheWay_of_foldlM {l : List (Step × Nat)} {error : SolveError}
    (h : l.foldlM (fun a step => s.follow s.equations step.2 a step.1) a = .error error) :
    error.OnTheWay := by
  induction l generalizing a with
  | nil => cases h
  | cons step l ih =>
    rw [List.foldlM_cons] at h
    rcases bind_eq_error_iff.1 h with hstep | ⟨b, -, h⟩
    · exact onTheWay_of_follow hstep
    · exact ih h

/-- A solver fails before the final check, or the check of what its search found is its outcome. It
reports nothing of an elimination but what the search reports. -/
theorem solve_run_cases (s : Solver) (inputs : List Nat) :
    (∃ error, (s.solve inputs).outcome = .error error ∧ error.BeforeCheck) ∨
      ∃ a q, s.start inputs = .ok a ∧ s.Reaches (s.opening a) q ∧
        q.assignment.unknownCount = 0 ∧
        (s.solve inputs).outcome.map Prod.fst = s.finish q.assignment ∧
        ∃ report, (s.solve inputs).events = q.log ++ report ∧
          ∀ i wire residual value, .eliminated i wire residual value ∉ report := by
  rw [solve]
  cases hstart : s.start inputs with
  | error error =>
    rw [Logged.bind_of_error (e := error) rfl]
    exact .inl ⟨error, rfl, (onTheWay_of_start hstart).beforeCheck⟩
  | ok a =>
    rw [Logged.bind_of_ok (a := a) rfl]
    obtain ⟨q, hreaches, hhalts⟩ := ends_search s 0 s.equations a []
    cases hsearch : (s.search 0 s.equations a).outcome with
    | error error =>
      rw [Logged.bind_of_error hsearch]
      refine .inl ⟨error, rfl, hhalts.beforeCheck ?_⟩
      rw [hsearch]
      rfl
    | ok r =>
      obtain ⟨hq, hknown, hlog⟩ := hhalts.of_ok (congrArg (Except.map Search.assignment) hsearch)
      rw [Logged.bind_of_ok hsearch]
      refine .inr ⟨a, q, rfl, hreaches, by rwa [hq], ?_⟩
      rw [hq, ← hlog, List.nil_append]
      cases hfinish : s.finish r.assignment with
      | error error =>
        rw [Logged.bind_of_error (e := error) rfl]
        exact ⟨rfl, [], rfl, by simp⟩
      | ok w =>
        rw [Logged.bind_of_ok (a := w) rfl]
        exact ⟨rfl, [_], rfl, by simp⟩

theorem solve_cases (s : Solver) (inputs : List Nat) :
    (∃ error, (s.solve inputs).outcome = .error error ∧ error.BeforeCheck) ∨
      ∃ a q, s.start inputs = .ok a ∧ s.Reaches (s.opening a) q ∧
        q.assignment.unknownCount = 0 ∧
        (s.solve inputs).outcome.map Prod.fst = s.finish q.assignment ∧
        ∀ event ∈ q.log, event ∈ (s.solve inputs).events := by
  rcases solve_run_cases s inputs with hfailed |
    ⟨a, q, hstart, hreaches, hknown, houtcome, report, hevents, -⟩
  · exact .inl hfailed
  · refine .inr ⟨a, q, hstart, hreaches, hknown, houtcome, ?_⟩
    intro event hevent
    rw [hevents]
    exact List.mem_append_left report hevent

theorem replay_eq_finish {path : Path} {a b : Assignment s.circuit.wireCount}
    (hcircuit : path.circuit = s.circuit.fingerprint) (hstart : s.start inputs = .ok a)
    (hfollow : s.followAll s.equations path.steps a = .ok b) (hknown : b.unknownCount = 0) :
    s.replay inputs path = s.finish b := by
  simp [replay, hcircuit, hstart, hfollow, hknown, bind, Except.bind]

theorem replay_of_ne {path : Path} (h : path.circuit ≠ s.circuit.fingerprint) :
    s.replay inputs path = .error (.pathMismatch path.circuit s.circuit.fingerprint) := by
  rw [replay, if_pos h]
  rfl

/-- Behind the fingerprint a replay fails on the way, or it comes to the final check. -/
theorem replay_cases_of_eq (inputs : List Nat) {path : Path}
    (hcircuit : path.circuit = s.circuit.fingerprint) :
    (∃ error, s.replay inputs path = .error error ∧ error.OnTheWay) ∨
      ∃ a b, s.start inputs = .ok a ∧ s.followAll s.equations path.steps a = .ok b ∧
        b.unknownCount = 0 ∧ s.replay inputs path = s.finish b := by
  cases hstart : s.start inputs with
  | error error =>
    refine .inl ⟨error, ?_, onTheWay_of_start hstart⟩
    simp [replay, hcircuit, hstart, bind, Except.bind]
  | ok a =>
    cases hfollow : s.followAll s.equations path.steps a with
    | error error =>
      refine .inl ⟨error, ?_, onTheWay_of_foldlM hfollow⟩
      simp [replay, hcircuit, hstart, hfollow, bind, Except.bind]
    | ok b =>
      by_cases hknown : b.unknownCount = 0
      · exact .inr ⟨a, b, rfl, hfollow, hknown, replay_eq_finish hcircuit hstart hfollow hknown⟩
      · refine .inl ⟨.incompletePath b.unknownCount b.firstUnknown, ?_, trivial⟩
        simp [replay, hcircuit, hstart, hfollow, hknown, bind, Except.bind]
        rfl

theorem replay_cases (s : Solver) (inputs : List Nat) (path : Path) :
    (∃ error, s.replay inputs path = .error error ∧ error.BeforeCheck) ∨
      ∃ a b, s.start inputs = .ok a ∧ s.followAll s.equations path.steps a = .ok b ∧
        b.unknownCount = 0 ∧ s.replay inputs path = s.finish b := by
  by_cases hcircuit : path.circuit = s.circuit.fingerprint
  · rcases replay_cases_of_eq inputs hcircuit with ⟨error, herror, hway⟩ | hfinish
    · exact .inl ⟨error, herror, hway.beforeCheck⟩
    · exact .inr hfinish
  · exact .inl ⟨_, replay_of_ne hcircuit, trivial⟩

theorem exists_reaches_of_solve {w : Witness} {path : Path}
    (h : (s.solve inputs).outcome = .ok (w, path)) : ∃ a q, s.start inputs = .ok a ∧
      s.Reaches (s.opening a) q ∧ q.assignment.unknownCount = 0 ∧
      s.finish q.assignment = .ok w := by
  rcases solve_cases s inputs with ⟨error, herror, -⟩ |
    ⟨a, q, hstart, hreaches, hknown, houtcome, -⟩
  · rw [h] at herror
    cases herror
  · rw [h] at houtcome
    exact ⟨a, q, hstart, hreaches, hknown, houtcome.symm⟩

theorem exists_followAll_of_replay {w : Witness} {path : Path} (h : s.replay inputs path = .ok w) :
    ∃ a b, s.start inputs = .ok a ∧ s.followAll s.equations path.steps a = .ok b ∧
      b.unknownCount = 0 ∧ s.finish b = .ok w := by
  rcases replay_cases s inputs path with ⟨error, herror, -⟩ |
    ⟨a, b, hstart, hfollow, hknown, houtcome⟩
  · rw [h] at herror
    cases herror
  · exact ⟨a, b, hstart, hfollow, hknown, houtcome.symm.trans h⟩

end Solver

end CircuitTrace
