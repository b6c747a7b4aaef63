import CircuitTrace.Proofs.Outcomes

/-!
How long a search takes. A round goes on to the next only if it leaves fewer unknown wires than it
began with, by the count of the search itself. So there are no more rounds than there are unknown
wires at the start, whatever the gadgets do: they may overwrite values, make known wires unknown
again, report any number, and act differently in every round.
-/
namespace CircuitTrace

namespace Event

def isRound : Event → Bool
  | .solverRound .. => true
  | _ => false

/-- The wires that a round made known by its own report. -/
def resolved : Event → Nat
  | .solverRound _ resolved _ => resolved
  | _ => 0

/-- The reports of rounds that leave these numbers of unknown wires, of which the first begins with
`before` of them. -/
def rounds (round before : Nat) : List Nat → List Event
  | [] => []
  | left :: lefts => .solverRound (round + 1) (before - left) left :: rounds (round + 1) left lefts

theorem rounds_concat (round before left : Nat) (lefts : List Nat) :
    rounds round before (lefts ++ [left]) = rounds round before lefts ++
      [.solverRound (round + lefts.length + 1) (lefts.getLastD before - left) left] := by
  induction lefts generalizing round before with
  | nil => rfl
  | cons first lefts ih =>
    rw [List.cons_append, rounds, ih, rounds, List.getLastD_cons, List.length_cons,
      List.cons_append]
    congr 5
    omega

end Event

/-- Each round of a list leaves fewer unknown wires than it begins with. -/
def Falling (before : Nat) (lefts : List Nat) : Prop := (before :: lefts).IsChain (· > ·)

namespace Falling

variable {before left : Nat} {lefts : List Nat}

theorem concat (h : Falling before lefts) (hleft : left < lefts.getLastD before) :
    Falling before (lefts ++ [left]) := by
  rw [Falling, ← List.cons_append]
  apply List.IsChain.append h (List.isChain_singleton _)
  intro x hx y hy
  obtain rfl : y = left := by simpa using hy.symm
  rw [List.getLast?_cons, Option.mem_some_iff, ← List.getLastD_eq_getLast?] at hx
  exact hx ▸ hleft

/-- What the rounds made known and what they left makes up what there was. -/
theorem sum_resolved (h : Falling before lefts) (round : Nat) :
    ((Event.rounds round before lefts).map Event.resolved).sum + lefts.getLastD before =
      before := by
  induction lefts generalizing before round with
  | nil => simp [Event.rounds]
  | cons left lefts ih =>
    obtain ⟨hless, hrest⟩ := List.isChain_cons_cons.1 h
    have hsum := ih hrest (round + 1)
    rw [Event.rounds, List.map_cons, List.sum_cons, Event.resolved, List.getLastD_cons]
    omega

theorem length_add_le (h : Falling before lefts) :
    lefts.length + lefts.getLastD before ≤ before := by
  induction lefts generalizing before with
  | nil => simp
  | cons left lefts ih =>
    obtain ⟨hless, hrest⟩ := List.isChain_cons_cons.1 h
    have hle := ih hrest
    rw [List.length_cons, List.getLastD_cons]
    omega

end Falling

/-- The errors that end a search within a round. -/
def SolveError.Interrupts : SolveError → Prop
  | .gadgetFailed .. => True
  | .unsupportedResidual .. => True
  | .arithmetic _ => True
  | _ => False

open Solver (Point Phase)

variable {k : Circuit} {s : Solver} {n : Nat}

/-- One step of a search for a circuit with any gadgets. From one round to the next these may be
others: so act gadgets that keep a state. -/
def Circuit.Next (k : Circuit) (q q' : Point n) : Prop :=
  ∃ gadgets, (⟨k, gadgets⟩ : Solver).Next q q'

abbrev Circuit.Reaches (k : Circuit) : Point n → Point n → Prop := Relation.ReflTransGen k.Next

namespace Solver

/-- The number of unknown wires that a round begins with, the current one or else the next. -/
def Point.level (q : Point n) : Nat :=
  match q.phase with
  | .between _ => q.assignment.unknownCount
  | .within before _ _ _ => before

/-- The rounds that have begun. -/
def Point.begun (q : Point n) : Nat :=
  match q.phase with
  | .between _ => q.rounds
  | .within .. => q.rounds + 1

/-- What a round has still to come to, which is beyond any number before it has begun. -/
def Phase.pending : Phase → ℕ∞
  | .between _ => ⊤
  | .within _ gadgets ahead _ => (gadgets.length + ahead.length : Nat)

/-- There is no search without end: a round runs out of gadgets and equations, and the next begins
with fewer unknown wires. -/
theorem wellFounded_next (k : Circuit) (n : Nat) :
    WellFounded fun q' q : Point n => k.Next q q' := by
  have hrank : WellFounded fun q' q : Point n =>
      toLex (q'.level, q'.phase.pending) < toLex (q.level, q.phase.pending) :=
    InvImage.wf (fun q : Point n => toLex (q.level, q.phase.pending)) wellFounded_lt
  refine Subrelation.wf ?_ hrank
  rintro q' q ⟨gadgets, hnext⟩
  rw [Prod.Lex.toLex_lt_toLex]
  -- The level falls where a round closes, and what is pending at every other step.
  cases hnext with
  | opens => exact .inr ⟨rfl, ENat.natCast_lt_top _⟩
  | applies => exact .inr ⟨rfl, Nat.cast_lt.2 (by simp)⟩
  | drops => exact .inr ⟨rfl, Nat.cast_lt.2 (by simp)⟩
  | eliminates => exact .inr ⟨rfl, Nat.cast_lt.2 (by simp)⟩
  | keeps => exact .inr ⟨rfl, Nat.cast_lt.2 (by simp)⟩
  | closes hless => exact .inl hless

/-- A search that has no next step is over. -/
theorem exists_next_or_halts (s : Solver) (q : Point n) :
    (∃ q', s.Next q q') ∨ ∃ run, s.Halts q run := by
  obtain ⟨rounds, phase, a, log⟩ := q
  cases phase with
  | between active =>
    by_cases hzero : a.unknownCount = 0
    · exact .inr ⟨_, .solved hzero⟩
    · exact .inl ⟨_, .opens hzero⟩
  | within before gadgets ahead kept =>
    rcases gadgets with _ | ⟨⟨g, index⟩, gadgets⟩
    · rcases ahead with _ | ⟨e, ahead⟩
      · by_cases hless : a.unknownCount < before
        · exact .inl ⟨_, .closes hless⟩
        · exact .inr ⟨_, .stalls hless⟩
      · rcases pass_cons_cases s.circuit.prime e a with hunknown |
          ⟨wire, value, hunknown, hvalue⟩ | ⟨-, hnone⟩ | ⟨wire, error, hunknown, herror⟩
        · exact .inl ⟨_, .drops hunknown⟩
        · exact .inl ⟨_, .eliminates hunknown hvalue⟩
        · exact .inl ⟨_, .keeps hnone⟩
        · exact .inr ⟨_, .refuses hunknown herror⟩
    · cases happly : applyGadget s.circuit.prime g a with
      | error error => exact .inr ⟨_, .fails happly⟩
      | ok x => exact .inl ⟨_, .applies happly⟩

/-- The rounds behind a point of a search left these numbers of unknown wires, each fewer than the
one before, and reported nothing else; the current round began with the last of them. -/
structure Point.Paced (q : Point n) (start : Nat) (lefts : List Nat) : Prop where
  rounds : q.rounds = lefts.length
  reported : q.log.filter Event.isRound = Event.rounds 0 start lefts
  falling : Falling start lefts
  level : q.level = lefts.getLastD start
  begun : q.begun ≤ q.rounds + q.level

theorem Next.paced {q q' : Point n} (h : s.Next q q') {start : Nat} {lefts : List Nat}
    (hq : q.Paced start lefts) : ∃ lefts', q'.Paced start lefts' := by
  obtain ⟨hrounds, hreported, hfalling, hlevel, hbegun⟩ := hq
  cases h with
  | opens hne =>
    exact ⟨lefts, hrounds, hreported, hfalling, hlevel,
      Nat.add_le_add_left (Nat.one_le_iff_ne_zero.2 hne) _⟩
  | applies => exact ⟨lefts, hrounds, hreported, hfalling, hlevel, hbegun⟩
  | drops => exact ⟨lefts, hrounds, hreported, hfalling, hlevel, hbegun⟩
  | keeps => exact ⟨lefts, hrounds, hreported, hfalling, hlevel, hbegun⟩
  | eliminates =>
    refine ⟨lefts, hrounds, ?_, hfalling, hlevel, hbegun⟩
    rw [List.filter_append, hreported]
    exact List.append_nil _
  | @closes round before kept a log hless =>
    have hround : round = lefts.length := hrounds
    have hbefore : before = lefts.getLastD start := hlevel
    refine ⟨lefts ++ [a.unknownCount], ?_, ?_, hfalling.concat (hbefore ▸ hless), ?_, ?_⟩
    · rw [List.length_append, List.length_singleton, ← hround]
    · rw [List.filter_append, hreported, Event.rounds_concat, Nat.zero_add, hround, hbefore]
      rfl
    · rw [List.getLastD_concat]
      rfl
    · exact Nat.le_add_right _ _

theorem paced_of_reaches {a : Assignment n} {q : Point n} (h : k.Reaches (s.opening a) q) :
    ∃ lefts, q.Paced a.unknownCount lefts := by
  induction h with
  | refl => exact ⟨[], rfl, rfl, List.isChain_singleton _, rfl, Nat.zero_le _⟩
  | tail _ hnext ih =>
    obtain ⟨lefts, hpaced⟩ := ih
    obtain ⟨gadgets, hnext⟩ := hnext
    exact hnext.paced hpaced

theorem Point.Paced.begun_le {q : Point n} {start : Nat} {lefts : List Nat}
    (h : q.Paced start lefts) : q.begun ≤ start := by
  have hle := h.falling.length_add_le
  rw [← h.rounds, ← h.level] at hle
  exact h.begun.trans hle

/-- The rounds of a run that began with `start` unknown wires left these numbers of them. -/
structure Course {α : Type} (run : Logged SolveError α) (start : Nat) (lefts : List Nat) :
    Prop where
  reported : run.events.filter Event.isRound = Event.rounds 0 start lefts
  length_le : lefts.length ≤ start
  /-- One more round has begun where an error ended the run within it. -/
  interrupted : ∀ error, run.outcome = .error error → error.Interrupts → lefts.length < start
  falling : (∀ unknown first, run.outcome ≠ .error (.unsatisfiable unknown first)) →
    Falling start lefts
  /-- Only the last round of a run that gives up leaves no fewer unknown wires. -/
  stalled : ∀ unknown first, run.outcome = .error (.unsatisfiable unknown first) →
    ∃ before, lefts = before ++ [unknown] ∧ Falling start before ∧ before.getLastD start ≤ unknown
  complete : ∀ x, run.outcome = .ok x → lefts.getLastD start = 0 ∧
    ((run.events.filter Event.isRound).map Event.resolved).sum = start

/-- A run that does not give up. -/
theorem Course.of_falling {α : Type} {run : Logged SolveError α} {start : Nat} {lefts : List Nat}
    (h : Falling start lefts)
    (hreported : run.events.filter Event.isRound = Event.rounds 0 start lefts)
    (hinterrupted : ∀ error, run.outcome = .error error → error.Interrupts → lefts.length < start)
    (hstalled : ∀ unknown first, run.outcome ≠ .error (.unsatisfiable unknown first))
    (hcomplete : ∀ x, run.outcome = .ok x → lefts.getLastD start = 0) :
    Course run start lefts where
  reported := hreported
  length_le := (Nat.le_add_right _ _).trans h.length_add_le
  interrupted := hinterrupted
  falling _ := h
  stalled unknown first hout := absurd hout (hstalled unknown first)
  complete x hx := by
    have hsum := h.sum_resolved 0
    rw [hcomplete x hx, Nat.add_zero, ← hreported] at hsum
    exact ⟨hcomplete x hx, hsum⟩

theorem Halts.course {q : Point n} {run : Logged SolveError (Assignment n)} (h : s.Halts q run)
    {start : Nat} {lefts : List Nat} (hq : q.Paced start lefts) :
    ∃ lefts', Course run start lefts' := by
  have hbegun := hq.begun_le
  obtain ⟨hrounds, hreported, hfalling, hlevel, -⟩ := hq
  cases h with
  | solved hzero =>
    refine ⟨lefts, .of_falling hfalling hreported nofun nofun fun _ _ => ?_⟩
    rw [← hlevel]
    exact hzero
  | fails happly =>
    obtain ⟨d, rfl⟩ := gadgetFailed_of_applyGadget happly
    refine ⟨lefts, .of_falling hfalling hreported (fun _ _ _ => ?_) nofun nofun⟩
    rw [← hrounds]
    exact hbegun
  | refuses hunknown hvalue =>
    refine ⟨lefts, .of_falling hfalling hreported (fun _ _ _ => ?_) ?_ nofun⟩
    · rw [← hrounds]
      exact hbegun
    · intro unknown first hout
      obtain rfl := Except.error.inj hout
      rcases unsupported_or_arithmetic_of_solveFor hvalue with herror | ⟨d, herror⟩
      · cases herror
      · cases herror
  | @stalls round before kept a log hless =>
    have hround : round = lefts.length := hrounds
    have hbefore : before = lefts.getLastD start := hlevel
    refine ⟨lefts ++ [a.unknownCount], ?_, ?_, ?_, ?_, ?_, nofun⟩
    · rw [List.filter_append, hreported, Event.rounds_concat, Nat.zero_add, hround, hbefore]
      rfl
    · rw [List.length_append, List.length_singleton, ← hround]
      exact hbegun
    · intro error hout hinterrupts
      obtain rfl := Except.error.inj hout
      exact hinterrupts.elim
    · intro hout
      exact absurd rfl (hout _ _)
    · intro unknown first hout
      obtain ⟨rfl, -⟩ := SolveError.unsatisfiable.inj (Except.error.inj hout)
      exact ⟨lefts, rfl, hfalling, hbefore ▸ Nat.not_lt.1 hless⟩

/-- What is known of every search for a circuit from an assignment, whatever the gadgets do in each
of its rounds. -/
structure Terminates (k : Circuit) (a : Assignment n) : Prop where
  wellFounded : WellFounded fun q' q : Point n => k.Next q q'
  halts : ∀ gadgets (q : Point n),
    (∃ q', (⟨k, gadgets⟩ : Solver).Next q q') ∨ ∃ run, (⟨k, gadgets⟩ : Solver).Halts q run
  begun_le : ∀ gadgets q, k.Reaches ((⟨k, gadgets⟩ : Solver).opening a) q →
    q.begun ≤ a.unknownCount
  course : ∀ gadgets q run, k.Reaches ((⟨k, gadgets⟩ : Solver).opening a) q →
    (⟨k, gadgets⟩ : Solver).Halts q run → ∃ lefts, Course run a.unknownCount lefts

theorem terminates (k : Circuit) (a : Assignment n) : Terminates k a where
  wellFounded := wellFounded_next k n
  halts gadgets q := exists_next_or_halts ⟨k, gadgets⟩ q
  begun_le gadgets q hreaches := by
    obtain ⟨lefts, hpaced⟩ := paced_of_reaches hreaches
    exact hpaced.begun_le
  course gadgets q run hreaches hhalts := by
    obtain ⟨lefts, hpaced⟩ := paced_of_reaches hreaches
    exact hhalts.course hpaced

theorem Reaches.anyGadgets {q q' : Point n} (h : s.Reaches q q') : s.circuit.Reaches q q' :=
  h.lift id fun _ _ hnext => ⟨s.gadgets, hnext⟩

/-- The course of a run that fails is told by its reports and its error. -/
theorem Course.of_error {α β : Type} {run : Logged SolveError α} {run' : Logged SolveError β}
    {start : Nat} {lefts : List Nat} {error : SolveError} (h : Course run start lefts)
    (hout : run.outcome = .error error) (hevents : run'.events = run.events)
    (hout' : run'.outcome = .error error) : Course run' start lefts where
  reported := hevents ▸ h.reported
  length_le := h.length_le
  interrupted e he hinterrupts := by
    obtain rfl := Except.error.inj (hout'.symm.trans he)
    exact h.interrupted error hout hinterrupts
  falling hne := h.falling fun unknown first he => by
    obtain rfl := Except.error.inj (hout.symm.trans he)
    exact hne unknown first hout'
  stalled unknown first he := by
    obtain rfl := Except.error.inj (hout'.symm.trans he)
    exact h.stalled unknown first hout
  complete x hx := by
    rw [hout'] at hx
    cases hx

/-- Behind a search that came to a result, a solver fails at the final check, or else reports once
more, but no round. -/
theorem solve_of_search_ok {inputs : List Nat} {a : Assignment s.circuit.wireCount}
    {r : Search s.circuit.wireCount} (hstart : s.start inputs = .ok a)
    (hsearch : (s.search 0 s.equations a).outcome = .ok r) :
    (∃ error, s.solve inputs = ⟨(s.search 0 s.equations a).events, .error (.witness error)⟩) ∨
      ∃ report x, s.solve inputs = ⟨(s.search 0 s.equations a).events ++ [report], .ok x⟩ ∧
        report.isRound = false := by
  rw [solve, Logged.bind_of_ok hstart, Logged.bind_of_ok hsearch]
  cases hfinish : s.finish r.assignment with
  | error error =>
    obtain ⟨d, -, rfl⟩ := mapError_eq_error_iff.1 (map_eq_error_iff.1 hfinish)
    rw [Logged.bind_of_error (e := .witness d) rfl]
    refine .inl ⟨d, ?_⟩
    simp only [Logged.events_monadLift, List.nil_append, List.append_nil]
  | ok w =>
    rw [Logged.bind_of_ok (a := w) rfl]
    let path : Path := ⟨s.circuit.fingerprint, r.steps⟩
    let cost := s.cost path
    refine .inr ⟨.witnessSolved r.rounds path.steps.length cost.multiplications cost.additions,
      (w, path), ?_, rfl⟩
    simp only [Logged.events_monadLift, List.nil_append, Logged.emit_bind]
    rfl

theorem course_of_solve {inputs : List Nat} {a : Assignment s.circuit.wireCount}
    (hstart : s.start inputs = .ok a) : ∃ lefts, Course (s.solve inputs) a.unknownCount lefts := by
  obtain ⟨q, hreaches, hhalts⟩ := ends_search s 0 s.equations a []
  obtain ⟨lefts, hcourse⟩ :=
    (terminates s.circuit a).course s.gadgets q _ (Reaches.anyGadgets hreaches) hhalts
  refine ⟨lefts, ?_⟩
  cases hsearch : (s.search 0 s.equations a).outcome with
  | error error =>
    rw [solve, Logged.bind_of_ok hstart, Logged.bind_of_error hsearch]
    exact hcourse.of_error (congrArg (Except.map Search.assignment) hsearch) rfl rfl
  | ok r =>
    rw [hsearch] at hcourse
    have hfalling := hcourse.falling fun _ _ hout => by cases hout
    have hreported := hcourse.reported
    obtain ⟨hzero, -⟩ := hcourse.complete _ rfl
    rcases solve_of_search_ok hstart hsearch with ⟨d, hsolve⟩ | ⟨report, x, hsolve, hreport⟩
    · rw [hsolve]
      refine .of_falling hfalling hreported ?_ (fun _ _ hout => by cases hout)
        fun _ hout => by cases hout
      intro error hout hinterrupts
      obtain rfl := Except.error.inj hout
      exact hinterrupts.elim
    · rw [hsolve]
      refine .of_falling hfalling ?_ (fun _ hout => by cases hout) (fun _ _ hout => by cases hout)
        fun _ _ => hzero
      rw [List.filter_append, List.filter_singleton, hreport]
      exact (List.append_nil _).trans hreported

/-- A search ends after no more rounds than there are unknown wires at its start, in whatever way
the gadgets act in each of its rounds. All rounds but the last of a run that gives up leave fewer
unknown wires than they began with, and a run that comes to a result reports for its rounds that
they made known as many wires as were unknown. -/
theorem rounds_of_solve (s : Solver) (inputs : List Nat) {a : Assignment s.circuit.wireCount}
    (hstart : s.start inputs = .ok a) :
    Terminates s.circuit a ∧
      s.Ends (s.opening a) ⟨(s.search 0 s.equations a).events,
        (s.search 0 s.equations a).outcome.map Search.assignment⟩ ∧
      ∃ lefts, Course (s.solve inputs) a.unknownCount lefts :=
  ⟨terminates s.circuit a, ends_search s 0 s.equations a [], course_of_solve hstart⟩

/-- The square of wire 2 on wire 3 with its bits, where a gadget overwrites the input in every round
or makes wire 3 unknown again. -/
def tamperedBits (write : (n : Nat) → Assignment n → Assignment n) : Solver where
  circuit := squareBits.circuit
  gadgets := [⟨"tamper", fun _ {n} a => (.ok 9, write n a)⟩, BitDecomposition.toGadget ⟨3, 4, 3⟩]

/-- Five wires are unknown at the start of both runs. The first comes to a result; the second loses
wire 3 in its second round, as the constraint that gave it is not looked at again. -/
theorem rounds_of_solve_tamperedBits :
    (∃ lefts, Course ((tamperedBits fun _ a => a.assign 2 2).solve [50]) 5 lefts ∧
      lefts.getLastD 5 = 0) ∧
    ∃ lefts, Course ((tamperedBits fun _ a => a.setIfInBounds 3 none).solve [2]) 5 (lefts ++ [5]) ∧
      Falling 5 lefts ∧ lefts.getLastD 5 ≤ 5 := by
  obtain ⟨a, hstart, hcount⟩ : ∃ a, (tamperedBits fun _ a => a.assign 2 2).start [50] = .ok a ∧
      a.unknownCount = 5 := by
    decide +kernel
  obtain ⟨b, hstart', hcount'⟩ : ∃ b,
      (tamperedBits fun _ a => a.setIfInBounds 3 none).start [2] = .ok b ∧ b.unknownCount = 5 := by
    decide +kernel
  obtain ⟨x, hsolve⟩ : ∃ x, ((tamperedBits fun _ a => a.assign 2 2).solve [50]).outcome = .ok x ∧
      x.1 = ⟨[1, 4, 2, 4, 0, 0, 1]⟩ := by
    decide +kernel
  have hstalls : ((tamperedBits fun _ a => a.setIfInBounds 3 none).solve [2]).outcome =
      .error (.unsatisfiable 5 1) := by
    decide +kernel
  obtain ⟨-, -, lefts, hcourse⟩ :=
    rounds_of_solve (tamperedBits fun _ a => a.assign 2 2) [50] hstart
  obtain ⟨-, -, lefts', hcourse'⟩ :=
    rounds_of_solve (tamperedBits fun _ a => a.setIfInBounds 3 none) [2] hstart'
  rw [hcount] at hcourse
  rw [hcount'] at hcourse'
  obtain ⟨before, rfl, hfalling, hle⟩ := hcourse'.stalled 5 1 hstalls
  exact ⟨⟨lefts, hcourse, (hcourse.complete x hsolve.1).1⟩, before, hcourse', hfalling, hle⟩

end Solver

end CircuitTrace
