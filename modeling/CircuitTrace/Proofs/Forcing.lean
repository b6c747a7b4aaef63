import CircuitTrace.Proofs.Elimination
import CircuitTrace.Proofs.Solving

/-!
Values that a solver has no choice in. A value is forced when every solution of the circuit with the
given inputs has it. The start forces the inputs, and an elimination from a plain residual keeps
what is known forced.
-/
namespace CircuitTrace

namespace Circuit

variable {k : Circuit} {inputs : List Nat} {w : Witness}

/-- A witness with given inputs, the public ones first, up to multiples of the modulus. -/
structure Solves (k : Circuit) (inputs : List Nat) (w : Witness) : Prop where
  check : w.check k = .ok ()
  given : ∀ wire x, (wire, x) ∈ (k.publicWires.toList ++ k.privateWires.toList).zip inputs →
    w.value wire ≡ x [MOD k.prime]

/-- Values of the wires in `ZMod p` that satisfy a circuit and have given inputs. -/
structure Solution (k : Circuit) (inputs : List Nat) (u : Nat → ZMod k.prime) : Prop where
  one : u oneWire = 1
  given : ∀ wire x, (wire, x) ∈ k.inputWires.toList.zip inputs → u wire = x
  zero : ∀ c ∈ k.constraints, c.value u = 0

theorem Answers.solves (h : k.Answers inputs w) : k.Solves inputs w where
  check := Witness.check_eq_ok_iff.2 ⟨h.size, h.one, h.residuals⟩
  given wire x hx := by
    rw [h.given wire x hx]
    exact Nat.mod_modEq x k.prime

theorem Solves.solution (hk : k.WellFormed) (h : k.Solves inputs w) :
    k.Solution inputs fun wire => (w.value wire : ZMod k.prime) := by
  obtain ⟨-, hone, hresiduals⟩ := Witness.check_eq_ok_iff.1 h.check
  refine ⟨by simp [hone], ?_, ?_⟩
  · intro wire x hx
    rw [toList_inputWires] at hx
    exact (ZMod.natCast_eq_natCast_iff _ _ _).2 (h.given wire x hx)
  · intro c hc
    exact (Witness.residual_eq_zero_iff hk.prime_pos c).1 (hresiduals c hc)

end Circuit

/-- An elimination from a plain residual, if it is one. -/
def Event.Plain : Event → Prop
  | .eliminated _ wire residual _ => residual.Plain wire
  | _ => True

instance : DecidablePred Event.Plain
  | .eliminated _ wire residual _ => inferInstanceAs (Decidable (residual.Plain wire))
  | .repeatedSection _ | .trailingBytes _ | .solverRound .. | .witnessSolved .. | .mergeRound ..
  | .packedLayout .. | .layoutBuilt .. => inferInstanceAs (Decidable True)

namespace Solver

variable {s : Solver} {inputs : List Nat} {n : Nat} {a b : Assignment n}

/-- The constant wire is known, and everything that is known is reduced. -/
structure Regular (s : Solver) (a : Assignment n) : Prop where
  one : a.get? oneWire = some 1
  reduced : ∀ wire value, a.get? wire = some value → value < s.circuit.prime

/-- What is known is the same in all solutions. -/
def Forced (s : Solver) (inputs : List Nat) (a : Assignment n) : Prop :=
  ∀ u, s.circuit.Solution inputs u → ∀ wire value, a.get? wire = some value → u wire = value

theorem Started.regular (hk : s.circuit.WellFormed) (h : s.Started inputs a) : s.Regular a where
  one := h.one
  reduced wire value hvalue := by
    rcases h.only wire value hvalue with ⟨-, rfl⟩ | ⟨x, -, rfl⟩
    · exact hk.one_lt_prime
    · exact Nat.mod_lt x hk.prime_pos

theorem Started.forced (h : s.Started inputs a) : s.Forced inputs a := by
  intro u hu wire value hvalue
  rcases h.only wire value hvalue with ⟨rfl, rfl⟩ | ⟨x, hx, rfl⟩
  · simpa using hu.one
  · rw [Residue.cast_reduce, hu.given wire x hx]

section Elimination

variable {e : Equation} {wire value : Nat}

theorem Regular.assign (hk : s.circuit.WellFormed) (ha : s.Regular a)
    (hunknown : e.unknowns a.get? = [wire])
    (h : e.solveFor s.circuit.prime a.get? wire = .ok (some value)) :
    s.Regular (a.assign wire value) where
  one := extends_assign_of_unknowns hunknown value _ _ ha.one
  reduced other v hv := by
    rw [Assignment.get?_assign] at hv
    split at hv
    · obtain rfl := Option.some.inj hv
      exact Equation.solveFor_lt hk.prime_pos h
    · exact ha.reduced other v hv

theorem Forced.assign (hprime : s.circuit.prime.Prime) (ha : s.Regular a)
    (hforced : s.Forced inputs a) (he : e ∈ s.equations) (hunknown : e.unknowns a.get? = [wire])
    (hplain : (e.residual s.circuit.prime a.get?).Plain wire)
    (h : e.solveFor s.circuit.prime a.get? wire = .ok (some value)) :
    s.Forced inputs (a.assign wire value) := by
  intro u hu other v hv
  rw [Assignment.get?_assign] at hv
  split at hv
  · rename_i hother
    obtain ⟨rfl, -⟩ := hother
    obtain rfl := Option.some.inj hv
    obtain ⟨i, c, hc, rfl⟩ := mem_equations_iff.1 he
    have := Fact.mk hprime
    have hone : (a.get? oneWire).isSome := by simp [ha.one]
    exact Equation.eq_of_solveFor (hforced u hu) (hu.zero c (List.mem_of_getElem? hc)) hone hunknown
      hplain h
  · exact hforced u hu other v hv

end Elimination

theorem Next.regular (hk : s.circuit.WellFormed) (hnone : s.gadgets = []) {q q' : Point n}
    (h : s.Next q q') (hq : q.phase.Within s) (ha : s.Regular q.assignment) :
    s.Regular q'.assignment := by
  cases h with
  | opens => exact ha
  | applies =>
    have hg := (List.forall_mem_cons.1 hq.1).1
    simp [hnone] at hg
  | drops => exact ha
  | eliminates hunknown hvalue => exact ha.assign hk hunknown hvalue
  | keeps => exact ha
  | closes => exact ha

theorem Next.forced (hprime : s.circuit.prime.Prime) (hnone : s.gadgets = []) {q q' : Point n}
    (h : s.Next q q') (hq : q.phase.Within s) (ha : s.Regular q.assignment)
    (hforced : (∀ event ∈ q.log, event.Plain) → s.Forced inputs q.assignment) :
    (∀ event ∈ q'.log, event.Plain) → s.Forced inputs q'.assignment := by
  cases h with
  | opens => exact hforced
  | applies =>
    have hg := (List.forall_mem_cons.1 hq.1).1
    simp [hnone] at hg
  | drops => exact hforced
  | eliminates hunknown hvalue =>
    intro hplain
    obtain ⟨-, hahead, -⟩ := hq
    obtain ⟨hlog, hlast⟩ := List.forall_mem_append.1 hplain
    have hresidual := hlast _ (List.mem_singleton.2 rfl)
    have hrange := (List.forall_mem_cons.1 hahead).1
    exact (hforced hlog).assign hprime ha hrange hunknown hresidual hvalue
  | keeps => exact hforced
  | closes =>
    intro hplain
    exact hforced (List.forall_mem_append.1 hplain).1

theorem Reaches.regular (hk : s.circuit.WellFormed) (hnone : s.gadgets = []) {q q' : Point n}
    (h : s.Reaches q q') (hq : q.phase.Within s) (ha : s.Regular q.assignment) :
    s.Regular q'.assignment := by
  induction h with
  | refl => exact ha
  | tail hreaches hnext ih => exact hnext.regular hk hnone (Reaches.within hreaches hq) ih

theorem Reaches.forced (hk : s.circuit.WellFormed) (hprime : s.circuit.prime.Prime)
    (hnone : s.gadgets = []) {q q' : Point n} (h : s.Reaches q q') (hq : q.phase.Within s)
    (ha : s.Regular q.assignment) (hforced : s.Forced inputs q.assignment)
    (hplain : ∀ event ∈ q'.log, event.Plain) : s.Forced inputs q'.assignment := by
  have hall : (∀ event ∈ q'.log, event.Plain) → s.Forced inputs q'.assignment := by
    clear hplain
    induction h with
    | refl => exact fun _ => hforced
    | tail hreaches hnext ih =>
      exact hnext.forced hprime hnone (Reaches.within hreaches hq)
        (Reaches.regular hk hnone hreaches hq ha) ih
  exact hall hplain

/-- An elimination at an assignment is from a plain residual. -/
def PlainStep (s : Solver) (a : Assignment n) : Step → Prop
  | .eliminate constraint wire =>
    ∀ e ∈ s.equations[constraint]?, (e.residual s.circuit.prime a.get?).Plain wire
  | .gadget _ => True

instance (s : Solver) (a : Assignment n) : DecidablePred (s.PlainStep a)
  | .eliminate _ _ => inferInstanceAs (Decidable (∀ _ ∈ _, _))
  | .gadget _ => inferInstanceAs (Decidable True)

/-- No elimination that is made along a path is from a residual with a square next to another
term. -/
def PlainPath (s : Solver) (inputs : List Nat) (path : Path) : Prop :=
  ∀ a, s.start inputs = .ok a → ∀ i < path.steps.length,
    ∀ b, s.followAll s.equations (path.steps.take i) a = .ok b →
    ∀ c, s.followAll s.equations (path.steps.take (i + 1)) a = .ok c →
    ∀ step ∈ path.steps[i]?, s.PlainStep b step

instance (s : Solver) (inputs : List Nat) (path : Path) : Decidable (s.PlainPath inputs path) :=
  inferInstanceAs (Decidable (∀ a, s.start inputs = .ok a → _))

theorem follow_eq_ok (hnone : s.gadgets = []) {k : Nat} {step : Step}
    (h : s.follow s.equations k a step = .ok b) :
    ∃ constraint wire value e, step = .eliminate constraint wire ∧
      s.equations[constraint]? = some e ∧ e.unknowns a.get? = [wire] ∧
      e.solveFor s.circuit.prime a.get? wire = .ok (some value) ∧ b = a.assign wire value := by
  rcases follow_cases h with heliminate | ⟨index, g, count, -, hg, -⟩
  · exact heliminate
  · simp [hnone] at hg

/-- Before each step of a replay, and behind the last, what is known is regular, and it is forced if
the path is plain. -/
theorem regular_and_forced_of_followAll (hk : s.circuit.WellFormed)
    (hprime : s.circuit.prime.Prime) (hnone : s.gadgets = [])
    {a b : Assignment s.circuit.wireCount} (hstart : s.start inputs = .ok a) {path : Path} {i : Nat}
    (h : s.followAll s.equations (path.steps.take i) a = .ok b) :
    s.Regular b ∧ (s.PlainPath inputs path → s.Forced inputs b) := by
  induction i generalizing b with
  | zero =>
    obtain rfl : a = b := Except.ok.inj h
    have hstarted := started_of_start hk hstart
    exact ⟨hstarted.regular hk, fun _ => hstarted.forced⟩
  | succ i ih =>
    have hall := h
    rw [List.take_add_one, followAll_append] at h
    obtain ⟨c, hc, h⟩ := bind_eq_ok_iff.1 h
    obtain ⟨hregular, hforced⟩ := ih hc
    cases hstep : path.steps[i]? with
    | none =>
      rw [hstep] at h
      obtain rfl : c = b := Except.ok.inj h
      exact ⟨hregular, hforced⟩
    | some step =>
      rw [hstep, Option.toList_some, List.zipIdx_singleton, List.foldlM_cons] at h
      obtain ⟨b', hfollow, hb⟩ := bind_eq_ok_iff.1 h
      obtain rfl : b' = b := Except.ok.inj hb
      obtain ⟨constraint, wire, value, e, rfl, he, hunknown, hvalue, rfl⟩ :=
        follow_eq_ok hnone hfollow
      refine ⟨hregular.assign hk hunknown hvalue, ?_⟩
      intro hplain
      obtain ⟨hi, -⟩ := List.getElem?_eq_some_iff.1 hstep
      have hresidual := hplain a hstart i hi c hc _ hall _ hstep e he
      exact (hforced hplain).assign hprime hregular (List.mem_of_getElem? he) hunknown hresidual
        hvalue

end Solver

end CircuitTrace
