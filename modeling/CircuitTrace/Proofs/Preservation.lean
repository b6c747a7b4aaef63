import CircuitTrace.Proofs.Shapes
import CircuitTrace.Proofs.Solving

/-!
What an elimination achieves lasts. The value that it finds satisfies the constraint, all wires of
which are then known, and known wires are not written again: so every constraint that was eliminated
on the way is satisfied at every later point, in a search and in a replay. The constraint that fails
the final check is none of them.
-/
namespace CircuitTrace.Solver

variable {s : Solver} {n : Nat} {a b : Assignment n}

/-- A constraint that has no unknown wire and holds at the values of its wires. -/
def Satisfied (s : Solver) (a : Assignment n) (i : Nat) : Prop :=
  ∃ c, s.circuit.constraints[i]? = some c ∧ (∀ wire, c.Mentions wire → (a.get? wire).isSome) ∧
    c.residual s.circuit.prime (fun wire => (a.get? wire).getD 0) = 0

theorem Satisfied.mono (hk : s.circuit.WellFormed) {i : Nat} (h : s.Satisfied a i)
    (hextends : a.Extends b) : s.Satisfied b i := by
  obtain ⟨c, hc, hknown, hzero⟩ := h
  have hsame (wire : Nat) (hwire : c.Mentions wire) : b.get? wire = a.get? wire :=
    hextends.get?_eq (hknown wire hwire)
  refine ⟨c, hc, ?_, ?_⟩
  · intro wire hwire
    rw [hsame wire hwire]
    exact hknown wire hwire
  · rw [c.residual_eq_zero_iff hk.prime_pos] at hzero ⊢
    rw [← hzero]
    apply Constraint.value_congr
    intro wire hwire
    rw [hsame wire hwire]

/-- An elimination satisfies its constraint. -/
theorem satisfied_assign (hk : s.circuit.WellFormed) (hprime : s.circuit.prime.Prime)
    {a : Assignment s.circuit.wireCount} (hone : (a.get? oneWire).isSome) {e : Equation}
    (he : e ∈ s.equations) {wire value : Nat} (hunknown : e.unknowns a.get? = [wire])
    (h : e.solveFor s.circuit.prime a.get? wire = .ok (some value)) :
    s.Satisfied (a.assign wire value) e.index := by
  have hfact : Fact s.circuit.prime.Prime := ⟨hprime⟩
  have hwire := lt_of_unknowns hk he hunknown
  have hextends := extends_assign_of_unknowns hunknown value
  have hnil := unknowns_assign hunknown hwire value
  obtain ⟨i, c, hc, rfl⟩ := mem_equations_iff.1 he
  have hknown : ∀ x, c.Mentions x → ((a.assign wire value).get? x).isSome := by
    intro x hx
    by_cases hx0 : x = oneWire
    · rw [hx0, hextends.get?_eq hone]
      exact hone
    · have hx := List.filter_eq_nil_iff.1 hnil x (Constraint.mem_wires_iff.2 ⟨hx, hx0⟩)
      simpa [Option.isSome_iff_ne_none] using hx
  refine ⟨c, hc, hknown, ?_⟩
  -- The root that was found is where the polynomial in the wire is zero.
  obtain ⟨v, -, heq, hroot⟩ | heq | ⟨terms, heq⟩ := Equation.solveFor_outcome hone hunknown
  · obtain rfl : value = v := Option.some.inj (Except.ok.inj (h.symm.trans heq))
    rw [c.residual_eq_zero_iff hk.prime_pos]
    rw [c.eval_univariate_eq_value] at hroot
    rw [← hroot]
    apply Constraint.value_congr
    intro x hx
    cases hvalue : a.get? x with
    | some d => simp [hextends x d hvalue]
    | none =>
      obtain rfl := Equation.eq_of_mentions hone hunknown hx hvalue
      simp [Assignment.get?_assign, hwire]
  · rw [h] at heq
    cases heq
  · rw [h] at heq
    cases heq

/-- Where a search stands the constant wire is known, and all that it eliminated is satisfied. -/
structure Point.Upholds (s : Solver) (q : Point n) : Prop where
  one : (q.assignment.get? oneWire).isSome
  satisfied : ∀ i wire residual value, .eliminated i wire residual value ∈ q.log →
    s.Satisfied q.assignment i

variable {q q' : Point s.circuit.wireCount}

/-- A step that reports no elimination and overwrites nothing. -/
theorem Point.Upholds.of_extends (hk : s.circuit.WellFormed) (h : q.Upholds s)
    (hextends : q.assignment.Extends q'.assignment)
    (hlog : ∀ i wire residual value, .eliminated i wire residual value ∈ q'.log →
      .eliminated i wire residual value ∈ q.log) : q'.Upholds s where
  one := by
    rw [hextends.get?_eq h.one]
    exact h.one
  satisfied i wire residual value hmem :=
    (h.satisfied i wire residual value (hlog _ _ _ _ hmem)).mono hk hextends

theorem Next.upholds (hk : s.circuit.WellFormed) (hprime : s.circuit.prime.Prime)
    (hfills : ∀ g ∈ s.gadgets, g.FillsUnknown s.circuit.prime) (h : s.Next q q')
    (hq : q.phase.Within s) (hupholds : q.Upholds s) : q'.Upholds s := by
  have hextends := h.extends hfills hq
  cases h with
  | opens => exact hupholds.of_extends hk hextends fun _ _ _ _ => id
  | applies => exact hupholds.of_extends hk hextends fun _ _ _ _ => id
  | drops => exact hupholds.of_extends hk hextends fun _ _ _ _ => id
  | keeps => exact hupholds.of_extends hk hextends fun _ _ _ _ => id
  | closes =>
    apply hupholds.of_extends hk hextends
    intro i wire residual value hmem
    simpa using hmem
  | @eliminates r m wire value e es kept a log hunknown hvalue =>
    obtain ⟨-, hahead, -⟩ := hq
    have he : e ∈ s.equations := (List.forall_mem_cons.1 hahead).1
    have hnew := satisfied_assign hk hprime hupholds.one he hunknown hvalue
    refine ⟨(congrArg Option.isSome (hextends.get?_eq hupholds.one)).trans hupholds.one, ?_⟩
    intro i wire' residual value' hmem
    rcases List.mem_append.1 hmem with hold | hlast
    · exact (hupholds.satisfied i _ _ _ hold).mono hk hextends
    · have hlast := List.mem_singleton.1 hlast
      injection hlast with hi
      exact hi ▸ hnew

theorem Reaches.upholds (hk : s.circuit.WellFormed) (hprime : s.circuit.prime.Prime)
    (hfills : ∀ g ∈ s.gadgets, g.FillsUnknown s.circuit.prime) (h : s.Reaches q q')
    (hq : q.phase.Within s) (hupholds : q.Upholds s) : q'.Upholds s := by
  induction h with
  | refl => exact hupholds
  | tail hreaches hnext ih => exact hnext.upholds hk hprime hfills (Reaches.within hreaches hq) ih

theorem upholds_opening {a : Assignment n} (hone : (a.get? oneWire).isSome) :
    (s.opening a).Upholds s where
  one := hone
  satisfied := by simp [opening]

/-- What the steps of a path eliminate is satisfied where they lead. -/
theorem satisfied_of_foldlM_follow (hk : s.circuit.WellFormed) (hprime : s.circuit.prime.Prime)
    (hfills : ∀ g ∈ s.gadgets, g.FillsUnknown s.circuit.prime)
    {a b : Assignment s.circuit.wireCount} (hone : (a.get? oneWire).isSome)
    {l : List (Step × Nat)}
    (h : l.foldlM (fun a step => s.follow s.equations step.2 a step.1) a = .ok b) {i wire : Nat}
    (hmem : .eliminate i wire ∈ l.map Prod.fst) : s.Satisfied b i := by
  induction l generalizing a with
  | nil => cases hmem
  | cons step l ih =>
    rw [List.foldlM_cons] at h
    obtain ⟨c, hstep, h⟩ := bind_eq_ok_iff.1 h
    have hac := extends_follow hfills hstep
    have hcb := extends_foldlM_follow hfills h
    rcases List.mem_cons.1 hmem with hfirst | hrest
    · obtain ⟨constraint, x, value, e, heq, he, hunknown, hvalue, rfl⟩ | ⟨index, g, -, heq, -⟩ :=
        follow_cases hstep
      · obtain ⟨rfl, rfl⟩ : i = constraint ∧ wire = x := by simpa [← hfirst] using heq
        have hnew := satisfied_assign hk hprime hone (List.mem_of_getElem? he) hunknown hvalue
        rw [getElem?_equations] at he
        obtain ⟨k, -, rfl⟩ := Option.map_eq_some_iff.1 he
        exact hnew.mono hk hcb
      · simp [← hfirst] at heq
    · exact ih ((congrArg Option.isSome (hac.get?_eq hone)).trans hone) h hrest

/-- What is known of every run from an assignment: of its search, which is that of the machine, and
of the replay of every path up to any of its steps. -/
structure Preserves (s : Solver) (a : Assignment s.circuit.wireCount) : Prop where
  ends : s.Ends (s.opening a) ⟨(s.search 0 s.equations a).events,
    (s.search 0 s.equations a).outcome.map Search.assignment⟩
  search : ∀ q, s.Reaches (s.opening a) q → ∀ i wire residual value,
    .eliminated i wire residual value ∈ q.log → s.Satisfied q.assignment i
  replay : ∀ (path : Path) (k : Nat) (b : Assignment s.circuit.wireCount),
    s.followAll s.equations (path.steps.take k) a = .ok b → ∀ i wire,
    .eliminate i wire ∈ path.steps.take k → s.Satisfied b i

theorem preserves_of_start (hk : s.circuit.WellFormed) (hprime : s.circuit.prime.Prime)
    (hfills : ∀ g ∈ s.gadgets, g.FillsUnknown s.circuit.prime) {inputs : List Nat}
    {a : Assignment s.circuit.wireCount} (hstart : s.start inputs = .ok a) : s.Preserves a where
  ends := ends_search s 0 s.equations a []
  search q hq := by
    have hone : (a.get? oneWire).isSome := by simp [(started_of_start hk hstart).one]
    exact (hq.upholds hk hprime hfills (s.within_opening a) (upholds_opening hone)).satisfied
  replay path k b h i wire hmem := by
    have hone : (a.get? oneWire).isSome := by simp [(started_of_start hk hstart).one]
    exact satisfied_of_foldlM_follow hk hprime hfills hone h (by simpa using hmem)

/-- The final check does not fail at a constraint that is satisfied. -/
theorem Satisfied.finish_ne_violated {i : Nat} (h : s.Satisfied a i) :
    s.finish a ≠ .error (.witness (.violated i)) := by
  intro hfinish
  rw [finish] at hfinish
  obtain ⟨error, hcheck, heq⟩ := mapError_eq_error_iff.1 (map_eq_error_iff.1 hfinish)
  obtain rfl : error = .violated i := by simpa using heq
  obtain ⟨c, hc, hne⟩ := Witness.exists_residual_ne_zero hcheck
  obtain ⟨d, hd, -, hzero⟩ := h
  obtain rfl : c = d := by simpa [hc] using hd
  apply hne
  rw [← hzero]
  congr 1
  funext wire
  exact Assignment.value_mk_values a wire

/-- Let the modulus be a prime and let gadgets write unknown wires only. At every point of a search,
and behind every step of a replay of any path, each constraint that was eliminated so far has no
unknown wire and holds; if the final check fails, then at a constraint that was not eliminated. -/
theorem eliminated_satisfied {bytes : Bytes}
    (hparse : (Circuit.parse bytes).outcome = .ok s.circuit) (hprime : s.circuit.prime.Prime)
    (hfills : ∀ g ∈ s.gadgets, g.FillsUnknown s.circuit.prime) (inputs : List Nat) :
    (∀ a, s.start inputs = .ok a → s.Preserves a) ∧
    (∀ i, (s.solve inputs).outcome = .error (.witness (.violated i)) →
      ∀ wire residual value, .eliminated i wire residual value ∉ (s.solve inputs).events) ∧
    ∀ path i, s.replay inputs path = .error (.witness (.violated i)) →
      ∀ wire, .eliminate i wire ∉ path.steps := by
  have hk : s.circuit.WellFormed := Circuit.wellFormed_of_parse hparse
  refine ⟨fun a => preserves_of_start hk hprime hfills, ?_, ?_⟩
  · intro i hviolated wire residual value hmem
    rcases solve_run_cases s inputs with ⟨error, herror, hbefore⟩ |
      ⟨a, q, hstart, hreaches, -, houtcome, report, hevents, hreport⟩
    · rw [hviolated] at herror
      obtain rfl := Except.error.inj herror
      exact hbefore
    · rw [hevents] at hmem
      rw [hviolated] at houtcome
      rcases List.mem_append.1 hmem with hlog | hlast
      · have hsatisfied := (preserves_of_start hk hprime hfills hstart).search q hreaches
        exact (hsatisfied i wire residual value hlog).finish_ne_violated houtcome.symm
      · exact hreport i wire residual value hlast
  · intro path i hviolated wire hmem
    rcases replay_cases s inputs path with ⟨error, herror, hbefore⟩ |
      ⟨a, b, hstart, hfollow, -, houtcome⟩
    · rw [hviolated] at herror
      obtain rfl := Except.error.inj herror
      exact hbefore
    · have hreplay := (preserves_of_start hk hprime hfills hstart).replay path path.steps.length b
      rw [List.take_length] at hreplay
      exact (hreplay hfollow i wire hmem).finish_ne_violated (houtcome.symm.trans hviolated)

/-- The square of wire 2 on wire 3 with its bits from wire 4 on, as in `squareBits`, where not both
of the two lowest bits may be set. -/
def gappedBits : Solver where
  circuit := { squareBits.circuit with
    constraints := squareBits.circuit.constraints ++
      [⟨.ofList [(4, 1)], .ofList [(5, 1)], .empty⟩] }
  gadgets := squareBits.gadgets

/-- Modulo 97 ten has the square three, both of whose lowest bits are set. -/
theorem eliminated_satisfied_gappedBits :
    (∀ wire residual value,
      .eliminated 3 wire residual value ∉ (gappedBits.solve [10]).events) ∧
    .eliminated 0 3 (.ofTerms 97 [(.one, 3), (.var 3, 96)]) 3 ∈ (gappedBits.solve [10]).events ∧
    ∃ a b, gappedBits.start [10] = .ok a ∧
      gappedBits.followAll gappedBits.equations [.eliminate 0 3, .gadget 1] a = .ok b ∧
      b.get? 4 = some 1 ∧ gappedBits.Satisfied b 0 := by
  have hparse : (Circuit.parse gappedBits.circuit.encode).outcome = .ok gappedBits.circuit := by
    decide +kernel
  have hprime : gappedBits.circuit.prime.Prime := by
    change Nat.Prime 97
    norm_num
  have hfills : ∀ g ∈ gappedBits.gadgets, g.FillsUnknown gappedBits.circuit.prime :=
    fillsUnknown_squareBits
  obtain ⟨hpreserves, hsolve, -⟩ := eliminated_satisfied hparse hprime hfills [10]
  obtain ⟨a, hstart, b, hb, hbit⟩ : ∃ a, gappedBits.start [10] = .ok a ∧
      ∃ b, gappedBits.followAll gappedBits.equations [.eliminate 0 3, .gadget 1] a = .ok b ∧
        b.get? 4 = some 1 := by
    decide +kernel
  let path : Path := ⟨gappedBits.circuit.fingerprint, [.eliminate 0 3, .gadget 1]⟩
  have hreplay := (hpreserves a hstart).replay path 2 b hb 0 3
  exact ⟨hsolve 3 (by decide +kernel), by decide +kernel, a, b, hstart, hb, hbit,
    hreplay (by simp [path])⟩

end CircuitTrace.Solver
