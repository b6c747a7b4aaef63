import CircuitTrace.Container.Encoding
import CircuitTrace.Proofs.BitSplitting
import CircuitTrace.Proofs.Equations
import CircuitTrace.Proofs.Inputs
import CircuitTrace.Proofs.Outcomes

/-!
Soundness of solving. Values are only ever added, by a search and by the replay of any path, and the
final check covers all constraints. A step that names something outside the circuit is refused
before anything is looked up for it.
-/
namespace CircuitTrace.Solver

variable {s : Solver} {n : Nat} {a b : Assignment n}

theorem extends_applyGadget {p count : Nat} {g : Gadget} (hg : g.FillsUnknown p)
    (h : applyGadget p g a = .ok (count, b)) : a.Extends b := by
  have hextends := hg a
  rwa [applyGadget_eq_ok_iff.1 h] at hextends

theorem get?_eq_none_of_unknowns {e : Equation} {wire : Nat}
    (h : e.unknowns a.get? = [wire]) : a.get? wire = none := by
  have hwire : wire ∈ e.unknowns a.get? := by simp [h]
  simpa using (List.mem_filter.1 hwire).2

theorem extends_assign_of_unknowns {e : Equation} {wire : Nat}
    (h : e.unknowns a.get? = [wire]) (value : Nat) : a.Extends (a.assign wire value) :=
  Assignment.extends_assign (get?_eq_none_of_unknowns h) value

section Unknowns

variable {e : Equation} {wire : Nat}

theorem unknowns_eq_nil_of_extends (h : a.Extends b) (ha : e.unknowns a.get? = []) :
    e.unknowns b.get? = [] := by
  rw [Equation.unknowns, List.filter_eq_nil_iff] at ha ⊢
  intro x hx
  obtain ⟨y, hy⟩ : ∃ y, a.get? x = some y := by
    simpa [Option.isSome_iff_exists, Option.ne_none_iff_exists'] using ha x hx
  simp [h x y hy]

/-- An equation has no unknown wire once its single one is assigned. -/
theorem unknowns_assign (hunknown : e.unknowns a.get? = [wire]) (hlt : wire < n) (value : Nat) :
    e.unknowns (a.assign wire value).get? = [] := by
  have hextends := extends_assign_of_unknowns hunknown value
  rw [Equation.unknowns, List.filter_eq_nil_iff]
  intro x hx hnone
  have hmem : x ∈ e.unknowns a.get? := by
    refine List.mem_filter.2 ⟨hx, ?_⟩
    rw [Option.isNone_iff_eq_none] at hnone ⊢
    exact hextends.get?_eq_none hnone
  rw [hunknown, List.mem_singleton] at hmem
  subst hmem
  simp [Assignment.get?_assign, hlt] at hnone

end Unknowns

/-- A search that has ahead of it only the gadgets and equations of its solver. -/
def Phase.Within (s : Solver) : Phase → Prop
  | .between active => ∀ e ∈ active, e ∈ s.equations
  | .within _ gadgets ahead kept =>
    (∀ x ∈ gadgets, x.1 ∈ s.gadgets) ∧ (∀ e ∈ ahead, e ∈ s.equations) ∧ ∀ e ∈ kept, e ∈ s.equations

theorem Next.within {q q' : Point n} (h : s.Next q q') (hq : q.phase.Within s) :
    q'.phase.Within s := by
  cases h with
  | opens =>
    refine ⟨?_, hq, by simp⟩
    intro x hx
    exact List.mem_of_getElem? (List.mem_zipIdx_iff_getElem?.1 hx)
  | applies =>
    obtain ⟨hgadgets, hequations⟩ := hq
    exact ⟨(List.forall_mem_cons.1 hgadgets).2, hequations⟩
  | drops =>
    obtain ⟨hgadgets, hahead, hkept⟩ := hq
    exact ⟨hgadgets, (List.forall_mem_cons.1 hahead).2, hkept⟩
  | eliminates =>
    obtain ⟨hgadgets, hahead, hkept⟩ := hq
    exact ⟨hgadgets, (List.forall_mem_cons.1 hahead).2, hkept⟩
  | keeps =>
    obtain ⟨hgadgets, hahead, hkept⟩ := hq
    obtain ⟨he, hahead⟩ := List.forall_mem_cons.1 hahead
    refine ⟨hgadgets, hahead, ?_⟩
    simpa [or_imp, forall_and] using ⟨hkept, he⟩
  | closes =>
    obtain ⟨-, -, hkept⟩ := hq
    exact hkept

theorem Next.extends (hfills : ∀ g ∈ s.gadgets, g.FillsUnknown s.circuit.prime) {q q' : Point n}
    (h : s.Next q q') (hq : q.phase.Within s) : q.assignment.Extends q'.assignment := by
  cases h with
  | opens => exact .refl _
  | applies happly =>
    obtain ⟨hgadgets, -⟩ := hq
    exact extends_applyGadget (hfills _ (List.forall_mem_cons.1 hgadgets).1) happly
  | drops => exact .refl _
  | eliminates hunknown => exact extends_assign_of_unknowns hunknown _
  | keeps => exact .refl _
  | closes => exact .refl _

theorem Reaches.within {q q' : Point n} (h : s.Reaches q q') (hq : q.phase.Within s) :
    q'.phase.Within s := by
  induction h with
  | refl => exact hq
  | tail _ hnext ih => exact hnext.within ih

theorem Reaches.extends (hfills : ∀ g ∈ s.gadgets, g.FillsUnknown s.circuit.prime)
    {q q' : Point n} (h : s.Reaches q q') (hq : q.phase.Within s) :
    q.assignment.Extends q'.assignment := by
  induction h with
  | refl => exact .refl _
  | tail hreaches hnext ih => exact ih.trans (hnext.extends hfills (Reaches.within hreaches hq))

theorem within_opening (s : Solver) (a : Assignment n) : (s.opening a).phase.Within s :=
  fun _ he => he

/-- What is known of every search from an assignment, whatever it comes to. -/
structure SafeSearch (s : Solver) (a : Assignment n) : Prop where
  ends : s.Ends (s.opening a) ⟨(s.search 0 s.equations a).events,
    (s.search 0 s.equations a).outcome.map Search.assignment⟩
  within : ∀ q, s.Reaches (s.opening a) q → q.phase.Within s
  keeps : ∀ q q', s.Reaches (s.opening a) q → s.Reaches q q' → q.assignment.Extends q'.assignment

theorem safeSearch (hfills : ∀ g ∈ s.gadgets, g.FillsUnknown s.circuit.prime)
    (a : Assignment n) : s.SafeSearch a where
  ends := ends_search s 0 s.equations a []
  within _ hq := hq.within (s.within_opening a)
  keeps _ _ hq hq' := hq'.extends hfills (hq.within (s.within_opening a))

/-- A step names a constraint and a wire of the circuit, or a gadget of the solver. -/
def InRange (s : Solver) : Step → Prop
  | .eliminate constraint wire =>
    constraint < s.circuit.constraints.length ∧ wire < s.circuit.wireCount
  | .gadget index => index < s.gadgets.length

theorem follow_of_not_inRange (hk : s.circuit.WellFormed) {step : Step} (h : ¬s.InRange step)
    (k : Nat) (a : Assignment n) : s.follow s.equations k a step = .error (.invalidStep k) := by
  cases step with
  | eliminate constraint wire =>
    rw [follow]
    cases he : s.equations[constraint]? with
    | none => rfl
    | some e =>
      have hconstraint : constraint < s.circuit.constraints.length := by
        obtain ⟨hlt, -⟩ := List.getElem?_eq_some_iff.1 he
        simpa [equations] using hlt
      have hrange := inRange_equations hk e (List.mem_of_getElem? he)
      -- The wire cannot be the unknown of an equation, as these are wires of the circuit.
      have hunknown : e.unknowns a.get? ≠ [wire] := by
        intro heq
        have hwire : wire ∈ e.unknowns a.get? := by simp [heq]
        exact h ⟨hconstraint, hrange.wires wire (List.mem_filter.1 hwire).1⟩
      simp [hunknown]
  | gadget index =>
    have hnone : s.gadgets[index]? = none := List.getElem?_eq_none (Nat.le_of_not_lt h)
    simp [follow, hnone]

/-- What a step that is followed does. -/
theorem follow_cases {k : Nat} {step : Step} (h : s.follow s.equations k a step = .ok b) :
    (∃ constraint wire value e, step = .eliminate constraint wire ∧
      s.equations[constraint]? = some e ∧ e.unknowns a.get? = [wire] ∧
      e.solveFor s.circuit.prime a.get? wire = .ok (some value) ∧ b = a.assign wire value) ∨
    ∃ index g count, step = .gadget index ∧ s.gadgets[index]? = some g ∧
      applyGadget s.circuit.prime g a = .ok (count, b) := by
  cases step with
  | eliminate constraint wire =>
    rw [follow] at h
    split at h
    · cases h
    rename_i e he
    split at h
    · rename_i hunknown
      obtain ⟨root, hroot, h⟩ := bind_eq_ok_iff.1 h
      cases root with
      | none => cases h
      | some value =>
        obtain rfl := Except.ok.inj h
        exact .inl ⟨constraint, wire, value, e, rfl, he, hunknown, hroot, rfl⟩
    · cases h
  | gadget index =>
    rw [follow] at h
    split at h
    · cases h
    · rename_i g hg
      obtain ⟨⟨count, b'⟩, happly, h⟩ := bind_eq_ok_iff.1 h
      obtain ⟨-, h⟩ := guard_eq_ok h
      obtain rfl := Except.ok.inj h
      exact .inr ⟨index, g, count, rfl, hg, happly⟩

theorem extends_follow (hfills : ∀ g ∈ s.gadgets, g.FillsUnknown s.circuit.prime) {k : Nat}
    {step : Step} (h : s.follow s.equations k a step = .ok b) : a.Extends b := by
  rcases follow_cases h with ⟨constraint, wire, value, e, -, -, hunknown, -, rfl⟩ |
    ⟨index, g, count, -, hg, happly⟩
  · exact extends_assign_of_unknowns hunknown value
  · exact extends_applyGadget (hfills g (List.mem_of_getElem? hg)) happly

theorem extends_foldlM_follow (hfills : ∀ g ∈ s.gadgets, g.FillsUnknown s.circuit.prime)
    {l : List (Step × Nat)}
    (h : l.foldlM (fun a step => s.follow s.equations step.2 a step.1) a = .ok b) :
    a.Extends b := by
  apply foldlM_eq_ok_induction h (.refl a)
  intro step _ c d hac hstep
  exact hac.trans (extends_follow hfills hstep)

/-- Following a path can be cut at any place. -/
theorem followAll_append (s : Solver) (steps steps' : List Step) (a : Assignment n) :
    s.followAll s.equations (steps ++ steps') a = s.followAll s.equations steps a >>= fun b =>
      (steps'.zipIdx steps.length).foldlM (fun a step => s.follow s.equations step.2 a step.1)
        b := by
  rw [followAll, followAll, List.zipIdx_append, List.foldlM_append, Nat.zero_add]

/-- What is known of the replay of every path from an assignment, recorded or not. -/
structure SafeReplay (s : Solver) (inputs : List Nat) (a : Assignment n) (path : Path) : Prop where
  keeps : ∀ i j b c, i ≤ j → s.followAll s.equations (path.steps.take i) a = .ok b →
    s.followAll s.equations (path.steps.take j) a = .ok c → b.Extends c
  refuses : path.circuit = s.circuit.fingerprint → ∀ i b step,
    s.followAll s.equations (path.steps.take i) a = .ok b → path.steps[i]? = some step →
    ¬s.InRange step → s.replay inputs path = .error (.invalidStep i)

theorem safeReplay (hk : s.circuit.WellFormed)
    (hfills : ∀ g ∈ s.gadgets, g.FillsUnknown s.circuit.prime) {inputs : List Nat}
    {a : Assignment s.circuit.wireCount} (hstart : s.start inputs = .ok a) (path : Path) :
    s.SafeReplay inputs a path where
  keeps := by
    intro i j b c hij hb hc
    have htake : path.steps.take j = path.steps.take i ++ (path.steps.take j).drop i := by
      conv_lhs => rw [← List.take_append_drop i (path.steps.take j)]
      rw [List.take_take, min_eq_left hij]
    rw [htake, followAll_append, hb] at hc
    exact extends_foldlM_follow hfills hc
  refuses := by
    intro hcircuit i b step hb hstep hrange
    obtain ⟨hi, hget⟩ := List.getElem?_eq_some_iff.1 hstep
    have hsteps : path.steps = path.steps.take i ++ step :: path.steps.drop (i + 1) := by
      rw [← hget, List.cons_getElem_drop_succ, List.take_append_drop]
    have hfollow : s.followAll s.equations path.steps a = .error (.invalidStep i) := by
      have hlen : (path.steps.take i).length = i := by simp; omega
      rw [hsteps, followAll_append, hb, hlen, List.zipIdx_cons]
      change List.foldlM _ b _ = _
      rw [List.foldlM_cons, follow_of_not_inRange hk hrange]
      rfl
    simp [replay, hcircuit, hstart, hfollow, bind, Except.bind]

/-- What a solver answers is a witness with the given inputs, every value of which was found on the
way. Searching and replaying any path add values and never change one, and look nothing up outside
the circuit: a step that would is refused. -/
theorem answers_of_solve_or_replay {bytes : Bytes}
    (hparse : (Circuit.parse bytes).outcome = .ok s.circuit)
    (hfills : ∀ g ∈ s.gadgets, g.FillsUnknown s.circuit.prime) (inputs : List Nat) :
    (∀ w path, (s.solve inputs).outcome = .ok (w, path) → s.circuit.Answers inputs w ∧
      ∃ a q, s.start inputs = .ok a ∧ s.Reaches (s.opening a) q ∧ q.assignment.Holds w) ∧
    (∀ w path, s.replay inputs path = .ok w → s.circuit.Answers inputs w ∧
      ∃ a b, s.start inputs = .ok a ∧ s.followAll s.equations path.steps a = .ok b ∧ b.Holds w) ∧
    (∀ a, s.start inputs = .ok a → s.SafeSearch a ∧ ∀ path, s.SafeReplay inputs a path) ∧
    ∀ e ∈ s.equations, e.InRange s.circuit.wireCount := by
  have hk : s.circuit.WellFormed := Circuit.wellFormed_of_parse hparse
  refine ⟨?_, ?_, ?_, inRange_equations hk⟩
  · intro w path h
    obtain ⟨a, q, hstart, hreaches, hknown, hfinish⟩ := exists_reaches_of_solve h
    have hextends := hreaches.extends hfills (s.within_opening a)
    obtain ⟨hanswers, hholds⟩ := answers_of_finish hk hstart hextends hknown hfinish
    exact ⟨hanswers, a, q, hstart, hreaches, hholds⟩
  · intro w path h
    obtain ⟨a, b, hstart, hfollow, hknown, hfinish⟩ := exists_followAll_of_replay h
    have hextends := extends_foldlM_follow hfills hfollow
    obtain ⟨hanswers, hholds⟩ := answers_of_finish hk hstart hextends hknown hfinish
    exact ⟨hanswers, a, b, hstart, hfollow, hholds⟩
  · intro a hstart
    exact ⟨safeSearch hfills a, safeReplay hk hfills hstart⟩

/-- An input that is not reduced, with gadgets one of which only claims to write; and a path whose
second step names a wire that the circuit does not have. -/
theorem answers_of_solve_or_replay_squareBits :
    squareBits.circuit.Answers [99] ⟨[1, 4, 2, 4, 0, 0, 1]⟩ ∧
      squareBits.replay [99] ⟨squareBits.circuit.fingerprint, [.eliminate 0 3, .eliminate 1 9]⟩ =
        .error (.invalidStep 1) := by
  obtain ⟨hsolve, -, hsafe, -⟩ :=
    answers_of_solve_or_replay parse_squareBits fillsUnknown_squareBits [99]
  obtain ⟨⟨w, path⟩, h, rfl⟩ : ∃ r, (squareBits.solve [99]).outcome = .ok r ∧
      r.1 = ⟨[1, 4, 2, 4, 0, 0, 1]⟩ := by
    decide +kernel
  obtain ⟨a, hstart, b, hb, -⟩ : ∃ a, squareBits.start [99] = .ok a ∧
      ∃ b, squareBits.followAll squareBits.equations [.eliminate 0 3] a = .ok b ∧
        b.get? 3 = some 4 := by
    decide +kernel
  refine ⟨(hsolve _ path h).1, ?_⟩
  obtain ⟨-, hreplay⟩ := hsafe a hstart
  refine (hreplay ⟨_, [.eliminate 0 3, .eliminate 1 9]⟩).refuses rfl 1 b (.eliminate 1 9) hb rfl ?_
  exact fun hrange => absurd hrange.2 (by decide)

end CircuitTrace.Solver
