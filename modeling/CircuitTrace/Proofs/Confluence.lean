import CircuitTrace.Container.Encoding
import CircuitTrace.Proofs.Closure

/-!
Solving does not depend on the order of the constraints. Without gadgets and with plain residuals a
search that starts from inputs with a solution knows in the end exactly the resolved wires, whatever
it tried first; so it comes to the witness if these are all wires, and otherwise reports those that
are missing.
-/
namespace CircuitTrace.Solver

variable {s : Solver} {inputs : List Nat} {v : Nat → Nat} {n : Nat} {a b : Assignment n}

/-- The wires that a pass tries to eliminate, each with what is left of the equation. -/
def passAttempts (p : Nat) : List Equation → Assignment n → List (Nat × Poly)
  | [], _ => []
  | e :: rest, a =>
    match e.unknowns a.get? with
    | [wire] =>
      (wire, e.residual p a.get?) ::
        match e.solveFor p a.get? wire with
        | .ok (some value) => passAttempts p rest (a.assign wire value)
        | .ok none => passAttempts p rest a
        | .error _ => []
    | _ => passAttempts p rest a

/-- The attempts of all rounds of a search. -/
def searchAttempts (s : Solver) (active : List Equation) (a : Assignment n) :
    List (Nat × Poly) :=
  if a.unknownCount = 0 then []
  else match applyGadgets s.circuit.prime s.gadgets.zipIdx a with
    | .error _ => []
    | .ok (b, _) =>
      passAttempts s.circuit.prime active b ++
        match (pass s.circuit.prime active b).outcome with
        | .error _ => []
        | .ok r =>
          if _h : r.assignment.unknownCount < a.unknownCount then
            searchAttempts s r.active r.assignment
          else []
  termination_by a.unknownCount

/-- A search tries no residual that has a square next to another term, whether or not it can solve
it. -/
def PlainSearch (s : Solver) (inputs : List Nat) : Prop :=
  ∀ a, s.start inputs = .ok a → ∀ t ∈ s.searchAttempts s.equations a, t.2.Plain t.1

instance (s : Solver) (inputs : List Nat) : Decidable (s.PlainSearch inputs) :=
  inferInstanceAs (Decidable (∀ a, s.start inputs = .ok a → _))

/-- What a pass comes to. Each of its equations stays active or has all its wires known, and if it
has found nothing then none of the active ones leads further. -/
structure Passed (s : Solver) (v : Nat → Nat) (es : List Equation) (a : Assignment n) (r : Pass n) :
    Prop where
  derived : s.Derived v r.assignment
  keeps : a.Extends r.assignment
  active_mem : ∀ e ∈ r.active, e ∈ es
  covers : ∀ e ∈ es, e ∈ r.active ∨ e.unknowns r.assignment.get? = []
  idle : r.assignment = a → ∀ e ∈ r.active, e.Idle s.circuit.prime a.get?

section Pass

variable {e : Equation} {es : List Equation} {r : Pass n}

theorem Passed.drop (h : s.Passed v es a r) (hunknown : e.unknowns a.get? = []) :
    s.Passed v (e :: es) a r where
  derived := h.derived
  keeps := h.keeps
  active_mem d hd := List.mem_cons_of_mem _ (h.active_mem d hd)
  covers := List.forall_mem_cons.2 ⟨.inr (unknowns_eq_nil_of_extends h.keeps hunknown), h.covers⟩
  idle := h.idle

theorem Passed.keep (h : s.Passed v es a r) (hidle : e.Idle s.circuit.prime a.get?) :
    s.Passed v (e :: es) a { r with active := e :: r.active } where
  derived := h.derived
  keeps := h.keeps
  active_mem := List.forall_mem_cons.2
    ⟨List.mem_cons_self, fun d hd => List.mem_cons_of_mem _ (h.active_mem d hd)⟩
  covers := by
    refine List.forall_mem_cons.2 ⟨.inl List.mem_cons_self, ?_⟩
    intro d hd
    exact (h.covers d hd).imp_left (List.mem_cons_of_mem _)
  idle heq := List.forall_mem_cons.2 ⟨hidle, h.idle heq⟩

theorem Passed.eliminate {wire value : Nat} {steps : List Step}
    (h : s.Passed v es (a.assign wire value) r) (hunknown : e.unknowns a.get? = [wire])
    (hlt : wire < n) : s.Passed v (e :: es) a { r with steps := steps } where
  derived := h.derived
  keeps := (extends_assign_of_unknowns hunknown value).trans h.keeps
  active_mem d hd := List.mem_cons_of_mem _ (h.active_mem d hd)
  covers := List.forall_mem_cons.2
    ⟨.inr (unknowns_eq_nil_of_extends h.keeps (unknowns_assign hunknown hlt value)), h.covers⟩
  idle := by
    intro (heq : r.assignment = a)
    have hknown := unknowns_eq_nil_of_extends h.keeps (unknowns_assign hunknown hlt value)
    rw [heq, hunknown] at hknown
    cases hknown

end Pass

section Plain

variable (hk : s.circuit.WellFormed) (hprime : s.circuit.prime.Prime)
  (hv : s.circuit.Model inputs v)
include hk hprime hv

theorem exists_passed {es : List Equation} {a : Assignment s.circuit.wireCount}
    (hes : ∀ e ∈ es, e ∈ s.equations) (ha : s.Derived v a)
    (hplain : ∀ t ∈ passAttempts s.circuit.prime es a, t.2.Plain t.1) :
    ∃ r, (pass s.circuit.prime es a).outcome = .ok r ∧ s.Passed v es a r := by
  induction es generalizing a with
  | nil => exact ⟨⟨a, [], []⟩, rfl, ha, .refl a, by simp, by simp, by simp⟩
  | cons e es ih =>
    obtain ⟨he, hes⟩ := List.forall_mem_cons.1 hes
    rcases hunknown : e.unknowns a.get? with _ | ⟨wire, _ | ⟨wire', rest⟩⟩
    · rw [pass_cons_of_nil hunknown]
      simp only [passAttempts, hunknown] at hplain
      obtain ⟨r, hr, hpassed⟩ := ih hes ha hplain
      exact ⟨r, hr, hpassed.drop hunknown⟩
    · simp only [passAttempts, hunknown] at hplain
      obtain ⟨hresidual, hplain⟩ := List.forall_mem_cons.1 hplain
      rcases ha.solveFor_cases hprime hv he hunknown hresidual with ⟨hvalue, hderived⟩ |
        ⟨hvalue, hcancelled⟩
      · rw [pass_cons_of_value hunknown hvalue]
        simp only [hvalue] at hplain
        obtain ⟨r, hr, hpassed⟩ := ih hes hderived hplain
        have hlt := lt_of_unknowns hk he hunknown
        refine ⟨{ r with steps := .eliminate e.index wire :: r.steps }, ?_,
          hpassed.eliminate hunknown hlt⟩
        dsimp only
        rw [hr]
        rfl
      · rw [pass_cons_of_none (by simp [hunknown, hvalue]) (by simp [hunknown])]
        simp only [hvalue] at hplain
        obtain ⟨r, hr, hpassed⟩ := ih hes ha hplain
        refine ⟨{ r with active := e :: r.active }, ?_, hpassed.keep ?_⟩
        · dsimp only
          rw [hr]
          rfl
        · intro x hx
          rw [hunknown] at hx
          obtain rfl := List.head_eq_of_cons_eq hx
          exact hcancelled
    · rw [pass_cons_of_none (by simp [hunknown]) (by simp [hunknown])]
      simp only [passAttempts, hunknown] at hplain
      obtain ⟨r, hr, hpassed⟩ := ih hes ha hplain
      refine ⟨{ r with active := e :: r.active }, ?_, hpassed.keep ?_⟩
      · dsimp only
        rw [hr]
        rfl
      · intro x hx
        rw [hunknown] at hx
        cases hx

/-- A search ends knowing all wires, or at an assignment from which no equation leads further. -/
theorem exists_searched (hnone : s.gadgets = []) (rounds : Nat) {active : List Equation}
    {a : Assignment s.circuit.wireCount} (hactive : ∀ e ∈ active, e ∈ s.equations)
    (hcovers : ∀ e ∈ s.equations, e ∈ active ∨ e.unknowns a.get? = []) (ha : s.Derived v a)
    (hplain : ∀ t ∈ s.searchAttempts active a, t.2.Plain t.1) :
    ∃ b, s.Derived v b ∧ a.Extends b ∧
      (s.search rounds active a).outcome.map Search.assignment =
        (if b.unknownCount = 0 then .ok b
        else .error (.unsatisfiable b.unknownCount b.firstUnknown)) ∧
      (b.unknownCount ≠ 0 → ∀ e ∈ s.equations, e.Idle s.circuit.prime b.get?) := by
  -- Along the rounds, each of which lowers the number of unknown wires.
  induction hcount : a.unknownCount using Nat.strong_induction_on
    generalizing a rounds active with
  | _ count ih =>
    rw [search]
    by_cases hzero : a.unknownCount = 0
    · rw [if_pos hzero]
      exact ⟨a, ha, .refl a, by rw [if_pos hzero]; rfl, fun hne => absurd hzero hne⟩
    rw [if_neg hzero]
    have hgadgets : applyGadgets s.circuit.prime s.gadgets.zipIdx a = .ok (a, []) := by
      rw [hnone]
      rfl
    rw [Logged.bind_of_ok (a := (a, [])) (by rw [hgadgets]; rfl)]
    rw [searchAttempts, if_neg hzero, hgadgets] at hplain
    obtain ⟨hpass, hrest⟩ := List.forall_mem_append.1 hplain
    obtain ⟨r, hr, hpassed⟩ := exists_passed hk hprime hv hactive ha hpass
    dsimp only
    rw [Logged.bind_of_ok hr]
    simp only [Logged.emit_bind]
    have hcovers : ∀ e ∈ s.equations, e ∈ r.active ∨ e.unknowns r.assignment.get? = [] := by
      intro e he
      rcases hcovers e he with hmem | hknown
      · exact hpassed.covers e hmem
      · exact .inr (unknowns_eq_nil_of_extends hpassed.keeps hknown)
    rcases hpassed.keeps.eq_or_lt with heq | hless
    · rw [heq]
      simp only [lt_irrefl, dite_false]
      refine ⟨a, ha, .refl a, by rw [if_neg hzero]; rfl, ?_⟩
      intro _ e he
      rcases hcovers e he with hmem | hknown
      · exact hpassed.idle heq e hmem
      · intro wire hwire
        rw [heq, hwire] at hknown
        cases hknown
    · simp only [hr, hless, dite_true] at hrest
      simp only [hless, dite_true, Logged.bind_pure_eq]
      have hactive : ∀ e ∈ r.active, e ∈ s.equations :=
        fun e he => hactive e (hpassed.active_mem e he)
      obtain ⟨b, hb, hextends, houtcome, hidle⟩ :=
        ih _ (hcount ▸ hless) (rounds + 1) hactive hcovers hpassed.derived hrest rfl
      refine ⟨b, hb, hpassed.keeps.trans hextends, ?_, hidle⟩
      rw [← houtcome]
      cases (s.search (rounds + 1) r.active r.assignment).outcome <;> rfl

end Plain

/-- An assignment that knows the resolved wires with the values of a model, and no other wire. -/
def Closed (s : Solver) (v : Nat → Nat) (b : Assignment n) : Prop :=
  ∀ wire < n, ∀ x, b.get? wire = some x ↔ x = v wire ∧ s.circuit.Resolved v wire

theorem Derived.closed (hb : s.Derived v b)
    (hresolved : ∀ wire < n, s.circuit.Resolved v wire → (b.get? wire).isSome = true) :
    s.Closed v b := by
  intro wire hwire x
  constructor
  · intro hx
    exact ⟨hb.value wire x hx, hb.resolved wire x hx⟩
  · rintro ⟨rfl, h⟩
    obtain ⟨y, hy⟩ := Option.isSome_iff_exists.1 (hresolved wire hwire h)
    rw [hy, hb.value wire y hy]

theorem Closed.eq (hb : s.Closed v b) {s' : Solver} {b' : Assignment n} (hb' : s'.Closed v b')
    (h : ∀ wire, s.circuit.Resolved v wire ↔ s'.circuit.Resolved v wire) : b = b' := by
  apply Assignment.ext_get?
  intro wire hwire
  ext x
  rw [hb wire hwire, hb' wire hwire, h]

/-- Where a search from inputs with a witness ends, and what its solver comes to. -/
theorem exists_closed (hk : s.circuit.WellFormed) (hprime : s.circuit.prime.Prime)
    (hnone : s.gadgets = []) {w : Witness} (hw : s.circuit.Answers inputs w)
    (hplain : s.PlainSearch inputs) :
    ∃ b : Assignment s.circuit.wireCount,
      s.Closed (Witness.ofValues s.circuit.prime w.values).value b ∧
      (s.solve inputs).outcome.map Prod.fst =
        if b.unknownCount = 0 then .ok (.ofValues s.circuit.prime w.values)
        else .error (.unsatisfiable b.unknownCount b.firstUnknown) := by
  have hv := hw.solves.model hk
  obtain ⟨a, hstart⟩ : ∃ a, s.start inputs = .ok a := by
    rw [start, if_neg (by simpa using hw.count)]
    exact ⟨_, rfl⟩
  have hstarted := started_of_start hk hstart
  obtain ⟨b, hb, hextends, houtcome, hidle⟩ := exists_searched hk hprime hv hnone 0
    (fun e he => he) (fun e he => .inl he) (hstarted.derived hk hv) (hplain a hstart)
  refine ⟨b, hb.closed ?_, ?_⟩
  · intro wire hwire hresolved
    by_cases hknown : b.unknownCount = 0
    · exact Assignment.isSome_get? hknown hwire
    · exact hb.isSome_of_resolved hstarted hextends (hidle hknown) hresolved
  · rw [solve, Logged.bind_of_ok (a := a) hstart]
    dsimp only
    by_cases hknown : b.unknownCount = 0
    · rw [if_pos hknown] at houtcome ⊢
      obtain ⟨r, hr, rfl⟩ := map_eq_ok_iff.1 houtcome
      have hvalues : Witness.ofValues s.circuit.prime w.values = ⟨r.assignment.values⟩ := by
        apply Witness.eq_of_value
        · simpa [Witness.size, Witness.ofValues] using hw.size
        · intro wire hwire
          have hlt : wire < s.circuit.wireCount := by
            rw [← hw.size]
            simpa [Witness.size, Witness.ofValues] using hwire
          exact (hb.value wire _ (Assignment.holds_mk_values hknown wire hlt)).symm
      have hcheck := Witness.check_ofValues hk hw.solves.check
      have hfinish : s.finish r.assignment = .ok (.ofValues s.circuit.prime w.values) :=
        finish_eq_ok_iff.2 ⟨hvalues, hcheck⟩
      rw [Logged.bind_of_ok hr, Logged.bind_of_ok (a := .ofValues s.circuit.prime w.values) hfinish]
      rfl
    · rw [if_neg hknown] at houtcome ⊢
      rw [Logged.bind_of_error (map_eq_error_iff.1 houtcome)]
      rfl

/-- Two circuits that differ in the order of their constraints are solved alike. -/
theorem solve_eq_or_unsatisfiable_of_perm {k : Circuit} {cs : List Constraint}
    {bytes bytes' : Bytes} (hparse : (Circuit.parse bytes).outcome = .ok k)
    (hparse' : (Circuit.parse bytes').outcome = .ok { k with constraints := cs })
    (hperm : k.constraints.Perm cs) (hprime : k.prime.Prime) {w : Witness}
    (hw : k.Answers inputs w) (hplain : PlainSearch ⟨k, []⟩ inputs)
    (hplain' : PlainSearch ⟨{ k with constraints := cs }, []⟩ inputs) :
    (∃ w path path', (solve ⟨k, []⟩ inputs).outcome = .ok (w, path) ∧
      (solve ⟨{ k with constraints := cs }, []⟩ inputs).outcome = .ok (w, path')) ∨
    ∃ unknown first, (solve ⟨k, []⟩ inputs).outcome = .error (.unsatisfiable unknown first) ∧
      (solve ⟨{ k with constraints := cs }, []⟩ inputs).outcome =
        .error (.unsatisfiable unknown first) := by
  have hw' : Circuit.Answers { k with constraints := cs } inputs w :=
    ⟨hw.size, hw.one, hw.count, hw.given, fun c hc => hw.residuals c (hperm.mem_iff.2 hc)⟩
  obtain ⟨b, hb, houtcome⟩ :=
    exists_closed (s := ⟨k, []⟩) (Circuit.wellFormed_of_parse hparse) hprime rfl hw hplain
  obtain ⟨b', hb', houtcome'⟩ := exists_closed (s := ⟨{ k with constraints := cs }, []⟩)
    (Circuit.wellFormed_of_parse hparse') hprime rfl hw' hplain'
  obtain rfl : b = b' := by
    apply hb.eq hb'
    intro wire
    constructor
    · exact Circuit.Resolved.mono rfl rfl fun c hc => hperm.mem_iff.1 hc
    · exact Circuit.Resolved.mono rfl rfl fun c hc => hperm.mem_iff.2 hc
  by_cases hknown : b.unknownCount = 0
  · rw [if_pos hknown] at houtcome houtcome'
    obtain ⟨⟨w₁, path⟩, hsolve, hfst⟩ := map_eq_ok_iff.1 houtcome
    obtain ⟨⟨w₂, path'⟩, hsolve', hfst'⟩ := map_eq_ok_iff.1 houtcome'
    obtain rfl : w₁ = w₂ := hfst.trans hfst'.symm
    exact .inl ⟨w₁, path, path', hsolve, hsolve'⟩
  · rw [if_neg hknown] at houtcome houtcome'
    exact .inr ⟨_, _, map_eq_error_iff.1 houtcome, map_eq_error_iff.1 houtcome'⟩

/-- Wire 1 is one more than the product of the inputs on wire 4. Wire 5 is zero unless the public
input is, when nothing is said of it, and the square of wire 6 is zero. -/
def cancelling : Circuit where
  fieldSize := 1
  prime := 97
  wireCount := 7
  outputCount := 1
  publicCount := 1
  privateCount := 1
  labelCount := 7
  constraints :=
    [⟨.ofList [(4, 1), (0, 1)], .ofList [(0, 1)], .ofList [(1, 1)]⟩,
      ⟨.ofList [(2, 1)], .ofList [(5, 1)], .ofList []⟩,
      ⟨.ofList [(6, 1)], .ofList [(6, 1)], .ofList []⟩,
      ⟨.ofList [(2, 1)], .ofList [(3, 1)], .ofList [(4, 1)]⟩]

/-- With the constraints the other way round, inputs that determine all wires, and inputs for which
wire 5 cancels. -/
theorem solve_eq_or_unsatisfiable_of_perm_cancelling :
    (∃ path path', (solve ⟨cancelling, []⟩ [2, 3]).outcome = .ok (⟨[1, 7, 2, 3, 6, 0, 0]⟩, path) ∧
      (solve ⟨{ cancelling with constraints := cancelling.constraints.reverse }, []⟩
        [2, 3]).outcome = .ok (⟨[1, 7, 2, 3, 6, 0, 0]⟩, path')) ∧
    (solve ⟨{ cancelling with constraints := cancelling.constraints.reverse }, []⟩
      [0, 3]).outcome = .error (.unsatisfiable 1 5) := by
  have hparse : (Circuit.parse cancelling.encode).outcome = .ok cancelling := by decide +kernel
  have hparse' : (Circuit.parse (Circuit.encode
      { cancelling with constraints := cancelling.constraints.reverse })).outcome =
        .ok { cancelling with constraints := cancelling.constraints.reverse } := by
    decide +kernel
  have hperm : cancelling.constraints.Perm cancelling.constraints.reverse :=
    (List.reverse_perm _).symm
  have hprime : cancelling.prime.Prime := by
    change Nat.Prime 97
    norm_num
  have answers (x y : Nat) (w : Witness) (hx : w.value 2 = x % 97) (hy : w.value 3 = y % 97)
      (hcheck : w.check cancelling = .ok ()) : cancelling.Answers [x, y] w := by
    obtain ⟨hsize, hone, hresiduals⟩ := Witness.check_eq_ok_iff.1 hcheck
    refine ⟨hsize, hone, rfl, ?_, hresiduals⟩
    intro wire z hz
    have hz : (wire, z) ∈ [(2, x), (3, y)] := hz
    simp only [List.mem_cons, Prod.mk.injEq, List.not_mem_nil, or_false] at hz
    rcases hz with ⟨rfl, rfl⟩ | ⟨rfl, rfl⟩
    · exact hx
    · exact hy
  constructor
  · obtain ⟨⟨w, path⟩, hsolve, rfl⟩ : ∃ r, (solve ⟨cancelling, []⟩ [2, 3]).outcome = .ok r ∧
        r.1 = ⟨[1, 7, 2, 3, 6, 0, 0]⟩ := by
      decide +kernel
    have hw := answers 2 3 ⟨[1, 7, 2, 3, 6, 0, 0]⟩ rfl rfl (by decide +kernel)
    rcases solve_eq_or_unsatisfiable_of_perm hparse hparse' hperm hprime hw (by decide +kernel)
      (by decide +kernel) with ⟨w, path₁, path', hsolve₁, hsolve'⟩ | ⟨_, _, herror, -⟩
    · obtain ⟨rfl, rfl⟩ := Prod.mk.inj (Except.ok.inj (hsolve.symm.trans hsolve₁))
      exact ⟨path, path', hsolve, hsolve'⟩
    · rw [hsolve] at herror
      cases herror
  · have hw := answers 0 3 ⟨[1, 1, 0, 3, 0, 4, 0]⟩ rfl rfl (by decide +kernel)
    have hsolve : (solve ⟨cancelling, []⟩ [0, 3]).outcome = .error (.unsatisfiable 1 5) := by
      decide +kernel
    rcases solve_eq_or_unsatisfiable_of_perm hparse hparse' hperm hprime hw (by decide +kernel)
      (by decide +kernel) with ⟨_, _, _, hok, -⟩ | ⟨unknown, first, herror, herror'⟩
    · rw [hsolve] at hok
      cases hok
    · rw [herror', ← herror, hsolve]

end CircuitTrace.Solver
