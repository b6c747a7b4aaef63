import CircuitTrace.Proofs.Pruning

/-!
Recorded paths are triangular. Each wire is written by one move, a constraint is eliminated from at
most once, and all other wires of the constraint are known by then: so the eliminations of a path,
in order, are a triangular system of equations for the wires that no gadget fills.
-/
namespace CircuitTrace

/-- The wires that a gadget filled in a move. -/
def Move.filled : Move → List Nat
  | .apply _ _ filled => filled
  | .eliminate _ _ => []

/-- The constraint and the wire of a move, if it is an elimination. -/
def Move.elimination? : Move → Option (Nat × Nat)
  | .apply _ _ _ => none
  | .eliminate constraint wire => some (constraint, wire)

namespace Move

variable {m : Move} {constraint wire : Nat}

theorem step?_eq_eliminate_iff :
    m.step? = some (.eliminate constraint wire) ↔ m = .eliminate constraint wire := by
  cases m with
  | apply index count filled =>
    rw [step?]
    split <;> simp
  | eliminate d x => simp [step?]

theorem elimination?_eq_some_iff :
    m.elimination? = some (constraint, wire) ↔ m = .eliminate constraint wire := by
  cases m <;> simp [elimination?]

end Move

theorem Path.eliminations_of_steps {path : Path} {moves : List Move}
    (h : path.steps = moves.filterMap Move.step?) :
    path.eliminations = moves.filterMap Move.elimination? := by
  rw [Path.eliminations, h, List.filterMap_filterMap]
  congr 1
  funext m
  cases m with
  | apply index count filled =>
    simp only [Move.step?, Move.elimination?]
    split <;> rfl
  | eliminate constraint wire => rfl

theorem Assignment.mem_gained {n wire : Nat} {a b : Assignment n} :
    wire ∈ a.gained b ↔ wire < n ∧ a.get? wire = none ∧ (b.get? wire).isSome = true := by
  simp [Assignment.gained]

namespace Solver

variable {s : Solver} {n : Nat} {a b c : Assignment n}

/-- All wires that gadgets filled. -/
def filledWires (moves : List Move) : List Nat := moves.flatMap Move.filled

/-- All wires that were eliminated, in order. -/
def eliminatedWires (moves : List Move) : List Nat :=
  (moves.filterMap Move.elimination?).map Prod.snd

/-- All constraints that wires were eliminated from, in order. -/
def eliminatedFrom (moves : List Move) : List Nat :=
  (moves.filterMap Move.elimination?).map Prod.fst

section Cons

variable {index count constraint wire : Nat} {filled : List Nat} {moves : List Move}

@[simp] theorem filledWires_apply :
    filledWires (.apply index count filled :: moves) = filled ++ filledWires moves := rfl

@[simp] theorem filledWires_eliminate :
    filledWires (.eliminate constraint wire :: moves) = filledWires moves := rfl

@[simp] theorem eliminatedWires_apply :
    eliminatedWires (.apply index count filled :: moves) = eliminatedWires moves := rfl

@[simp] theorem eliminatedWires_eliminate :
    eliminatedWires (.eliminate constraint wire :: moves) = wire :: eliminatedWires moves := rfl

@[simp] theorem eliminatedFrom_eliminate :
    eliminatedFrom (.eliminate constraint wire :: moves) = constraint :: eliminatedFrom moves := rfl

end Cons

/-- Moves write just the wires that one assignment knows more than the other, and those that they
eliminate they write once. -/
structure Writes (a : Assignment n) (moves : List Move) (b : Assignment n) : Prop where
  isSome_iff : ∀ wire < n, (b.get? wire).isSome = true ↔
    (a.get? wire).isSome = true ∨ wire ∈ filledWires moves ∨ wire ∈ eliminatedWires moves
  fresh : ∀ wire, wire ∈ filledWires moves ∨ wire ∈ eliminatedWires moves → a.get? wire = none
  lt : ∀ wire ∈ eliminatedWires moves, wire < n
  nodup : (eliminatedWires moves).Nodup
  disjoint : ∀ wire ∈ eliminatedWires moves, wire ∉ filledWires moves

theorem Writes.nil (a : Assignment n) : Writes a [] a where
  isSome_iff _ _ := by simp [filledWires, eliminatedWires]
  fresh _ h := by simp [filledWires, eliminatedWires] at h
  lt _ h := by simp [eliminatedWires] at h
  nodup := .nil
  disjoint _ h := by simp [eliminatedWires] at h

theorem Writes.apply {moves : List Move} (hextends : a.Extends b) (h : Writes b moves c)
    (index count : Nat) : Writes a (.apply index count (a.gained b) :: moves) c where
  isSome_iff wire hlt := by
    have hb : (b.get? wire).isSome = true ↔
        (a.get? wire).isSome = true ∨ wire ∈ a.gained b := by
      rw [Assignment.mem_gained]
      cases ha : a.get? wire with
      | none => simp [hlt]
      | some value => simp [hextends wire value ha]
    simp only [h.isSome_iff wire hlt, hb, filledWires_apply, eliminatedWires_apply,
      List.mem_append, or_assoc]
  fresh wire hwire := by
    simp only [filledWires_apply, eliminatedWires_apply, List.mem_append, or_assoc] at hwire
    rcases hwire with hgained | hrest
    · exact (Assignment.mem_gained.1 hgained).2.1
    · exact hextends.get?_eq_none (h.fresh wire hrest)
  lt := h.lt
  nodup := h.nodup
  disjoint wire hwire := by
    have hwire : wire ∈ eliminatedWires moves := hwire
    have hnone := h.fresh wire (.inr hwire)
    simp only [filledWires_apply, List.mem_append, not_or]
    refine ⟨?_, h.disjoint wire hwire⟩
    intro hgained
    have hsome := (Assignment.mem_gained.1 hgained).2.2
    simp [hnone] at hsome

theorem Writes.eliminate {moves : List Move} {wire value : Nat} (hnone : a.get? wire = none)
    (hlt : wire < n) (h : Writes (a.assign wire value) moves c) (constraint : Nat) :
    Writes a (.eliminate constraint wire :: moves) c where
  isSome_iff x hx := by
    have hassign : ((a.assign wire value).get? x).isSome = true ↔
        (a.get? x).isSome = true ∨ x = wire := by
      rw [Assignment.get?_assign]
      by_cases heq : wire = x
      · simp [heq, hx]
      · simp [heq, Ne.symm heq]
    simp only [h.isSome_iff x hx, hassign, filledWires_eliminate, eliminatedWires_eliminate,
      List.mem_cons, or_assoc, or_left_comm]
  fresh x hx := by
    simp only [filledWires_eliminate, eliminatedWires_eliminate, List.mem_cons] at hx
    have hextends := Assignment.extends_assign hnone value
    rcases hx with hfilled | rfl | heliminated
    · exact hextends.get?_eq_none (h.fresh x (.inl hfilled))
    · exact hnone
    · exact hextends.get?_eq_none (h.fresh x (.inr heliminated))
  lt := List.forall_mem_cons.2 ⟨hlt, h.lt⟩
  nodup := by
    rw [eliminatedWires_eliminate, List.nodup_cons]
    refine ⟨?_, h.nodup⟩
    intro hmem
    have hfresh := h.fresh wire (.inr hmem)
    simp [Assignment.get?_assign, hlt] at hfresh
  disjoint x hx := by
    rw [eliminatedWires_eliminate, List.mem_cons] at hx
    rw [filledWires_eliminate]
    intro hfilled
    rcases hx with rfl | hmem
    · have hfresh := h.fresh x (.inl hfilled)
      simp [Assignment.get?_assign, hlt] at hfresh
    · exact h.disjoint x hmem hfilled

theorem Placed.exists_constraint {e : Equation} (h : s.Placed e) :
    ∃ c, s.circuit.constraints[e.index]? = some c ∧
      e = .ofConstraint s.circuit.prime e.index c := by
  have h : s.equations[e.index]? = some e := h
  rw [equations, List.getElem?_map, Option.map_eq_some_iff] at h
  obtain ⟨⟨c, i⟩, hget, heq⟩ := h
  have hi : i = e.index := congrArg Equation.index heq
  rw [hi] at hget heq
  exact ⟨c, List.mem_zipIdx_iff_getElem?.1 (List.mem_of_getElem? hget), heq.symm⟩

section Run

variable (hfills : ∀ g ∈ s.gadgets, g.FillsUnknown s.circuit.prime)
include hfills

/-- An equation without unknown wires is never eliminated from again. -/
theorem Moves.notMem_eliminatedFrom {moves : List Move} (h : s.Moves a moves b) {e : Equation}
    (he : s.Placed e) (hknown : e.unknowns a.get? = []) : e.index ∉ eliminatedFrom moves := by
  induction h with
  | nil a => simp [eliminatedFrom]
  | apply hg happly _ ih =>
    have hextends := extends_applyGadget (hfills _ (List.mem_of_getElem? hg)) happly
    exact ih (unknowns_eq_nil_of_extends hextends hknown)
  | @eliminate wire value d moves a c hd hunknown _ _ ih =>
    have hextends := extends_assign_of_unknowns hunknown value
    rw [eliminatedFrom_eliminate, List.mem_cons, not_or]
    refine ⟨?_, ih (unknowns_eq_nil_of_extends hextends hknown)⟩
    intro hindex
    have hplaced : s.equations[d.index]? = some e := hindex ▸ he
    obtain rfl : d = e := Option.some.inj (hd.symm.trans hplaced)
    rw [hunknown] at hknown
    cases hknown

variable (hk : s.circuit.WellFormed) {moves : List Move} {a b : Assignment s.circuit.wireCount}
include hk

theorem Moves.writes (h : s.Moves a moves b) : Writes a moves b := by
  induction h with
  | nil a => exact .nil a
  | apply hg happly _ ih =>
    exact .apply (extends_applyGadget (hfills _ (List.mem_of_getElem? hg)) happly) ih _ _
  | @eliminate wire value e moves a c he hunknown _ _ ih =>
    have hlt := lt_of_unknowns hk (List.mem_of_getElem? he) hunknown
    exact .eliminate (get?_eq_none_of_unknowns hunknown) hlt ih e.index

theorem Moves.nodup_eliminatedFrom (h : s.Moves a moves b) : (eliminatedFrom moves).Nodup := by
  induction h with
  | nil a => exact .nil
  | apply _ _ _ ih => exact ih
  | @eliminate wire value e moves a c he hunknown _ hrest ih =>
    have hlt := lt_of_unknowns hk (List.mem_of_getElem? he) hunknown
    have hknown := unknowns_assign hunknown hlt value
    rw [eliminatedFrom_eliminate, List.nodup_cons]
    exact ⟨hrest.notMem_eliminatedFrom hfills he hknown, ih⟩

/-- When a wire is eliminated from a constraint, all its other wires are known. -/
theorem Moves.known_of_eliminate {inputs : List Nat} (hstarted : s.Started inputs a)
    {before after : List Move} {constraint wire : Nat}
    (h : s.Moves a (before ++ .eliminate constraint wire :: after) b) :
    ∃ c, s.circuit.constraints[constraint]? = some c ∧ c.Mentions wire ∧
      ∀ x, c.Mentions x → x ≠ wire → x = oneWire ∨ x ∈ s.circuit.inputWires.toList ∨
        x ∈ filledWires before ∨ x ∈ eliminatedWires before := by
  obtain ⟨m, hbefore, hafter⟩ := h.split
  have hwrites := hbefore.writes hfills hk
  cases hafter with
  | @eliminate _ value e _ _ _ he hunknown hvalue _ =>
    obtain ⟨c, hc, heq⟩ := he.exists_constraint
    rw [heq, Equation.unknowns_eq_singleton_iff] at hunknown
    refine ⟨c, hc, (Constraint.mem_wires_iff.1 ((hunknown wire).2 rfl).1).1, ?_⟩
    intro x hx hne
    by_cases hone : x = oneWire
    · exact .inl hone
    · have hsome : (m.get? x).isSome = true := by
        rw [Option.isSome_iff_ne_none]
        intro hnone
        exact hne ((hunknown x).1 ⟨Constraint.mem_wires_iff.2 ⟨hx, hone⟩, hnone⟩)
      have hlt := hk.wires c (List.mem_of_getElem? hc) x hx
      rcases (hwrites.isSome_iff x hlt).1 hsome with hstart | hwritten
      · exact (hstarted.isSome_iff.1 hstart).imp_right .inl
      · exact .inr (.inr hwritten)

end Run

theorem mem_eliminatedWires_iff {moves : List Move} {wire : Nat} :
    wire ∈ eliminatedWires moves ↔
      ∃ constraint, .eliminate constraint wire ∈ moves.filterMap Move.step? := by
  simp only [eliminatedWires, List.mem_map, List.mem_filterMap, Move.step?_eq_eliminate_iff]
  constructor
  · rintro ⟨⟨constraint, wire⟩, ⟨m, hm, helim⟩, rfl⟩
    exact ⟨constraint, m, hm, Move.elimination?_eq_some_iff.1 helim⟩
  · rintro ⟨constraint, m, hm, rfl⟩
    exact ⟨(constraint, wire), ⟨_, hm, rfl⟩, rfl⟩

/-- Without gadgets all moves are eliminations. -/
theorem Moves.steps_of_gadgets_eq_nil (hnone : s.gadgets = []) {moves : List Move}
    (h : s.Moves a moves b) : filledWires moves = [] ∧
      (moves.filterMap Move.step?).length = (eliminatedWires moves).length := by
  induction h with
  | nil a => exact ⟨rfl, rfl⟩
  | apply hg _ _ _ => simp [hnone] at hg
  | eliminate _ _ _ _ ih => exact ⟨ih.1, congrArg (· + 1) ih.2⟩

/-- A gadget that fills something leaves a step behind, unless it reports nothing. -/
theorem Moves.exists_step_of_filled (hidle : ∀ g ∈ s.gadgets, g.IdleAtZero s.circuit.prime)
    {moves : List Move} (h : s.Moves a moves b) :
    ∀ m ∈ moves, m.filled ≠ [] → ∃ index, m.step? = some (.gadget index) := by
  induction h with
  | nil a => simp
  | @apply index count g moves a b c hg happly _ ih =>
    refine List.forall_mem_cons.2 ⟨?_, ih⟩
    intro hfilled
    refine ⟨index, if_neg ?_⟩
    rintro rfl
    have hsame : b = a := hidle g (List.mem_of_getElem? hg) (applyGadget_eq_ok_iff.1 happly)
    apply hfilled
    rw [hsame]
    exact List.filter_eq_nil_iff.2 fun wire _ => by cases a.get? wire <;> simp
  | eliminate _ _ _ _ ih =>
    refine List.forall_mem_cons.2 ⟨?_, ih⟩
    intro hfilled
    exact absurd rfl hfilled

/-- The moves behind a recorded path. -/
theorem exists_moves_of_solve {inputs : List Nat} {w : Witness} {path : Path}
    (h : (s.solve inputs).outcome = .ok (w, path)) :
    ∃ a moves b, s.start inputs = .ok a ∧ s.Moves a moves b ∧ b.unknownCount = 0 ∧
      s.finish b = .ok w ∧ path.steps = moves.filterMap Move.step? := by
  rw [solve] at h
  obtain ⟨a, hstart, h⟩ := Logged.outcome_bind_eq_ok_iff.1 h
  obtain ⟨r, hsearch, h⟩ := Logged.outcome_bind_eq_ok_iff.1 h
  obtain ⟨w', hfinish, h⟩ := Logged.outcome_bind_eq_ok_iff.1 h
  obtain ⟨-, -, h⟩ := Logged.outcome_bind_eq_ok_iff.1 h
  obtain ⟨rfl, rfl⟩ := Prod.mk.inj (Except.ok.inj h)
  obtain ⟨⟨moves, hmoves, hsteps⟩, hknown⟩ := recorded_search s.placed_equations hsearch
  exact ⟨a, moves, r.assignment, hstart, hmoves, hknown, hfinish, hsteps⟩

/-- A path whose eliminations are a triangular system, given the moves that it was recorded of. -/
structure Triangular (s : Solver) (path : Path) (moves : List Move) : Prop where
  constraints_nodup : (path.eliminations.map Prod.fst).Nodup
  wires_nodup : (path.eliminations.map Prod.snd).Nodup
  mem_wires_iff : ∀ wire, wire ∈ path.eliminations.map Prod.snd ↔ wire < s.circuit.wireCount ∧
    wire ≠ oneWire ∧ wire ∉ s.circuit.inputWires.toList ∧ wire ∉ filledWires moves
  known_before : ∀ done constraint wire rest,
    path.steps = done ++ .eliminate constraint wire :: rest →
    ∃ before after c, moves = before ++ .eliminate constraint wire :: after ∧
      done = before.filterMap Move.step? ∧ s.circuit.constraints[constraint]? = some c ∧
      c.Mentions wire ∧ ∀ x, c.Mentions x → x ≠ wire →
        x = oneWire ∨ x ∈ s.circuit.inputWires.toList ∨ x ∈ filledWires before ∨
          ∃ d, .eliminate d x ∈ done

section Complete

variable (hfills : ∀ g ∈ s.gadgets, g.FillsUnknown s.circuit.prime) (hk : s.circuit.WellFormed)
  {inputs : List Nat} {moves : List Move} {a b : Assignment s.circuit.wireCount}
  (hstarted : s.Started inputs a) (hmoves : s.Moves a moves b) (hknown : b.unknownCount = 0)
include hfills hk hstarted hmoves hknown

/-- In the end all wires have been written that were not given. -/
theorem mem_eliminatedWires_iff_of_complete (wire : Nat) :
    wire ∈ eliminatedWires moves ↔ wire < s.circuit.wireCount ∧ wire ≠ oneWire ∧
      wire ∉ s.circuit.inputWires.toList ∧ wire ∉ filledWires moves := by
  have hwrites := hmoves.writes hfills hk
  constructor
  · intro hmem
    have hfresh := hwrites.fresh wire (.inr hmem)
    have hgiven : ¬(wire = oneWire ∨ wire ∈ s.circuit.inputWires.toList) := by
      rw [← hstarted.isSome_iff, hfresh]
      simp
    rw [not_or] at hgiven
    exact ⟨hwrites.lt wire hmem, hgiven.1, hgiven.2, hwrites.disjoint wire hmem⟩
  · rintro ⟨hlt, hone, hinput, hfilled⟩
    have hsome := (hwrites.isSome_iff wire hlt).1 (Assignment.isSome_get? hknown hlt)
    rw [hstarted.isSome_iff] at hsome
    simpa [hone, hinput, hfilled] using hsome

theorem Moves.triangular {path : Path} (hsteps : path.steps = moves.filterMap Move.step?) :
    s.Triangular path moves where
  constraints_nodup := by
    rw [Path.eliminations_of_steps hsteps]
    exact hmoves.nodup_eliminatedFrom hfills hk
  wires_nodup := by
    rw [Path.eliminations_of_steps hsteps]
    exact (hmoves.writes hfills hk).nodup
  mem_wires_iff := by
    rw [Path.eliminations_of_steps hsteps]
    exact mem_eliminatedWires_iff_of_complete hfills hk hstarted hmoves hknown
  known_before := by
    intro done constraint wire rest hsplit
    rw [hsteps] at hsplit
    obtain ⟨before, behind, rfl, rfl, hbehind⟩ := List.filterMap_eq_append_iff.1 hsplit
    obtain ⟨silent, m, after, rfl, hsilent, hm, -⟩ := List.filterMap_eq_cons_iff.1 hbehind
    obtain rfl := Move.step?_eq_eliminate_iff.1 hm
    rw [← List.append_assoc] at hmoves
    obtain ⟨c, hc, hmentions, hothers⟩ := hmoves.known_of_eliminate hfills hk hstarted
    have hdone : before.filterMap Move.step? = (before ++ silent).filterMap Move.step? := by
      rw [List.filterMap_append, List.filterMap_eq_nil_iff.2 hsilent, List.append_nil]
    refine ⟨before ++ silent, after, c, (List.append_assoc ..).symm, hdone, hc, hmentions, ?_⟩
    rw [hdone]
    simpa only [mem_eliminatedWires_iff] using hothers

/-- Where no gadget fills anything, all wires that were not given are eliminated. -/
theorem length_eliminatedWires (hfilled : filledWires moves = []) :
    1 + s.circuit.inputCount + (eliminatedWires moves).length = s.circuit.wireCount := by
  have hmem := mem_eliminatedWires_iff_of_complete hfills hk hstarted hmoves hknown
  simp only [hfilled, List.not_mem_nil, not_false_iff, and_true] at hmem
  have hinputs (wire : Nat) (hwire : wire ∈ s.circuit.inputWires.toList) :=
    hk.inputWire_lt hwire
  have hperm : (oneWire :: (s.circuit.inputWires.toList ++ eliminatedWires moves)).Perm
      (List.range s.circuit.wireCount) := by
    rw [List.perm_ext_iff_of_nodup _ List.nodup_range]
    · intro wire
      rw [List.mem_cons, List.mem_append, hmem, List.mem_range]
      constructor
      · rintro (rfl | hinput | hrest)
        · exact hk.wireCount_pos
        · exact (hinputs wire hinput).2
        · exact hrest.1
      · intro hlt
        tauto
    · have hdistinct : (s.circuit.inputWires.toList ++ eliminatedWires moves).Nodup := by
        refine s.circuit.nodup_inputWires.append (hmoves.writes hfills hk).nodup ?_
        intro wire hinput hrest
        exact ((hmem wire).1 hrest).2.2 hinput
      rw [List.nodup_cons, List.mem_append, not_or]
      exact ⟨⟨fun hinput => (hinputs oneWire hinput).1.ne rfl,
        fun hrest => ((hmem oneWire).1 hrest).2.1 rfl⟩, hdistinct⟩
  have hlength := hperm.length_eq
  rw [List.length_cons, List.length_append, List.length_range, Circuit.length_inputWires] at hlength
  omega

end Complete

/-- Every path that a solver records is triangular. The wires that are not eliminated are the
constant wire, the inputs and what gadgets filled; those gadgets stand in the path where they keep
to reporting what they fill. Without gadgets, a path has one step for each wire that is not
given. -/
theorem triangular_of_solve {bytes : Bytes} (hparse : (Circuit.parse bytes).outcome = .ok s.circuit)
    (hfills : ∀ g ∈ s.gadgets, g.FillsUnknown s.circuit.prime) {inputs : List Nat} {w : Witness}
    {path : Path} (h : (s.solve inputs).outcome = .ok (w, path)) :
    ∃ a moves b, s.start inputs = .ok a ∧ s.Moves a moves b ∧ b.Holds w ∧
      path.steps = moves.filterMap Move.step? ∧ s.Triangular path moves ∧
      ((∀ g ∈ s.gadgets, g.IdleAtZero s.circuit.prime) →
        ∀ m ∈ moves, m.filled ≠ [] → ∃ index, m.step? = some (.gadget index)) ∧
      (s.gadgets = [] →
        path.steps.length = s.circuit.wireCount - 1 - s.circuit.inputCount) := by
  have hk : s.circuit.WellFormed := Circuit.wellFormed_of_parse hparse
  obtain ⟨a, moves, b, hstart, hmoves, hknown, hfinish, hsteps⟩ := exists_moves_of_solve h
  have hstarted := started_of_start hk hstart
  obtain ⟨rfl, -⟩ := finish_eq_ok_iff.1 hfinish
  refine ⟨a, moves, b, hstart, hmoves, Assignment.holds_mk_values hknown, hsteps,
    hmoves.triangular hfills hk hstarted hknown hsteps,
    fun hidle => hmoves.exists_step_of_filled hidle, ?_⟩
  intro hnone
  obtain ⟨hfilled, hlength⟩ := hmoves.steps_of_gadgets_eq_nil hnone
  have hcount := length_eliminatedWires hfills hk hstarted hmoves hknown hfilled
  rw [hsteps, hlength]
  omega

/-- Of two gadgets, both of which stand in the path, one has filled the bits. -/
theorem triangular_of_solve_squareBits : ∃ (path : Path) (moves : List Move),
    path.steps = [.gadget 0, .eliminate 0 3, .gadget 0, .gadget 1, .eliminate 2 1] ∧
      squareBits.Triangular path moves ∧ ∀ wire ∈ [4, 5, 6], wire ∈ filledWires moves := by
  obtain ⟨⟨w, path⟩, hsolve, hpath⟩ : ∃ r, (squareBits.solve [2]).outcome = .ok r ∧
      r.2.steps = [.gadget 0, .eliminate 0 3, .gadget 0, .gadget 1, .eliminate 2 1] := by
    decide +kernel
  have hpath : path.steps = [.gadget 0, .eliminate 0 3, .gadget 0, .gadget 1, .eliminate 2 1] :=
    hpath
  obtain ⟨a, moves, b, -, -, -, -, htriangular, -⟩ :=
    triangular_of_solve parse_squareBits fillsUnknown_squareBits hsolve
  -- A bit is neither given nor eliminated.
  have hbits : ∀ wire ∈ [4, 5, 6], wire < squareBits.circuit.wireCount ∧ wire ≠ oneWire ∧
      wire ∉ squareBits.circuit.inputWires.toList ∧ wire ∉ [3, 1] := by
    decide
  refine ⟨path, moves, hpath, htriangular, ?_⟩
  intro wire hwire
  by_contra hfilled
  obtain ⟨hlt, hone, hinput, hother⟩ := hbits wire hwire
  have hmem := (htriangular.mem_wires_iff wire).2 ⟨hlt, hone, hinput, hfilled⟩
  simp only [Path.eliminations, hpath] at hmem
  exact hother hmem

end Solver

end CircuitTrace
