import CircuitTrace.Proofs.Equations
import CircuitTrace.Proofs.Compilation

/-!
How a packing serves the constraints of a circuit. Every constraint finds its wires in the columns
of the globals and on its home row, so a layout can be made of every packing. The globals are the
wires for which two rows next to each other are not enough, and the public inputs without any row.
-/
namespace CircuitTrace

section Uses

variable {k : Circuit} {i wire : Nat}

/-- Whether the constraint at a place uses a wire, other than the constant one. -/
def Circuit.uses (k : Circuit) (constraint wire : Nat) : Bool :=
  k.constraints[constraint]?.any fun c => c.wires.contains wire

theorem Circuit.uses_iff : k.uses i wire = true ↔
    ∃ c, k.constraints[i]? = some c ∧ c.Mentions wire ∧ wire ≠ oneWire := by
  simp only [uses, Option.any_eq_true, ← SortedMap.mem_keys_iff]
  exact exists_congr fun c => and_congr_right fun _ => Constraint.mem_wires_iff

theorem Circuit.lt_of_uses (h : k.uses i wire = true) : i < k.constraints.length := by
  obtain ⟨c, hc, -⟩ := uses_iff.1 h
  exact (List.getElem?_eq_some_iff.1 hc).1

end Uses

namespace Group

variable {k : Circuit} {g h : Group}

/-- A group has the wires that its constraints use. -/
def Gathers (k : Circuit) (g : Group) : Prop :=
  ∀ wire, g.wires.contains wire = true ↔ ∃ i ∈ g.constraints, k.uses i wire = true

theorem gathers_empty : empty.Gathers k := by
  intro wire
  simp [empty, SortedMap.contains]

theorem Gathers.merge (hg : g.Gathers k) (hh : h.Gathers k) : (g.merge h).Gathers k := by
  intro wire
  rw [Group.merge, SortedSet.contains_union, hg wire, hh wire]
  simp only [List.mem_append, or_and_right, exists_or]

theorem gathers_singletons : ∀ g ∈ singletons k, g.Gathers k := by
  intro g hg wire
  obtain ⟨i, hi, rfl⟩ := List.mem_mapIdx.1 hg
  simp [Circuit.uses, hi]

theorem constraints_singletons (k : Circuit) :
    (singletons k).flatMap Group.constraints = List.range k.constraints.length := by
  rw [singletons, List.mapIdx_eq_zipIdx_map, List.flatMap_map, List.range_eq_range',
    ← List.zipIdx_map_snd 0 k.constraints, List.map_eq_flatMap]

end Group

namespace Packing

variable {k : Circuit} {packing : Packing} {chain : List Group} {row row' wire i : Nat}

/-- The rows of the constraints that use a wire. -/
def homesUsing (packing : Packing) (k : Circuit) (wire : Nat) : Finset Nat :=
  ((Finset.range k.constraints.length).filter fun i => k.uses i wire).image packing.home

/-- More than two rows, or two that are not next to each other. -/
def Spread (rows : Finset Nat) : Prop := 2 < rows.card ∨ ∃ a b, rows = {a, b} ∧ a + 1 < b

theorem spread_iff {rows : Finset Nat} : Spread rows ↔ ∃ a ∈ rows, ∃ b ∈ rows, a + 1 < b := by
  constructor
  · rintro (hcard | ⟨a, b, rfl, hab⟩)
    · obtain ⟨a, ha, b, hb, c, hc, hab, hac, hbc⟩ := Finset.two_lt_card.1 hcard
      by_contra hclose
      push Not at hclose
      have := hclose a ha b hb
      have := hclose b hb a ha
      have := hclose a ha c hc
      have := hclose c hc a ha
      have := hclose b hb c hc
      have := hclose c hc b hb
      omega
    · exact ⟨a, by simp, b, by simp, hab⟩
  · rintro ⟨a, ha, b, hb, hab⟩
    by_cases hcard : 2 < rows.card
    · exact .inl hcard
    · refine .inr ⟨a, b, (Finset.eq_of_subset_of_card_le ?_ ?_).symm, hab⟩
      · simp [Finset.insert_subset_iff, ha, hb]
      · rw [Finset.card_pair (by omega)]
        omega

theorem isLocal_iff {l : List Nat} :
    isLocal l = true ↔ (∃ row, l = [row]) ∨ ∃ row, l = [row, row + 1] := by
  match l with
  | [] => simp [isLocal]
  | [a] => simp [isLocal]
  | [a, b] => simp [isLocal]
  | _ :: _ :: _ :: _ => simp [isLocal]

/-- Of ascending rows, those that are not local are none at all or too far from each other. -/
theorem isLocal_eq_false_iff {l : List Nat} (hl : l.Pairwise (· < ·)) :
    isLocal l = false ↔ l = [] ∨ ∃ a ∈ l, ∃ b ∈ l, a + 1 < b := by
  match l with
  | [] => simp [isLocal]
  | [a] => simp [isLocal]
  | [a, b] =>
    have hab : a < b := by simpa using hl
    simp only [isLocal, beq_eq_false_iff_ne, reduceCtorEq, List.mem_cons, List.not_mem_nil,
      or_false, false_or, exists_eq_or_imp, exists_eq_left]
    omega
  | a :: b :: c :: l =>
    have hab : a < b ∧ b < c := by simp at hl; omega
    simp only [isLocal, reduceCtorEq, false_or, true_iff]
    exact ⟨a, by simp, c, by simp, by omega⟩

/-- A chain of groups with every constraint of a circuit in one of them. -/
structure Covers (k : Circuit) (chain : List Group) : Prop where
  constraints : (chain.flatMap Group.constraints).Perm (List.range k.constraints.length)
  gathers : ∀ g ∈ chain, g.Gathers k

namespace Covers

variable (hc : Covers k chain)
include hc

theorem row_unique {g g' : Group} (hg : chain[row]? = some g) (hg' : chain[row']? = some g')
    (hi : i ∈ g.constraints) (hi' : i ∈ g'.constraints) : row = row' := by
  have hnodup := hc.constraints.nodup_iff.2 List.nodup_range
  have hdisjoint := List.pairwise_iff_getElem.1 (List.nodup_flatMap.1 hnodup).2
  obtain ⟨hr, rfl⟩ := List.getElem?_eq_some_iff.1 hg
  obtain ⟨hr', rfl⟩ := List.getElem?_eq_some_iff.1 hg'
  rcases Nat.lt_trichotomy row row' with hlt | heq | hlt
  · exact absurd hi' (hdisjoint row row' hr hr' hlt hi)
  · exact heq
  · exact absurd hi (hdisjoint row' row hr' hr hlt hi')

/-- The home row of a constraint is that of its group. -/
theorem exists_home (hi : i < k.constraints.length) :
    ∃ g, chain[(ofChain k chain).home i]? = some g ∧ i ∈ g.constraints := by
  have hmem : i ∈ chain.flatMap Group.constraints := by simpa [hc.constraints.mem_iff] using hi
  obtain ⟨g, hg, hig⟩ := List.mem_flatMap.1 hmem
  have hlt : (chain.findIdx fun g => g.constraints.contains i) < chain.length :=
    List.findIdx_lt_length.2 ⟨g, hg, by simpa using hig⟩
  have hhome : (ofChain k chain).home i = chain.findIdx fun g => g.constraints.contains i := by
    simp [home, ofChain, hi]
  rw [hhome, List.getElem?_eq_getElem hlt]
  exact ⟨_, rfl, by simpa using List.findIdx_getElem (w := hlt)⟩

theorem mem_homesUsing :
    row ∈ (ofChain k chain).homesUsing k wire ↔ row ∈ rowsUsing chain wire := by
  simp only [homesUsing, Finset.mem_image, Finset.mem_filter, Finset.mem_range, mem_rowsUsing]
  constructor
  · rintro ⟨i, ⟨hi, huses⟩, rfl⟩
    obtain ⟨g, hg, hig⟩ := hc.exists_home hi
    exact ⟨g, hg, (hc.gathers g (List.mem_of_getElem? hg) wire).2 ⟨i, hig, huses⟩⟩
  · rintro ⟨g, hg, hwire⟩
    obtain ⟨i, hig, huses⟩ := (hc.gathers g (List.mem_of_getElem? hg) wire).1 hwire
    have hi := Circuit.lt_of_uses huses
    obtain ⟨g', hg', hig'⟩ := hc.exists_home hi
    exact ⟨i, ⟨hi, huses⟩, hc.row_unique hg' hg hig' hig⟩

theorem uses_iff : Uses chain wire ↔ ∃ i, k.uses i wire = true := by
  rw [Packing.uses_iff]
  simp only [← hc.mem_homesUsing, homesUsing, Finset.mem_image, Finset.mem_filter, Finset.mem_range]
  constructor
  · rintro ⟨-, i, ⟨-, huses⟩, -⟩
    exact ⟨i, huses⟩
  · rintro ⟨i, huses⟩
    exact ⟨_, i, ⟨Circuit.lt_of_uses huses, huses⟩, rfl⟩

/-- The globals in terms of the circuit and the home rows. -/
theorem mem_globals_iff (hk : k.WellFormed) : wire ∈ (ofChain k chain).globals ↔
    Spread ((ofChain k chain).homesUsing k wire) ∨
      (wire ∈ k.publicWires.toList ∧ ∀ c ∈ k.constraints, ¬c.Mentions wire) := by
  have hspread : Uses chain wire ∧ isLocal (rowsUsing chain wire) = false ↔
      Spread ((ofChain k chain).homesUsing k wire) := by
    have hascending : (rowsUsing chain wire).Pairwise (· < ·) :=
      List.pairwise_lt_range.filter _
    simp only [isLocal_eq_false_iff hascending, spread_iff, hc.mem_homesUsing, Packing.uses_iff]
    constructor
    · rintro ⟨⟨row, hrow⟩, hnil | hspread⟩
      · rw [hnil] at hrow
        cases hrow
      · exact hspread
    · rintro ⟨a, ha, hspread⟩
      exact ⟨⟨a, ha⟩, .inr ⟨a, ha, hspread⟩⟩
  rw [mem_globals, hspread, hc.uses_iff]
  refine or_congr_right (and_congr_right fun hpublic => ?_)
  have hne : wire ≠ oneWire := Nat.ne_of_gt (hk.publicWire_lt hpublic).1
  simp only [Circuit.uses_iff, not_exists, not_and, List.mem_iff_getElem?]
  constructor
  · rintro h c ⟨i, hi⟩ hmentions
    exact h i c hi hmentions hne
  · intro h i c hi hmentions
    exact absurd hmentions (h c ⟨i, hi⟩)

theorem of_perm {groups : List Group} (hperm : groups.Perm chain) : Covers k groups where
  constraints := (hperm.flatMap_right _).trans hc.constraints
  gathers g hg := hc.gathers g (hperm.mem_iff.1 hg)

theorem append_empty (n : Nat) : Covers k (chain ++ List.replicate n .empty) where
  constraints := by
    have hempty : (List.replicate n Group.empty.constraints).flatten = [] := by simp [Group.empty]
    rw [List.flatMap_append, List.flatMap_replicate, hempty, List.append_nil]
    exact hc.constraints
  gathers g hg := by
    rcases List.mem_append.1 hg with hg | hg
    · exact hc.gathers g hg
    · rw [List.eq_of_mem_replicate hg]
      exact Group.gathers_empty

end Covers

theorem covers_afterRounds (k : Circuit) (target rounds : Nat) :
    Covers k (Group.afterRounds target (Group.singletons k) rounds) where
  constraints := by
    rw [← Group.constraints_singletons]
    exact Group.constraints_afterRounds target _ rounds
  gathers := Group.forall_afterRounds (fun _ _ => Group.Gathers.merge) target
    Group.gathers_singletons rounds

/-- A packing is made of the chain of the groups that merging leaves, filled up to two rows. -/
theorem outcome_ofCircuit {ε : Type} {config : PackingConfig} {groups : List Group}
    (h : (mergeGroups (config.groupsFor k.constraints.length) 1 (Group.singletons k) :
      Logged ε (List Group)).outcome = .ok groups) :
    (ofCircuit k config : Logged ε Packing).outcome = .ok (ofChain k
      (Group.chain groups ++ List.replicate (2 - (Group.chain groups).length) .empty)) := by
  rw [ofCircuit, Logged.bind_of_ok h]
  rfl

/-- Merging and ordering leave a chain with every constraint. -/
theorem exists_chain {ε : Type} (k : Circuit) (config : PackingConfig) :
    ∃ chain, (ofCircuit k config : Logged ε Packing).outcome = .ok (ofChain k chain) ∧
      Covers k chain := by
  obtain ⟨rounds, -, -, hmerge⟩ := exists_afterRounds (ε := ε)
    (config.groupsFor k.constraints.length) 1 (Group.singletons k)
  have hcovers := covers_afterRounds k (config.groupsFor k.constraints.length) rounds
  exact ⟨_, outcome_ofCircuit (congrArg Logged.outcome hmerge),
    (hcovers.of_perm (Group.chain_perm _)).append_empty _⟩

/-- The laws of a packing, with the wires of each constraint in the columns of the globals or on its
home row. -/
structure Arranges (packing : Packing) (k : Circuit) : Prop where
  two_le : 2 ≤ packing.rowCount
  rows_ascending : ∀ row ∈ packing.rows, row.Pairwise (· < ·)
  globals_ascending : packing.globals.Pairwise (· < ·)
  inRange : ∀ wire, (wire ∈ packing.globals ∨ ∃ row ∈ packing.rows, wire ∈ row) →
    1 ≤ wire ∧ wire < k.wireCount
  rowsOf_global : ∀ wire ∈ packing.globals, packing.rowsOf wire = []
  rowsOf_local : ∀ wire ∉ packing.globals, packing.rowsOf wire = [] ∨
    (∃ row, packing.rowsOf wire = [row]) ∨ ∃ row, packing.rowsOf wire = [row, row + 1]
  home : ∀ (i : Nat) (c : Constraint), k.constraints[i]? = some c →
    ∃ home row, packing.homes[i]? = some home ∧ packing.rows[home]? = some row ∧
    ∀ wire, c.Mentions wire → wire ≠ oneWire → wire ∈ packing.globals ∨ wire ∈ row
  mem_globals_iff : ∀ wire, wire ∈ packing.globals ↔ Spread (packing.homesUsing k wire) ∨
    (wire ∈ k.publicWires.toList ∧ ∀ c ∈ k.constraints, ¬c.Mentions wire)

/-- A wire that is not a global lies on the rows that use it. -/
theorem rowsOf_eq (hf : (ofChain k chain).Fits k) (hwire : wire ∉ (ofChain k chain).globals) :
    (ofChain k chain).rowsOf wire = rowsUsing chain wire := by
  refine List.Perm.eq_of_pairwise' (List.pairwise_lt_range.filter _)
    (List.pairwise_lt_range.filter _)
    ((List.perm_ext_iff_of_nodup (List.nodup_range.filter _) (List.nodup_range.filter _)).2 ?_)
  intro row
  rw [← rowsOf, ← rowsUsing, hf.mem_rowsOf, local_iff]
  constructor
  · rintro ⟨-, hrow, -⟩
    exact hrow
  · intro hrow
    have hlocal := (local_iff k).2 ⟨hrow, hwire⟩
    exact ⟨hlocal.row_lt, hrow, hwire⟩

theorem Covers.arranges (hc : Covers k chain) (hk : k.WellFormed)
    (hf : (ofChain k chain).Fits k) : (ofChain k chain).Arranges k where
  two_le := hf.two_le
  rows_ascending row hrow := by
    obtain ⟨i, hi⟩ := List.mem_iff_getElem?.1 hrow
    simpa [hi] using hf.row_ascending i
  globals_ascending := hf.globals_ascending
  inRange wire h := by
    refine hf.inRange (h.imp_right ?_)
    rintro ⟨row, hrow, hwire⟩
    obtain ⟨i, hi⟩ := List.mem_iff_getElem?.1 hrow
    exact ⟨i, by simpa [Local, hi] using hwire⟩
  rowsOf_global wire hwire := by
    refine List.eq_nil_iff_forall_not_mem.2 fun row hrow => ?_
    exact hf.not_global (hf.mem_rowsOf.1 hrow).2 hwire
  rowsOf_local wire hwire := by
    rw [rowsOf_eq hf hwire, ← isLocal_iff]
    by_cases hused : Uses chain wire
    · refine .inr ?_
      by_contra hfalse
      exact hwire ((mem_globals k).2 (.inl ⟨hused, by simpa using hfalse⟩))
    · refine .inl (List.eq_nil_iff_forall_not_mem.2 fun row hrow => ?_)
      exact hused (Packing.uses_iff.2 ⟨row, hrow⟩)
  home i c hi := by
    obtain ⟨hlt, -⟩ := List.getElem?_eq_some_iff.1 hi
    obtain ⟨g, hg, hig⟩ := hc.exists_home hlt
    have hrow : (ofChain k chain).home i < (ofChain k chain).rows.length := by
      simpa [ofChain] using (List.getElem?_eq_some_iff.1 hg).1
    refine ⟨_, _, ?_, List.getElem?_eq_getElem hrow, ?_⟩
    · simp [home, ofChain, hlt]
    · intro wire hmentions hne
      by_cases hglobal : wire ∈ (ofChain k chain).globals
      · exact .inl hglobal
      · have huses : k.uses i wire = true := Circuit.uses_iff.2 ⟨c, hi, hmentions, hne⟩
        have hwire := (hc.gathers g (List.mem_of_getElem? hg) wire).2 ⟨i, hig, huses⟩
        have hlocal := (local_iff k).2 ⟨mem_rowsUsing.2 ⟨g, hg, hwire⟩, hglobal⟩
        rw [Local, List.getD_eq_getElem _ _ hrow] at hlocal
        exact .inr hlocal
  mem_globals_iff wire := hc.mem_globals_iff hk

theorem exists_arranges {ε : Type} (hk : k.WellFormed) (config : PackingConfig) :
    ∃ packing, (ofCircuit k config : Logged ε Packing).outcome = .ok packing ∧ packing.Fits k ∧
      packing.Arranges k := by
  obtain ⟨chain, hchain, hc⟩ := exists_chain (ε := ε) k config
  have hf := fits_ofCircuit hk hchain
  exact ⟨_, hchain, hf, hc.arranges hk hf⟩

/-- The wires of a constraint are found on its pair of rows, also where its home is the last row. -/
theorem Arranges.exists_wirePoly (ha : packing.Arranges k) (hf : packing.Fits k) {c : Constraint}
    (hc : k.constraints[i]? = some c) (hwire : c.Mentions wire) :
    ∃ q, packing.wirePoly i (packing.pairOf i) wire = .ok q := by
  by_cases hone : wire = oneWire
  · exact ⟨.one, by rw [wirePoly, if_pos hone]⟩
  obtain ⟨home, row, hhome, hrow, hwires⟩ := ha.home i c hc
  rw [wirePoly, if_neg hone]
  rcases hwires wire hwire hone with hglobal | hlocal
  · obtain ⟨j, hj⟩ := List.mem_iff_getElem?.1 hglobal
    rw [hf.globalIndex?_eq_some_iff.2 hj]
    exact ⟨_, rfl⟩
  · cases packing.globalIndex? wire with
    | some j => exact ⟨_, rfl⟩
    | none =>
      obtain ⟨j, hj⟩ := List.mem_iff_getElem?.1 hlocal
      have hfound : packing.payloadIndex? home wire = some j :=
        hf.payloadIndex?_eq_some_iff.2 (by simpa [hrow] using hj)
      have hpair : packing.pairOf i = home ∨ packing.pairOf i + 1 = home := by
        have htwo := hf.two_le
        have hlt : home < packing.rowCount := (List.getElem?_eq_some_iff.1 hrow).1
        have hhome : packing.home i = home := by simp [Packing.home, hhome]
        rw [pairOf, hhome]
        omega
      rcases hpair with heq | heq
      · rw [heq, hfound]
        exact ⟨_, rfl⟩
      · rw [heq, hfound]
        cases packing.payloadIndex? (packing.pairOf i) wire with
        | some j' => exact ⟨_, rfl⟩
        | none => exact ⟨_, rfl⟩

/-- The globals and the wires of a row are different wires. -/
theorem Fits.length_add_le (hf : packing.Fits k) (row : Nat) :
    packing.globals.length + (packing.rows.getD row []).length ≤ k.wireCount - 1 := by
  have hnodup : (packing.globals ++ packing.rows.getD row []).Nodup := by
    refine List.nodup_append'.2
      ⟨hf.globals_ascending.nodup, (hf.row_ascending row).nodup, fun wire hglobal hlocal => ?_⟩
    exact hf.not_global hlocal hglobal
  have hsubset : packing.globals ++ packing.rows.getD row [] ⊆ List.range' 1 (k.wireCount - 1) := by
    intro wire hwire
    have := hf.inRange ((List.mem_append.1 hwire).imp_right fun h => ⟨row, h⟩)
    rw [List.mem_range'_1]
    omega
  simpa using (hnodup.subperm hsubset).length_le

theorem Fits.count_le (hf : packing.Fits k) (hk : k.WellFormed) :
    packing.columns.count ≤ packing.rowCount + k.wireCount - 1 := by
  have hwidth : packing.width ≤ k.wireCount - 1 - packing.globals.length := by
    refine Packing.width_le_iff.2 fun row => ?_
    have := hf.length_add_le row
    omega
  have hglobals := hf.length_add_le packing.rowCount
  have hwires := hk.wireCount_pos
  simp only [columns, Columns.ofPacking, Columns.count]
  omega

end Packing

namespace Layout

variable {k : Circuit} {packing : Packing}

theorem exists_ofPacking (hf : packing.Fits k) (ha : packing.Arranges k) :
    ∃ l, ofPacking k packing = .ok l := by
  obtain ⟨constraints, hconstraints⟩ : ∃ constraints,
      k.constraints.zipIdx.mapM (packing.circuitConstraint k.prime) = .ok constraints := by
    refine exists_mapM_eq_ok ?_
    rintro ⟨c, i⟩ hmem
    have hc := List.mem_zipIdx_iff_getElem?.1 hmem
    obtain ⟨q, hq⟩ := Constraint.exists_trySubstitute (p := k.prime) fun wire hwire =>
      ha.exists_wirePoly hf hc hwire
    exact ⟨_, map_eq_ok_iff.2 ⟨q, hq, rfl⟩⟩
  exact ⟨_, bind_eq_ok_iff.2 ⟨constraints, hconstraints, rfl⟩⟩

/-- Every public input has its boundary. -/
theorem wireBoundary_ofPacking {l : Layout} (hf : packing.Fits k)
    (h : ofPacking k packing = .ok l) :
    l.wireBoundary.map WireBoundary.wire = k.publicWires.toList := by
  obtain ⟨constraints, -, -, rfl⟩ := ofPacking_eq_ok h
  rw [List.map_filterMap]
  refine (List.filterMap_congr fun wire hwire => ?_).trans List.filterMap_some
  obtain ⟨cell, hcell⟩ := hf.exists_wireCell (hf.publicPlaced wire hwire)
  rw [hcell, Option.map_some, Packing.wire_of_wireCell hcell]

/-- Every circuit that is read from a container can be packed. The packing has its laws, the wires
that it places are found where they are, and its layout pins every public input. -/
theorem exists_packed_of_parse {bytes : Bytes} (hparse : (Circuit.parse bytes).outcome = .ok k)
    (config : PackingConfig) : ∃ packing layout,
      (Packing.ofCircuit k config : Logged CompileError Packing).outcome = .ok packing ∧
      packing.Arranges k ∧
      (∀ row wire j, packing.payloadIndex? row wire = some j ↔
        (packing.rows.getD row [])[j]? = some wire) ∧
      (∀ wire j, packing.globalIndex? wire = some j ↔ packing.globals[j]? = some wire) ∧
      (packed k config).outcome = .ok (packing, layout) ∧
      layout.wireBoundary.map WireBoundary.wire = k.publicWires.toList ∧
      layout.registerCount ≤ packing.rowCount + k.wireCount - 1 := by
  have hk := Circuit.wellFormed_of_parse hparse
  obtain ⟨packing, hpacking, hf, ha⟩ := Packing.exists_arranges (ε := CompileError) hk config
  obtain ⟨layout, hlayout⟩ := exists_ofPacking hf ha
  refine ⟨packing, layout, hpacking, ha, fun _ _ _ => hf.payloadIndex?_eq_some_iff,
    fun _ _ => hf.globalIndex?_eq_some_iff, ?_, wireBoundary_ofPacking hf hlayout, ?_⟩
  · rw [packed, Logged.bind_of_ok hpacking, Logged.bind_of_ok (a := layout) hlayout]
    rfl
  · rw [registerCount_ofPacking hlayout]
    exact hf.count_le hk

/-- Wire 2 is used on the first row and the last, and wire 3 on none, so both are globals. -/
theorem exists_packed_of_parse_squaredProduct : ∃ layout,
    (packed (.squaredProduct 97) { targetGroups := some 3 }).outcome =
      .ok (⟨[[4, 5], [4, 5, 6], [1, 6]], [2, 3], [0, 1, 2]⟩, layout) ∧
    layout.wireBoundary.map WireBoundary.wire = [2, 3] ∧ layout.registerCount ≤ 9 := by
  have hparse := Circuit.parse_squaredProduct (p := 97) (by decide) (by decide)
  have hpacking : (Packing.ofCircuit (.squaredProduct 97) { targetGroups := some 3 } :
      Logged CompileError Packing).outcome =
        .ok ⟨[[4, 5], [4, 5, 6], [1, 6]], [2, 3], [0, 1, 2]⟩ := by
    decide +kernel
  obtain ⟨packing, layout, hpacking', -, -, -, hpacked, hboundary, hcount⟩ :=
    exists_packed_of_parse hparse { targetGroups := some 3 }
  obtain rfl := Except.ok.inj (hpacking.symm.trans hpacking')
  exact ⟨layout, hpacked, hboundary, hcount⟩

end Layout

end CircuitTrace
