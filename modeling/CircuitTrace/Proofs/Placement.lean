import CircuitTrace.Proofs.Grouping
import CircuitTrace.Proofs.WellFormed

namespace CircuitTrace

namespace Packing

/-- A wire lies on a row. -/
def Local (k : Packing) (row wire : Nat) : Prop := wire ∈ k.rows.getD row []

/-- The laws of a packing of a circuit. -/
structure Fits (packing : Packing) (k : Circuit) : Prop where
  two_le : 2 ≤ packing.rowCount
  row_ascending : ∀ row, (packing.rows.getD row []).Pairwise (· < ·)
  globals_ascending : packing.globals.Pairwise (· < ·)
  not_global : ∀ {row wire}, packing.Local row wire → wire ∉ packing.globals
  adjacent : ∀ {row row' wire}, packing.Local row wire → packing.Local row' wire → row ≤ row' →
    row' = row ∨ row' = row + 1
  inRange : ∀ {wire}, wire ∈ packing.globals ∨ (∃ row, packing.Local row wire) →
    0 < wire ∧ wire < k.wireCount
  publicPlaced : ∀ wire ∈ k.publicWires.toList,
    wire ∈ packing.globals ∨ ∃ row, packing.Local row wire

theorem mem_rowsUsing {chain : List Group} {wire row : Nat} :
    row ∈ rowsUsing chain wire ↔
      ∃ g, chain[row]? = some g ∧ g.wires.contains wire = true := by
  rw [rowsUsing, List.mem_filter, List.mem_range]
  constructor
  · rintro ⟨hr, hg⟩
    rw [List.getElem?_eq_getElem hr] at hg ⊢
    exact ⟨_, rfl, by simpa using hg⟩
  · rintro ⟨g, hg, hw⟩
    refine ⟨(List.getElem?_eq_some_iff.1 hg).1, ?_⟩
    rw [hg]
    simpa using hw

theorem adjacent_of_isLocal {l : List Nat} (hl : isLocal l = true) {a b : Nat} (ha : a ∈ l)
    (hb : b ∈ l) (hab : a ≤ b) : b = a ∨ b = a + 1 := by
  match l with
  | [] => simp at ha
  | [x] =>
    simp only [List.mem_singleton] at ha hb
    omega
  | [x, y] =>
    have hxy : y = x + 1 := by simpa [isLocal] using hl
    simp only [List.mem_cons, List.not_mem_nil, or_false] at ha hb
    omega
  | _ :: _ :: _ :: _ => simp [isLocal] at hl

section OfChain

variable (k : Circuit) (chain : List Group)

/-- The wires of the groups of a chain. -/
def Uses (wire : Nat) : Prop := ∃ g ∈ chain, g.wires.contains wire = true

variable {chain}

theorem uses_iff {wire : Nat} : Uses chain wire ↔ ∃ row, row ∈ rowsUsing chain wire := by
  simp only [mem_rowsUsing, Uses]
  constructor
  · rintro ⟨g, hg, hw⟩
    obtain ⟨row, hrow⟩ := List.mem_iff_getElem?.1 hg
    exact ⟨row, g, hrow, hw⟩
  · rintro ⟨row, g, hrow, hw⟩
    exact ⟨g, List.mem_of_getElem? hrow, hw⟩

theorem contains_used {wire : Nat} :
    (chain.foldl (fun s g => SortedSet.union s g.wires) .empty).contains wire = true ↔
      Uses chain wire := by
  have fold (l : List Group) (s : SortedSet Nat) :
      (l.foldl (fun s g => SortedSet.union s g.wires) s).contains wire = true ↔
        s.contains wire = true ∨ Uses l wire := by
    induction l generalizing s with
    | nil => simp [Uses]
    | cons g l ih =>
      rw [List.foldl_cons, ih, SortedSet.contains_union, or_assoc]
      simp [Uses]
  rw [fold]
  simp [SortedMap.contains]

theorem mem_globals {wire : Nat} : wire ∈ (ofChain k chain).globals ↔
    (Uses chain wire ∧ isLocal (rowsUsing chain wire) = false) ∨
      (wire ∈ k.publicWires.toList ∧ ¬Uses chain wire) := by
  simp only [ofChain]
  rw [SortedSet.toList, SortedMap.mem_keys_iff, SortedSet.contains_ofList, List.mem_append,
    List.mem_filter, List.mem_filter, SortedSet.toList, SortedMap.mem_keys_iff, contains_used]
  simp only [Bool.not_eq_true', ← contains_used, Bool.not_eq_true]

theorem local_iff {row wire : Nat} : (ofChain k chain).Local row wire ↔
    row ∈ rowsUsing chain wire ∧ wire ∉ (ofChain k chain).globals := by
  have hglobals (s : SortedSet Nat) : (!s.contains wire) = true ↔ wire ∉ s.toList := by
    rw [SortedSet.toList, SortedMap.mem_keys_iff, Bool.not_eq_true', Bool.not_eq_true]
  rw [Local, mem_rowsUsing]
  simp only [ofChain, List.getD_eq_getElem?_getD, List.getElem?_map]
  cases hg : chain[row]? with
  | none => simp
  | some g =>
    simp only [Option.map_some, Option.getD_some, List.mem_filter, SortedMap.mem_keys_iff, hglobals,
      Option.some.injEq, exists_eq_left']

theorem fits_ofChain (hk : k.WellFormed) (hlen : 2 ≤ chain.length)
    (hchain : ∀ g ∈ chain, g.UsesOnly fun w => 0 < w ∧ w < k.wireCount) :
    (ofChain k chain).Fits k where
  two_le := by simpa [rowCount, ofChain] using hlen
  row_ascending row := by
    simp only [ofChain, List.getD_eq_getElem?_getD, List.getElem?_map]
    cases chain[row]? with
    | none => exact .nil
    | some g => exact g.wires.keys_strictMono.filter _
  globals_ascending := SortedMap.keys_strictMono _
  not_global h := ((local_iff k).1 h).2
  adjacent {row row' wire} h h' hle := by
    obtain ⟨hrow, hglobal⟩ := (local_iff k).1 h
    have hlocal : isLocal (rowsUsing chain wire) = true := by
      by_contra hfalse
      exact hglobal ((mem_globals k).2 (.inl ⟨uses_iff.2 ⟨row, hrow⟩, by simpa using hfalse⟩))
    exact adjacent_of_isLocal hlocal hrow ((local_iff k).1 h').1 hle
  inRange {wire} h := by
    have used (hu : Uses chain wire) : 0 < wire ∧ wire < k.wireCount := by
      obtain ⟨g, hg, hw⟩ := hu
      exact hchain g hg wire hw
    rcases h with h | ⟨row, h⟩
    · rcases (mem_globals k).1 h with h | h
      · exact used h.1
      · exact hk.publicWire_lt h.1
    · exact used (uses_iff.2 ⟨row, ((local_iff k).1 h).1⟩)
  publicPlaced wire hw := by
    by_cases hu : Uses chain wire
    · by_cases hglobal : wire ∈ (ofChain k chain).globals
      · exact .inl hglobal
      · obtain ⟨row, hrow⟩ := uses_iff.1 hu
        exact .inr ⟨row, (local_iff k).2 ⟨hrow, hglobal⟩⟩
    · exact .inl ((mem_globals k).2 (.inr ⟨hw, hu⟩))

end OfChain

theorem usesOnly_singletons {k : Circuit} (hk : k.WellFormed) :
    ∀ g ∈ Group.singletons k, g.UsesOnly fun w => 0 < w ∧ w < k.wireCount := by
  intro g hg w hw
  obtain ⟨i, hi, rfl⟩ := List.mem_mapIdx.1 hg
  simp only [Constraint.wires] at hw
  rw [SortedSet.contains_ofList, List.mem_filter, List.mem_flatMap] at hw
  obtain ⟨⟨l, hl, hw⟩, hne⟩ := hw
  refine ⟨?_, hk.wires _ (List.getElem_mem hi) w ⟨l, hl, hw⟩⟩
  simp only [oneWire, bne_iff_ne] at hne
  omega

theorem fits_ofCircuit {ε : Type} {k : Circuit} {config : PackingConfig} {packing : Packing}
    (hk : k.WellFormed) (h : (ofCircuit k config : Logged ε Packing).outcome = .ok packing) :
    packing.Fits k := by
  rw [ofCircuit] at h
  obtain ⟨groups, hgroups, h⟩ := Logged.outcome_bind_eq_ok_iff.1 h
  cases h
  apply fits_ofChain k hk
  · rw [List.length_append, List.length_replicate]
    omega
  · intro g hg
    rcases List.mem_append.1 hg with hg | hg
    · have hmem : g ∈ groups := (Group.chain_perm groups).mem_iff.1 hg
      exact forall_mergeGroups (fun _ _ => Group.UsesOnly.merge) (usesOnly_singletons hk) hgroups g
        hmem
    · rw [List.eq_of_mem_replicate hg]
      exact Group.usesOnly_empty

end Packing

end CircuitTrace
