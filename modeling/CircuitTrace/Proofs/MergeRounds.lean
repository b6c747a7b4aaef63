import CircuitTrace.Proofs.Arrangement
import CircuitTrace.Proofs.GreedyPairs

/-!
How far groups are merged. A round halves the number of groups, unless its target comes first, so
the rounds end and leave as many groups as were asked for. No round and no ordering loses a
constraint.
-/
namespace CircuitTrace

namespace Group

theorem length_groups (r : Pairing) : r.groups.length = r.pairs.length + r.alone.length := by
  simp [Pairing.groups]

theorem length_members (r : Pairing) :
    r.members.length = 2 * r.pairs.length + r.alone.length := by
  have hpairs (l : List (Numbered × Numbered)) :
      (l.flatMap fun x => [x.1, x.2]).length = 2 * l.length := by
    induction l with
    | nil => rfl
    | cons x l ih =>
      rw [List.flatMap_cons, List.length_append, ih, List.length_cons]
      simp only [List.length_cons, List.length_nil]
      omega
  rw [Pairing.members, List.length_append, hpairs]

/-- Neighbours are paired until the budget or the groups run out. -/
theorem length_pairs_pairNeighbours (budget : Nat) (l : List Numbered) :
    (pairNeighbours budget l).pairs.length = min budget (l.length / 2) := by
  fun_induction pairNeighbours budget l with
  | case1 budget g h rest r ih =>
    have ih : r.pairs.length = min budget (rest.length / 2) := ih
    simp only [List.length_cons, ih]
    omega
  | case2 budget l hstop =>
    -- Either the budget is spent or fewer than two groups are left.
    cases budget with
    | zero => simp
    | succ budget =>
      rcases l with _ | ⟨g, _ | ⟨h, rest⟩⟩
      · rfl
      · simp
      · exact absurd rfl (hstop budget g h rest rfl)

/-- A round merges as many pairs as lead down to the target, or as many as there are. -/
theorem length_mergeRound (target : Nat) (groups : List Group) :
    (mergeRound target groups).length =
      groups.length - min (groups.length - target) (groups.length / 2) := by
  have hbudget : (overlapPhase target groups).pairs.length ≤ groups.length - target :=
    length_pairs_pairOverlapping_le _ _
  have hpairs : (neighbourPhase target groups).pairs.length =
      min (groups.length - target - (overlapPhase target groups).pairs.length)
        ((overlapPhase target groups).alone.length / 2) :=
    length_pairs_pairNeighbours _ _
  have hfirst : (overlapPhase target groups).members.length = (numbered groups).length :=
    (members_pairOverlapping _ _).length_eq
  have hall := (members_roundPairing target groups).length_eq
  rw [length_members] at hfirst hall
  rw [numbered, List.length_mapIdx] at hfirst hall
  rw [roundPairing, List.length_append] at hall
  rw [mergeRound_eq, length_groups, roundPairing, List.length_append]
  dsimp only at hall ⊢
  omega

theorem length_mergeRound_of_lt {target : Nat} {groups : List Group}
    (h : target < groups.length) :
    (mergeRound target groups).length = max target ((groups.length + 1) / 2) := by
  rw [length_mergeRound]
  omega

end Group

namespace Packing

open CircuitTrace.Group (afterRounds mergeRound)

variable {k : Circuit}

/-- The rounds end with the number of groups that was asked for, or with all groups when these are
fewer. -/
theorem exists_length_afterRounds {ε : Type} {target : Nat} (htarget : 0 < target) (round : Nat)
    (groups : List Group) : ∃ rounds,
      (∀ i < rounds, target < (afterRounds target groups i).length) ∧
      (afterRounds target groups rounds).length = min groups.length target ∧
      (mergeGroups target round groups : Logged ε (List Group)).outcome =
        .ok (afterRounds target groups rounds) := by
  obtain ⟨rounds, hmany, hdone, hmerge⟩ := exists_afterRounds (ε := ε) target round groups
  have hfew : (afterRounds target groups rounds).length ≤ target := by
    by_contra hlt
    have hlength := Group.length_mergeRound_of_lt (Nat.lt_of_not_le hlt)
    rw [Group.afterRounds_succ] at hdone
    omega
  refine ⟨rounds, hmany, ?_, congrArg Logged.outcome hmerge⟩
  cases rounds with
  | zero =>
    change groups.length = _
    change groups.length ≤ target at hfew
    omega
  | succ rounds =>
    -- The last round did not go below the target.
    have hlength := Group.length_mergeRound_of_lt (hmany rounds (Nat.lt_succ_self _))
    have hgroups : target < groups.length := hmany 0 (Nat.succ_pos _)
    rw [Group.afterRounds_succ] at hfew ⊢
    omega

/-- The rows of a packing are those of the chain, filled up to two. -/
theorem rowCount_ofCircuit {ε : Type} {config : PackingConfig} {groups : List Group}
    (h : (mergeGroups (config.groupsFor k.constraints.length) 1 (Group.singletons k) :
      Logged ε (List Group)).outcome = .ok groups) : ∃ packing,
      (ofCircuit k config : Logged ε Packing).outcome = .ok packing ∧
        packing.rowCount = max 2 groups.length := by
  have hchain := (Group.chain_perm groups).length_eq
  refine ⟨_, outcome_ofCircuit h, ?_⟩
  rw [rowCount, ofChain, List.length_map, List.length_append, List.length_replicate, hchain]
  omega

/-- A round goes down to its target or halves the number of groups, and a chain has the groups that
it is made of. So merging the constraints of any circuit ends, with as many groups as were asked
for, and on the way as in the chain every constraint stands in one group, whose wires are those of
its constraints. -/
theorem merging_reaches_target :
    (∀ (target : Nat) (groups : List Group), 2 ≤ target → target < groups.length →
      (mergeRound target groups).length = max target ((groups.length + 1) / 2)) ∧
    (∀ groups : List Group, (Group.chain groups).Perm groups) ∧
    ∀ (ε : Type) (k : Circuit) (config : PackingConfig), ∃ rounds packing,
      let target := config.groupsFor k.constraints.length
      let groups := afterRounds target (Group.singletons k)
      (∀ i < rounds, target < (groups i).length) ∧ (groups rounds).length ≤ target ∧
      (mergeGroups target 1 (groups 0) : Logged ε (List Group)).outcome = .ok (groups rounds) ∧
      (∀ i ≤ rounds, Covers k (groups i)) ∧ Covers k (Group.chain (groups rounds)) ∧
      (ofCircuit k config : Logged ε Packing).outcome = .ok packing ∧
      packing.rowCount = max 2 (min k.constraints.length target) := by
  refine ⟨fun _ _ _ => Group.length_mergeRound_of_lt, Group.chain_perm, ?_⟩
  intro ε k config
  have htarget : 0 < config.groupsFor k.constraints.length := by
    rw [PackingConfig.groupsFor]
    omega
  obtain ⟨rounds, hmore, hlength, houtcome⟩ :=
    exists_length_afterRounds (ε := ε) htarget 1 (Group.singletons k)
  have hcount : (Group.singletons k).length = k.constraints.length := by simp [Group.singletons]
  obtain ⟨packing, hpacking, hrows⟩ := rowCount_ofCircuit houtcome
  have hcovers := covers_afterRounds k (config.groupsFor k.constraints.length)
  refine ⟨rounds, packing, hmore, ?_, houtcome, fun i _ => hcovers i,
    (hcovers rounds).of_perm (Group.chain_perm _), hpacking, ?_⟩
  · rw [hlength]
    exact min_le_right _ _
  · rw [hrows, hlength, hcount]

/-- Five groups without common wires go down to four, and three constraints to two rows. -/
theorem merging_reaches_target_squaredProduct :
    (mergeRound 4 ((List.range 5).map fun i => ⟨.ofList [10 * i + 1], [i]⟩)).length = 4 ∧
      ∃ packing, (ofCircuit (.squaredProduct 97) {} : Logged CompileError Packing).outcome =
        .ok packing ∧ packing.rowCount = 2 := by
  obtain ⟨hround, -, hrounds⟩ := merging_reaches_target
  obtain ⟨-, packing, -, -, -, -, -, hpacking, hrows⟩ :=
    hrounds CompileError (.squaredProduct 97) {}
  refine ⟨hround 4 _ (by decide) (by decide), packing, hpacking, ?_⟩
  rw [hrows]
  decide +kernel

end Packing

end CircuitTrace
