import CircuitTrace.Packing
import CircuitTrace.Proofs.Inversion
import CircuitTrace.Proofs.SortedMap

/-!
Merging and ordering groups only rearranges them: no group is lost, and none is used twice. So
whatever holds of single constraints and survives a merge holds of every group of a packing.
-/
namespace CircuitTrace

namespace Group

/-- The wires that a group shares with the partner that was found, if any. -/
def partnerOverlap (g : Group) (best : Option Numbered) : Nat :=
  (best.map fun b => g.overlap b.2).getD 0

/-- The better of the partner that was found and one more group. -/
def betterPartner (g : Group) (best : Option Numbered) (h : Numbered) : Option Numbered :=
  if g.partnerOverlap best < g.overlap h.2 then some h else best

theorem bestPartner_append_singleton (g : Group) (l : List Numbered) (h : Numbered) :
    bestPartner g (l ++ [h]) = betterPartner g (bestPartner g l) h := by
  rw [bestPartner, List.foldl_append]
  rfl

theorem mem_of_bestPartner {g : Group} {l : List Numbered} {x : Numbered}
    (h : bestPartner g l = some x) : x ∈ l := by
  induction l using List.reverseRecOn with
  | nil => cases h
  | append_singleton l d ih =>
    rw [bestPartner_append_singleton, betterPartner] at h
    split at h
    · rw [Option.some.inj h]
      exact List.mem_append_right l (List.mem_singleton_self x)
    · exact List.mem_append_left _ (ih h)

/-- The groups of a pairing, each once. -/
def Pairing.members (r : Pairing) : List Numbered :=
  r.pairs.flatMap (fun x => [x.1, x.2]) ++ r.alone

theorem members_pairOverlapping (budget : Nat) (l : List Numbered) :
    (pairOverlapping budget l).members.Perm l := by
  fun_induction pairOverlapping budget l with
  | case1 => exact .refl _
  | case2 => exact .refl _
  | case3 budget g rest _ h hbest r ih =>
    have hmem := mem_of_bestPartner hbest
    change (g :: h :: r.members).Perm _
    exact ((ih.cons h).trans (List.perm_cons_erase hmem).symm).cons g
  | case4 budget g rest _ _ r ih =>
    change (r.pairs.flatMap (fun x => [x.1, x.2]) ++ g :: r.alone).Perm _
    exact List.perm_middle.trans (ih.cons g)

theorem members_pairNeighbours (budget : Nat) (l : List Numbered) :
    (pairNeighbours budget l).members.Perm l := by
  fun_induction pairNeighbours budget l with
  | case1 budget g h rest r ih =>
    change (g :: h :: r.members).Perm _
    exact (ih.cons h).cons g
  | case2 => exact .refl _

theorem mem_groups {r : Pairing} {g : Group} :
    g ∈ r.groups ↔ (∃ x ∈ r.pairs, g = x.1.2.merge x.2.2) ∨ ∃ x ∈ r.alone, g = x.2 := by
  simp only [Pairing.groups, List.mem_map, List.mem_mergeSort, List.mem_append]
  constructor
  · rintro ⟨y, ⟨x, hx, rfl⟩ | hy, rfl⟩
    · exact .inl ⟨x, hx, rfl⟩
    · exact .inr ⟨y, hy, rfl⟩
  · rintro (⟨x, hx, rfl⟩ | ⟨x, hx, rfl⟩)
    · exact ⟨_, .inl ⟨x, hx, rfl⟩, rfl⟩
    · exact ⟨x, .inr hx, rfl⟩

/-- The groups of a round with their places. -/
def numbered (groups : List Group) : List Numbered := groups.mapIdx fun i g => (i, g)

/-- The first part of a round, which pairs groups that share wires. -/
def overlapPhase (target : Nat) (groups : List Group) : Pairing :=
  pairOverlapping (groups.length - target) (numbered groups)

/-- The second part of a round, which pairs groups that the first leaves alone. -/
def neighbourPhase (target : Nat) (groups : List Group) : Pairing :=
  pairNeighbours (groups.length - target - (overlapPhase target groups).pairs.length)
    (overlapPhase target groups).alone

/-- The pairs of both parts. -/
def roundPairing (target : Nat) (groups : List Group) : Pairing :=
  ⟨(overlapPhase target groups).pairs ++ (neighbourPhase target groups).pairs,
    (neighbourPhase target groups).alone⟩

theorem mergeRound_eq (target : Nat) (groups : List Group) :
    mergeRound target groups = (roundPairing target groups).groups := rfl

/-- A round makes the groups of a pairing of all groups. -/
theorem members_roundPairing (target : Nat) (groups : List Group) :
    (roundPairing target groups).members.Perm (numbered groups) := by
  have hfirst : (overlapPhase target groups).members.Perm _ := members_pairOverlapping _ _
  have hsecond : (neighbourPhase target groups).members.Perm _ := members_pairNeighbours _ _
  refine List.Perm.trans ?_ hfirst
  simp only [roundPairing, Pairing.members, List.flatMap_append, List.append_assoc]
  exact hsecond.append_left _

/-- The groups of a pairing have the constraints of its members. -/
theorem constraints_groups (r : Pairing) :
    (r.groups.flatMap Group.constraints).Perm (r.members.flatMap fun x => x.2.constraints) := by
  have hpairs (l : List (Numbered × Numbered)) :
      (l.flatMap fun x => (x.1.2.merge x.2.2).constraints) =
        (l.flatMap fun x => [x.1, x.2]).flatMap fun x => x.2.constraints := by
    rw [List.flatMap_assoc]
    simp [merge]
  rw [Pairing.groups, List.flatMap_map]
  refine ((List.mergeSort_perm _ _).flatMap_right _).trans ?_
  rw [List.flatMap_append, List.flatMap_map, Pairing.members, List.flatMap_append]
  exact .of_eq (congrArg (· ++ _) (hpairs r.pairs))

theorem constraints_mergeRound (target : Nat) (groups : List Group) :
    ((mergeRound target groups).flatMap Group.constraints).Perm
      (groups.flatMap Group.constraints) := by
  rw [mergeRound_eq]
  have hmembers := members_roundPairing target groups
  refine (constraints_groups _).trans ((hmembers.flatMap_right _).trans (.of_eq ?_))
  rw [numbered, List.mapIdx_eq_zipIdx_map, List.flatMap_map]
  conv_rhs => rw [← List.zipIdx_map_fst 0 groups, List.flatMap_map]

section Invariant

variable {P : Group → Prop}

/-- What merging preserves, a pairing preserves. -/
theorem forall_groups (hmerge : ∀ g h, P g → P h → P (g.merge h)) {r : Pairing}
    (hr : ∀ x ∈ r.members, P x.2) : ∀ g ∈ r.groups, P g := by
  intro g hg
  rcases mem_groups.1 hg with ⟨x, hx, rfl⟩ | ⟨x, hx, rfl⟩
  · have hmem (y : Numbered) (hy : y ∈ [x.1, x.2]) : y ∈ r.members :=
      List.mem_append_left _ (List.mem_flatMap.2 ⟨x, hx, hy⟩)
    exact hmerge _ _ (hr _ (hmem x.1 (by simp))) (hr _ (hmem x.2 (by simp)))
  · exact hr x (List.mem_append_right _ hx)

theorem forall_mergeRound (hmerge : ∀ g h, P g → P h → P (g.merge h)) (target : Nat)
    {groups : List Group} (h : ∀ g ∈ groups, P g) : ∀ g ∈ mergeRound target groups, P g := by
  rw [mergeRound_eq]
  apply forall_groups hmerge
  intro x hx
  obtain ⟨i, hi, rfl⟩ := List.mem_mapIdx.1 ((members_roundPairing target groups).mem_iff.1 hx)
  exact h _ (List.getElem_mem hi)

end Invariant

/-- The groups behind a number of rounds. -/
def afterRounds (target : Nat) (groups : List Group) (rounds : Nat) : List Group :=
  (mergeRound target)^[rounds] groups

theorem afterRounds_succ (target : Nat) (groups : List Group) (rounds : Nat) :
    afterRounds target groups (rounds + 1) =
      mergeRound target (afterRounds target groups rounds) :=
  Function.iterate_succ_apply' _ _ _

theorem constraints_afterRounds (target : Nat) (groups : List Group) (rounds : Nat) :
    ((afterRounds target groups rounds).flatMap Group.constraints).Perm
      (groups.flatMap Group.constraints) := by
  induction rounds with
  | zero => exact .refl _
  | succ rounds ih =>
    rw [afterRounds_succ]
    exact (constraints_mergeRound target _).trans ih

theorem forall_afterRounds {P : Group → Prop} (hmerge : ∀ g h, P g → P h → P (g.merge h))
    (target : Nat) {groups : List Group} (h : ∀ g ∈ groups, P g) (rounds : Nat) :
    ∀ g ∈ afterRounds target groups rounds, P g := by
  induction rounds with
  | zero => exact h
  | succ rounds ih =>
    rw [afterRounds_succ]
    exact forall_mergeRound hmerge target ih

@[simp] theorem index_attachment (first last g : Group) (i : Nat) :
    (attachment first last g i).index = i := by
  rw [attachment]
  split <;> rfl

/-- The better of an attachment and that of one more group. -/
def better (first last : Group) (best : Option Attachment) (g : Group × Nat) : Option Attachment :=
  let candidate := attachment first last g.1 g.2
  match best with
  | none => some candidate
  | some b => if b.overlap < candidate.overlap then some candidate else best

theorem bestAttachment_eq (first last : Group) (remaining : List Group) :
    bestAttachment first last remaining =
      remaining.zipIdx.foldl (better first last) none := rfl

theorem better_eq_some (first last : Group) (best : Option Attachment) (g : Group × Nat) :
    better first last best g = some (attachment first last g.1 g.2) ∨
      ∃ b, best = some b ∧ better first last best g = some b := by
  cases best with
  | none => exact .inl rfl
  | some b =>
    by_cases h : b.overlap < (attachment first last g.1 g.2).overlap
    · exact .inl (by simp [better, h])
    · exact .inr ⟨b, rfl, by simp [better, h]⟩

theorem bestAttachment_append_singleton (first last : Group) (l : List Group) (g : Group) :
    bestAttachment first last (l ++ [g]) =
      better first last (bestAttachment first last l) (g, l.length) := by
  rw [bestAttachment_eq, bestAttachment_eq, List.zipIdx_append, List.foldl_append, Nat.zero_add]
  rfl

/-- While groups remain, there is a best attachment. -/
theorem bestAttachment_eq_none {first last : Group} {remaining : List Group}
    (h : bestAttachment first last remaining = none) : remaining = [] := by
  induction remaining using List.reverseRecOn with
  | nil => rfl
  | append_singleton l g =>
    rw [bestAttachment_append_singleton] at h
    rcases better_eq_some first last (bestAttachment first last l) (g, l.length) with
      hb | ⟨b, -, hb⟩
    · rw [hb] at h
      cases h
    · rw [hb] at h
      cases h

/-- The best attachment is that of a remaining group. -/
theorem bestAttachment_eq_some {first last : Group} {remaining : List Group} {a : Attachment}
    (h : bestAttachment first last remaining = some a) : a.index < remaining.length := by
  induction remaining using List.reverseRecOn with
  | nil => cases h
  | append_singleton l g ih =>
    rw [bestAttachment_append_singleton] at h
    rw [List.length_append, List.length_singleton]
    rcases better_eq_some first last (bestAttachment first last l) (g, l.length) with
      hb | ⟨b, hbest, hb⟩
    · rw [hb] at h
      rw [← Option.some.inj h, index_attachment]
      exact Nat.lt_succ_self _
    · rw [hb, ← hbest] at h
      exact Nat.lt_succ_of_lt (ih h)

/-- Ordering groups into a chain permutes them. -/
theorem extendChain_perm (chain remaining : List Group) :
    (extendChain chain remaining).Perm (chain ++ remaining) := by
  fun_induction extendChain chain remaining with
  | case1 chain remaining hnone =>
    have hnil : remaining = [] := bestAttachment_eq_none hnone
    rw [hnil, List.append_nil]
  | case2 chain remaining best hbest h g ih =>
    have hpart : (g :: remaining.eraseIdx best.index).Perm remaining :=
      List.getElem_cons_eraseIdx_perm h
    refine ih.trans ?_
    split
    · change (g :: (chain ++ remaining.eraseIdx best.index)).Perm _
      exact List.perm_middle.symm.trans (hpart.append_left chain)
    · rw [List.append_assoc]
      exact hpart.append_left chain
  | case3 chain remaining best hbest h =>
    exact absurd (bestAttachment_eq_some hbest) h

theorem chain_perm (groups : List Group) : (chain groups).Perm groups := by
  cases groups with
  | nil => exact .refl _
  | cons g rest => exact extendChain_perm [g] rest

/-- The wires of a group that comes from constraints of a circuit are wires of these. -/
def UsesOnly (S : Nat → Prop) (g : Group) : Prop := ∀ w, g.wires.contains w = true → S w

theorem usesOnly_empty {S : Nat → Prop} : empty.UsesOnly S := by
  intro w hw
  simp [empty, SortedMap.contains] at hw

theorem UsesOnly.merge {S : Nat → Prop} {g h : Group} (hg : g.UsesOnly S) (hh : h.UsesOnly S) :
    (g.merge h).UsesOnly S := by
  intro w hw
  rcases (SortedSet.contains_union g.wires h.wires w).1 hw with hw | hw
  · exact hg w hw
  · exact hh w hw

end Group

namespace Packing

open CircuitTrace.Group (afterRounds mergeRound)

/-- Rounds are made while there are more groups than wanted and a round leaves fewer. -/
theorem exists_afterRounds {ε : Type} (target round : Nat) (groups : List Group) : ∃ rounds,
    (∀ i < rounds, target < (afterRounds target groups i).length) ∧
    ¬(target < (afterRounds target groups rounds).length ∧
      (afterRounds target groups (rounds + 1)).length <
        (afterRounds target groups rounds).length) ∧
    (mergeGroups target round groups : Logged ε (List Group)) =
      ⟨(List.range rounds).map fun i =>
          .mergeRound (round + i) (afterRounds target groups (i + 1)).length,
        .ok (afterRounds target groups rounds)⟩ := by
  induction hn : groups.length using Nat.strong_induction_on generalizing round groups with
  | _ n ih =>
    rw [mergeGroups]
    by_cases hmore : target < groups.length ∧ (mergeRound target groups).length < groups.length
    · obtain ⟨rounds, hmany, hdone, hmerge⟩ :=
        ih _ (hn ▸ hmore.2) (round + 1) (mergeRound target groups) rfl
      refine ⟨rounds + 1, ?_, hdone, ?_⟩
      · intro i hi
        cases i with
        | zero => exact hmore.1
        | succ i => exact hmany i (by omega)
      · rw [dif_pos hmore, Logged.emit_bind, hmerge, List.range_succ_eq_map, List.map_cons,
          List.map_map]
        congr 2
        refine List.map_congr_left fun i _ => ?_
        change Event.mergeRound (round + 1 + i) _ = Event.mergeRound (round + (i + 1)) _
        rw [Nat.add_assoc, Nat.add_comm 1 i]
        rfl
    · refine ⟨0, by simp, hmore, ?_⟩
      rw [dif_neg hmore]
      rfl

theorem forall_mergeGroups {ε : Type} {P : Group → Prop}
    (hmerge : ∀ g h, P g → P h → P (g.merge h)) {target round : Nat} {groups result : List Group}
    (h : ∀ g ∈ groups, P g)
    (hr : (mergeGroups target round groups : Logged ε (List Group)).outcome = .ok result) :
    ∀ g ∈ result, P g := by
  obtain ⟨rounds, -, -, hrounds⟩ := exists_afterRounds (ε := ε) target round groups
  rw [hrounds] at hr
  obtain rfl := Except.ok.inj hr
  exact Group.forall_afterRounds hmerge target h rounds

end Packing

end CircuitTrace
