import CircuitTrace.Proofs.Grouping

/-!
Which groups a round pairs because they share wires. The groups take their turns in order, and each
that is not taken yet gets the group with which it shares most wires among all that are not taken,
the first of them on ties. Groups that had no partner in their turn have none later, so when the
groups run out before the budget no two of those left share a wire.
-/
namespace CircuitTrace

theorem SortedSet.overlap_eq_card (s t : SortedSet Nat) :
    SortedSet.overlap s t = (s.keys.toFinset ∩ t.keys.toFinset).card := by
  have hcommon : s.keys.toFinset ∩ t.keys.toFinset = (s.keys.filter t.contains).toFinset := by
    ext wire
    simp [SortedMap.mem_keys_iff]
  rw [hcommon, List.toFinset_card_of_nodup (s.keys_nodup.filter _), ← List.countP_eq_length_filter]
  rfl

namespace Group

variable {g h : Group} {l : List Numbered}

/-- No wire is in both groups. -/
def Apart (g h : Group) : Prop :=
  ∀ wire, ¬(g.wires.contains wire = true ∧ h.wires.contains wire = true)

theorem overlap_eq_zero_iff : g.overlap h = 0 ↔ g.Apart h := by
  rw [overlap, SortedSet.overlap_eq_card, Finset.card_eq_zero, Finset.eq_empty_iff_forall_notMem]
  simp [Apart, SortedMap.mem_keys_iff]

/-- A group with which another shares most wires and at least one, the first on ties. -/
structure BestPartner (g : Group) (others : List Numbered) (h : Numbered) : Prop where
  mem : h ∈ others
  shares : 0 < g.overlap h.2
  best : ∀ x ∈ others, g.overlap x.2 < g.overlap h.2 ∨
    g.overlap x.2 = g.overlap h.2 ∧ h.1 ≤ x.1

theorem overlap_le_bestPartner (g : Group) (l : List Numbered) :
    ∀ x ∈ l, g.overlap x.2 ≤ g.partnerOverlap (bestPartner g l) := by
  induction l using List.reverseRecOn with
  | nil => simp
  | append_singleton l d ih =>
    rw [bestPartner_append_singleton, betterPartner]
    intro x hx
    split
    · rename_i hless
      change g.overlap x.2 ≤ g.overlap d.2
      rcases List.mem_append.1 hx with hx | hx
      · exact (ih x hx).trans hless.le
      · rw [List.mem_singleton.1 hx]
    · rename_i hless
      rcases List.mem_append.1 hx with hx | hx
      · exact ih x hx
      · rw [List.mem_singleton.1 hx]
        exact Nat.le_of_not_lt hless

theorem bestPartner_eq_none (hnone : bestPartner g l = none) : ∀ x ∈ l, g.Apart x.2 := by
  intro x hx
  have hle := overlap_le_bestPartner g l x hx
  rw [hnone] at hle
  exact overlap_eq_zero_iff.1 (Nat.le_zero.1 hle)

theorem bestPartner_eq_some (hl : l.Pairwise (·.1 < ·.1)) {h : Numbered}
    (hsome : bestPartner g l = some h) : BestPartner g l h := by
  induction l using List.reverseRecOn with
  | nil => cases hsome
  | append_singleton l d ih =>
    obtain ⟨hl, -, hlast⟩ := List.pairwise_append.1 hl
    rw [bestPartner_append_singleton, betterPartner] at hsome
    split at hsome
    · rename_i hless
      obtain rfl := Option.some.inj hsome
      refine ⟨by simp, by omega, ?_⟩
      intro x hx
      rcases List.mem_append.1 hx with hx | hx
      · exact .inl ((overlap_le_bestPartner g l x hx).trans_lt hless)
      · rw [List.mem_singleton.1 hx]
        exact .inr ⟨rfl, le_rfl⟩
    · rename_i hless
      obtain ⟨hmem, hshares, hbest⟩ := ih hl hsome
      rw [hsome] at hless
      change ¬g.overlap h.2 < g.overlap d.2 at hless
      refine ⟨List.mem_append_left _ hmem, hshares, ?_⟩
      intro x hx
      rcases List.mem_append.1 hx with hx | hx
      · exact hbest x hx
      · -- The last group comes behind the one that was found.
        rw [List.mem_singleton.1 hx]
        have hlater := hlast h hmem d (List.mem_singleton_self d)
        omega

/-- The groups that no pair has taken. -/
def unpaired (all : List Numbered) (pairs : List (Numbered × Numbered)) : List Numbered :=
  all.filter fun x => ∀ y ∈ pairs, x ≠ y.1 ∧ x ≠ y.2

/-- Pairs of groups that share wires, formed in turn within a budget. -/
structure Greedy (all : List Numbered) (budget : Nat) (r : Pairing) : Prop where
  within : r.pairs.length ≤ budget
  turns : (r.pairs.map Prod.fst).Sublist all
  alone : r.alone = unpaired all r.pairs
  best : ∀ before g h after, r.pairs = before ++ (g, h) :: after →
    g ∈ unpaired all before ∧ g.1 < h.1 ∧ BestPartner g.2 ((unpaired all before).erase g) h
  exhausted : r.pairs.length < budget → r.alone.Pairwise fun g h => g.2.Apart h.2

theorem length_pairs_pairOverlapping_le (budget : Nat) (l : List Numbered) :
    (pairOverlapping budget l).pairs.length ≤ budget := by
  fun_induction pairOverlapping budget l with
  | case1 => exact Nat.zero_le _
  | case2 => exact Nat.zero_le _
  | case3 budget g rest hbudget h hbest r ih =>
    have ih : r.pairs.length ≤ budget - 1 := ih
    rw [List.length_cons]
    omega
  | case4 budget g rest hbudget hnone r ih => exact ih

theorem mem_of_mem_pairs {budget : Nat} {y : Numbered × Numbered}
    (h : y ∈ (pairOverlapping budget l).pairs) : y.1 ∈ l ∧ y.2 ∈ l := by
  have hperm := members_pairOverlapping budget l
  have hmem (x : Numbered) (hx : x ∈ [y.1, y.2]) : x ∈ l :=
    hperm.mem_iff.1 (List.mem_append_left _ (List.mem_flatMap.2 ⟨y, h, hx⟩))
  exact ⟨hmem y.1 (by simp), hmem y.2 (by simp)⟩

theorem turns_pairOverlapping (budget : Nat) (l : List Numbered) :
    ((pairOverlapping budget l).pairs.map Prod.fst).Sublist l := by
  fun_induction pairOverlapping budget l with
  | case1 => exact .slnil
  | case2 => exact List.nil_sublist _
  | case3 budget g rest hbudget h hbest r ih => exact (ih.trans List.erase_sublist).cons_cons g
  | case4 budget g rest hbudget hnone r ih => exact ih.cons g

section Unpaired

variable {g h : Numbered} {rest : List Numbered} {pairs : List (Numbered × Numbered)}

@[simp] theorem unpaired_nil (all : List Numbered) : unpaired all [] = all := by
  simp [unpaired]

/-- A group that is passed over stays unpaired. -/
theorem unpaired_cons_of_ne (hg : ∀ y ∈ pairs, g ≠ y.1 ∧ g ≠ y.2) :
    unpaired (g :: rest) pairs = g :: unpaired rest pairs :=
  List.filter_cons_of_pos (by simpa using hg)

/-- Behind the first pair the others are taken from what it leaves. -/
theorem unpaired_cons_cons (hnodup : (g :: rest).Nodup) :
    unpaired (g :: rest) ((g, h) :: pairs) = unpaired (rest.erase h) pairs := by
  obtain ⟨hg, hrest⟩ := List.nodup_cons.1 hnodup
  rw [unpaired, List.filter_cons_of_neg (by simp), unpaired, hrest.erase_eq_filter,
    List.filter_filter]
  refine List.filter_congr fun x hx => ?_
  have hne : x ≠ g := by
    rintro rfl
    exact hg hx
  rw [Bool.eq_iff_iff, decide_eq_true_iff, List.forall_mem_cons, Bool.and_eq_true,
    decide_eq_true_iff, bne_iff_ne, and_comm]
  exact and_congr_right fun _ => and_iff_right hne

end Unpaired

section Phase

variable {budget : Nat} {g : Numbered} {rest : List Numbered}

/-- A group that is passed over is in no pair of those behind it. -/
theorem ne_of_mem_pairs (budget : Nat) (hg : g ∉ rest) :
    ∀ y ∈ (pairOverlapping budget rest).pairs, g ≠ y.1 ∧ g ≠ y.2 := by
  intro y hy
  obtain ⟨hfirst, hsecond⟩ := mem_of_mem_pairs hy
  refine ⟨?_, ?_⟩
  · rintro rfl
    exact hg hfirst
  · rintro rfl
    exact hg hsecond

theorem alone_pairOverlapping (budget : Nat) (hl : l.Nodup) :
    (pairOverlapping budget l).alone = unpaired l (pairOverlapping budget l).pairs := by
  fun_induction pairOverlapping budget l with
  | case1 => rfl
  | case2 => exact (unpaired_nil _).symm
  | case3 budget g rest hbudget h hbest r ih =>
    rw [unpaired_cons_cons hl]
    exact ih ((List.nodup_cons.1 hl).2.erase h)
  | case4 budget g rest hbudget hnone r ih =>
    obtain ⟨hg, hrest⟩ := List.nodup_cons.1 hl
    rw [unpaired_cons_of_ne (ne_of_mem_pairs budget hg)]
    exact congrArg (g :: ·) (ih hrest)

/-- Adding a group that shares no wire leaves the best partner what it was. -/
theorem BestPartner.cons {g : Group} {others : List Numbered} {h x : Numbered}
    (hbest : BestPartner g others h) (hx : g.Apart x.2) : BestPartner g (x :: others) h where
  mem := List.mem_cons_of_mem x hbest.mem
  shares := hbest.shares
  best := by
    rw [List.forall_mem_cons]
    refine ⟨.inl ?_, hbest.best⟩
    rw [overlap_eq_zero_iff.2 hx]
    exact hbest.shares

theorem Apart.symm {g h : Group} (hgh : g.Apart h) : h.Apart g :=
  fun wire hboth => hgh wire hboth.symm

/-- Each pair takes the best partner among all groups that are not taken. Those passed over before
share no wire with any group that was free in their turn, so they do not count. -/
theorem best_pairOverlapping (hl : l.Pairwise (·.1 < ·.1))
    {before after : List (Numbered × Numbered)}
    {g h : Numbered} (hpairs : (pairOverlapping budget l).pairs = before ++ (g, h) :: after) :
    g ∈ unpaired l before ∧ g.1 < h.1 ∧
      BestPartner g.2 ((unpaired l before).erase g) h := by
  fun_induction pairOverlapping budget l generalizing before with
  | case1 => simp at hpairs
  | case2 => simp at hpairs
  | case3 budget d rest hbudget e hbest r ih =>
    obtain ⟨hd, hrest⟩ := List.pairwise_cons.1 hl
    have hnodup : (d :: rest).Nodup := hl.imp fun hlt => by rintro rfl; exact lt_irrefl _ hlt
    cases before with
    | nil =>
      obtain ⟨heq, -⟩ := List.cons.inj hpairs
      obtain ⟨rfl, rfl⟩ := Prod.mk.inj heq
      have hpartner := bestPartner_eq_some hrest hbest
      rw [unpaired_nil, List.erase_cons_head]
      exact ⟨List.mem_cons_self, hd _ hpartner.mem, hpartner⟩
    | cons y before =>
      obtain ⟨rfl, htail⟩ := List.cons.inj hpairs
      rw [unpaired_cons_cons hnodup]
      exact ih (hrest.sublist List.erase_sublist) htail
  | case4 budget d rest hbudget hnone r ih =>
    obtain ⟨hd, hrest⟩ := List.pairwise_cons.1 hl
    have hapart := bestPartner_eq_none hnone
    have hmem : d ∉ rest := fun hmem => lt_irrefl _ (hd d hmem)
    have hpairs : (pairOverlapping budget rest).pairs = before ++ (g, h) :: after := hpairs
    have hbefore : ∀ y ∈ before, d ≠ y.1 ∧ d ≠ y.2 := fun y hy =>
      ne_of_mem_pairs budget hmem y (hpairs ▸ List.mem_append_left _ hy)
    have hg : g ∈ rest := (mem_of_mem_pairs (hpairs ▸ List.mem_append_right _ List.mem_cons_self)).1
    have hdg : d ≠ g := by
      rintro rfl
      exact hmem hg
    obtain ⟨hfree, hlt, hpartner⟩ := ih hrest hpairs
    rw [unpaired_cons_of_ne hbefore, List.erase_cons_tail (by simpa using hdg)]
    exact ⟨List.mem_cons_of_mem d hfree, hlt, hpartner.cons (hapart g hg).symm⟩

/-- Within the budget every group has had its turn. -/
theorem apart_pairOverlapping (hless : (pairOverlapping budget l).pairs.length < budget) :
    (pairOverlapping budget l).alone.Pairwise fun g h => g.2.Apart h.2 := by
  fun_induction pairOverlapping budget l with
  | case1 => exact .nil
  | case2 => exact absurd hless (Nat.not_lt_zero _)
  | case3 budget g rest hbudget h hbest r ih =>
    have hless : r.pairs.length + 1 < budget := hless
    exact ih (by change r.pairs.length < budget - 1; omega)
  | case4 budget g rest hbudget hnone r ih =>
    have hperm := members_pairOverlapping budget rest
    refine List.pairwise_cons.2 ⟨fun x hx => ?_, ih hless⟩
    exact bestPartner_eq_none hnone x (hperm.mem_iff.1 (List.mem_append_right _ hx))

end Phase

theorem greedy_pairOverlapping (hl : l.Pairwise (·.1 < ·.1)) (budget : Nat) :
    Greedy l budget (pairOverlapping budget l) where
  within := length_pairs_pairOverlapping_le budget l
  turns := turns_pairOverlapping budget l
  alone := alone_pairOverlapping budget (hl.imp fun hlt => by rintro rfl; exact lt_irrefl _ hlt)
  best _ _ _ _ hpairs := best_pairOverlapping hl hpairs
  exhausted := apart_pairOverlapping

/-- The first part of a round is greedy, and the second pairs neighbours among the groups that it
leaves alone. -/
theorem greedy_overlapPhase (target : Nat) (groups : List Group) :
    Greedy (numbered groups) (groups.length - target) (overlapPhase target groups) ∧
      mergeRound target groups = Pairing.groups
        ⟨(overlapPhase target groups).pairs ++ (neighbourPhase target groups).pairs,
          (neighbourPhase target groups).alone⟩ := by
  have hascending : (numbered groups).Pairwise (·.1 < ·.1) := by
    rw [numbered, List.pairwise_iff_getElem]
    intro i j hi hj hij
    simpa using hij
  exact ⟨greedy_pairOverlapping hascending _, mergeRound_eq target groups⟩

example : (overlapPhase 2 [⟨.ofList [1, 2], [0]⟩, ⟨.ofList [5, 6], [1]⟩, ⟨.ofList [2, 3], [2]⟩,
    ⟨.ofList [1, 6], [3]⟩]).pairs.map (fun x => (x.1.1, x.2.1)) = [(0, 2), (1, 3)] := by
  decide +kernel

end Group

end CircuitTrace
