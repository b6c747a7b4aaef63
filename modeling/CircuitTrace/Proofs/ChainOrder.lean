import CircuitTrace.Proofs.Grouping

/-!
In which order a chain takes its groups. Each attachment shares the greatest number of wires, over
all remaining groups and both ends of the chain. Ties go to the group that comes first, and only for
one and the same group to the place behind the chain: so an early group in front of the chain is
taken before a later one behind it.
-/
namespace CircuitTrace.Group

variable {first last g : Group} {remaining : List Group} {a : Attachment}

/-- The wires that a group shares with the front of a chain, or else with its other end. -/
def endOverlap (first last : Group) (front : Bool) (g : Group) : Nat :=
  if front then first.overlap g else last.overlap g

theorem overlap_attachment (first last g : Group) (i : Nat) :
    (attachment first last g i).overlap =
      endOverlap first last (attachment first last g i).front g := by
  rw [attachment]
  split <;> rfl

/-- A group takes the better end, on ties the place behind the chain. -/
theorem endOverlap_le_attachment (first last g : Group) (i : Nat) (side : Bool) :
    endOverlap first last side g < (attachment first last g i).overlap ∨
      endOverlap first last side g = (attachment first last g i).overlap ∧
        (attachment first last g i).front ≤ side := by
  rw [attachment]
  split
  · cases side <;> simp [endOverlap, *]
  · cases side
    · simp [endOverlap]
    · simp only [endOverlap, if_true, Bool.false_le, and_true]
      omega

/-- An attachment that no other is better than: none shares more wires, and of those that share as
many none is of an earlier group, or of the same group at the other end if that is the end of the
chain. -/
structure Attachment.Best (first last : Group) (remaining : List Group) (a : Attachment) :
    Prop where
  index_lt : a.index < remaining.length
  overlap_eq : a.overlap = endOverlap first last a.front remaining[a.index]
  best : ∀ j (hj : j < remaining.length) side,
    endOverlap first last side remaining[j] < a.overlap ∨
      endOverlap first last side remaining[j] = a.overlap ∧
        (a.index < j ∨ a.index = j ∧ a.front ≤ side)

/-- One pass finds the best attachment. -/
theorem best_bestAttachment (h : bestAttachment first last remaining = some a) :
    a.Best first last remaining := by
  induction remaining using List.reverseRecOn generalizing a with
  | nil => cases h
  | append_singleton l g ih =>
    rw [bestAttachment_append_singleton] at h
    have hbest := endOverlap_le_attachment first last g l.length
    cases hb : bestAttachment first last l with
    | none =>
      obtain rfl := bestAttachment_eq_none hb
      obtain rfl : attachment first last g 0 = a := by simpa [hb, better] using h
      refine ⟨by simp, by simp [overlap_attachment], ?_⟩
      intro j hj side
      obtain rfl : j = 0 := by simpa using hj
      simpa using hbest side
    | some b =>
      obtain ⟨hindex, hoverlap, hall⟩ := ih hb
      by_cases hless : b.overlap < (attachment first last g l.length).overlap
      · obtain rfl : attachment first last g l.length = a := by simpa [hb, better, hless] using h
        refine ⟨by simp, by simp [overlap_attachment], ?_⟩
        intro j hj side
        by_cases hjl : j < l.length
        · rw [List.getElem_append_left hjl]
          have := hall j hjl side
          omega
        · obtain rfl : j = l.length := by
            rw [List.length_append, List.length_singleton] at hj
            omega
          simpa using hbest side
      · obtain rfl : b = a := by simpa [hb, better, hless] using h
        refine ⟨by rw [List.length_append]; omega, ?_, ?_⟩
        · rw [List.getElem_append_left hindex]
          exact hoverlap
        · intro j hj side
          by_cases hjl : j < l.length
          · rw [List.getElem_append_left hjl]
            exact hall j hjl side
          · obtain rfl : j = l.length := by
              rw [List.length_append, List.length_singleton] at hj
              omega
            rw [List.getElem_concat_length rfl]
            have := hbest side
            omega

/-- A chain that is being built and the groups that it still has to take, all with their places in
the list that is ordered. -/
structure Chaining where
  chain : List Numbered
  remaining : List Numbered
  deriving DecidableEq

namespace Chaining

variable {s t : Chaining} {front : Bool} {g : Numbered}

/-- The first group is the chain to begin with. -/
def opening (groups : List Group) : Chaining where
  chain := (groups.mapIdx fun i g => (i, g)).take 1
  remaining := (groups.mapIdx fun i g => (i, g)).drop 1

/-- The wires that a group shares with the front of the chain, or else with its other end. -/
def overlap (s : Chaining) (front : Bool) (g : Numbered) : Nat :=
  endOverlap ((s.chain.map Prod.snd).head?.getD empty) ((s.chain.map Prod.snd).getLast?.getD empty)
    front g.2

def attach (s : Chaining) (front : Bool) (g : Numbered) : Chaining where
  chain := if front then g :: s.chain else s.chain ++ [g]
  remaining := s.remaining.erase g

/-- An end of a chain with a group, and whether it goes before another on ties. -/
abbrev Ties := Bool × Numbered → Bool × Numbered → Prop

/-- The group that comes first, and for one group the end of the chain before its front. -/
def groupFirst : Ties := fun x y => x.2.1 < y.2.1 ∨ x.2.1 = y.2.1 ∧ x.1 ≤ y.1

/-- The end of the chain before its front, and at one end the group that comes first. -/
def endFirst : Ties := fun x y => x.1 < y.1 ∨ x.1 = y.1 ∧ x.2.1 ≤ y.2.1

instance : DecidableRel groupFirst := fun _ _ => inferInstanceAs (Decidable (_ ∨ _))

instance : DecidableRel endFirst := fun _ _ => inferInstanceAs (Decidable (_ ∨ _))

/-- An end and a remaining group that share the greatest number of wires and go first on ties. -/
def Best (ties : Ties) (s : Chaining) (front : Bool) (g : Numbered) : Prop :=
  g ∈ s.remaining ∧ ∀ h ∈ s.remaining, ∀ side, s.overlap side h < s.overlap front g ∨
    s.overlap side h = s.overlap front g ∧ ties (front, g) (side, h)

instance (ties : Ties) [DecidableRel ties] (s : Chaining) (front : Bool) (g : Numbered) :
    Decidable (s.Best ties front g) := inferInstanceAs (Decidable (_ ∧ _))

/-- One attachment, for a way to break ties. -/
inductive Next (ties : Ties) : Chaining → Chaining → Prop
  | attach {s : Chaining} {front : Bool} {g : Numbered} (h : s.Best ties front g) :
    Next ties s (s.attach front g)

/-- Some attachments. -/
abbrev Reaches (ties : Ties) : Chaining → Chaining → Prop := Relation.ReflTransGen (Next ties)

/-- Groups are put into an order by attaching all of them. -/
def Orders (ties : Ties) (groups : List Group) (result : List Numbered) : Prop :=
  Reaches ties (opening groups) ⟨result, []⟩

/-- The places of the remaining groups are ascending. -/
def Ascending (s : Chaining) : Prop := s.remaining.Pairwise (·.1 < ·.1)

theorem ascending_opening (groups : List Group) : (opening groups).Ascending := by
  have hall : (groups.mapIdx fun i g => (i, g)).Pairwise (·.1 < ·.1) := by
    rw [List.pairwise_iff_getElem]
    intro i j hi hj hij
    simpa using hij
  exact hall.sublist (List.drop_sublist 1 _)

theorem Ascending.attach (h : s.Ascending) (front : Bool) (g : Numbered) :
    (s.attach front g).Ascending := h.sublist List.erase_sublist

/-- A group is known by its place. -/
theorem Ascending.eq_of_fst_eq (h : s.Ascending) {x y : Numbered} (hx : x ∈ s.remaining)
    (hy : y ∈ s.remaining) (heq : x.1 = y.1) : x = y := by
  obtain ⟨i, hi, rfl⟩ := List.getElem_of_mem hx
  obtain ⟨j, hj, rfl⟩ := List.getElem_of_mem hy
  have hlt := List.pairwise_iff_getElem.1 h
  rcases lt_trichotomy i j with hij | rfl | hji
  · exact absurd heq (hlt i j hi hj hij).ne
  · rfl
  · exact absurd heq (hlt j i hj hi hji).ne'

theorem Ascending.nodup (h : s.Ascending) : s.remaining.Nodup := by
  apply List.Pairwise.imp _ h
  rintro x y hlt rfl
  exact lt_irrefl _ hlt

/-- The step of a chain is the best attachment, by the first group on ties. -/
theorem best_of_bestAttachment (hascending : s.Ascending) {a : Attachment}
    (h : bestAttachment ((s.chain.map Prod.snd).head?.getD empty)
      ((s.chain.map Prod.snd).getLast?.getD empty) (s.remaining.map Prod.snd) = some a) :
    ∃ hlt : a.index < s.remaining.length, s.Best groupFirst a.front s.remaining[a.index] := by
  obtain ⟨hlt, hoverlap, hbest⟩ := best_bestAttachment h
  rw [List.length_map] at hlt
  refine ⟨hlt, List.getElem_mem hlt, ?_⟩
  intro x hx side
  obtain ⟨j, hj, rfl⟩ := List.getElem_of_mem hx
  have hside := hbest j (by simpa using hj) side
  rw [List.getElem_map] at hoverlap hside
  change s.overlap side _ < _ ∨ s.overlap side _ = _ ∧ _ at hside
  change _ = s.overlap a.front _ at hoverlap
  rw [hoverlap] at hside
  rcases hside with hless | ⟨heq, hfirst | ⟨hsame, hfront⟩⟩
  · exact .inl hless
  · exact .inr ⟨heq, .inl (List.pairwise_iff_getElem.1 hascending _ _ hlt hj hfirst)⟩
  · subst hsame
    exact .inr ⟨heq, .inr ⟨rfl, hfront⟩⟩

/-- Building a chain makes the attachments that are best by the first group on ties. -/
theorem exists_reaches_extendChain (s : Chaining) (hascending : s.Ascending) :
    ∃ result, Reaches groupFirst s ⟨result, []⟩ ∧
      extendChain (s.chain.map Prod.snd) (s.remaining.map Prod.snd) = result.map Prod.snd := by
  induction hn : s.remaining.length using Nat.strong_induction_on generalizing s with
  | _ n ih =>
    rw [extendChain]
    cases h : bestAttachment ((s.chain.map Prod.snd).head?.getD empty)
        ((s.chain.map Prod.snd).getLast?.getD empty) (s.remaining.map Prod.snd) with
    | none =>
      have hnil : s.remaining = [] := List.map_eq_nil_iff.1 (bestAttachment_eq_none h)
      refine ⟨s.chain, ?_, rfl⟩
      rw [← hnil]
    | some a =>
      obtain ⟨hlt, hbest⟩ := best_of_bestAttachment hascending h
      have hmap : a.index < (s.remaining.map Prod.snd).length := by simpa using hlt
      have herase : s.remaining.erase s.remaining[a.index] = s.remaining.eraseIdx a.index :=
        hascending.nodup.erase_getElem a.index hlt
      have hshorter : (s.attach a.front s.remaining[a.index]).remaining.length < n := by
        rw [attach, herase, List.length_eraseIdx_of_lt hlt]
        omega
      obtain ⟨result, hreaches, hresult⟩ := ih _ hshorter _ (hascending.attach _ _) rfl
      refine ⟨result, .head (.attach hbest) hreaches, ?_⟩
      rw [← hresult, attach, herase, ← List.eraseIdx_map]
      simp only [hmap, dite_true, List.getElem_map]
      cases a.front <;> simp

theorem chain_eq_extendChain (groups : List Group) : Group.chain groups =
    extendChain ((opening groups).chain.map Prod.snd)
      ((opening groups).remaining.map Prod.snd) := by
  have hgroups : (groups.mapIdx fun i g => (i, g)).map Prod.snd = groups := by
    apply List.ext_getElem
    · simp
    · simp
  rw [opening, List.map_take, List.map_drop, hgroups]
  cases groups with
  | nil =>
    rw [List.take_nil, List.drop_nil, extendChain]
    rfl
  | cons g rest => rfl

/-- Of two ends with their groups only one goes before the other. -/
def Decisive (ties : Ties) : Prop :=
  ∀ x y : Bool × Numbered, ties x y → ties y x → x.1 = y.1 ∧ x.2.1 = y.2.1

theorem decisive_groupFirst : Decisive groupFirst := by
  intro x y hxy hyx
  rw [groupFirst] at hxy hyx
  have hplace : x.2.1 = y.2.1 := by omega
  rw [hplace] at hxy hyx
  refine ⟨le_antisymm ?_ ?_, hplace⟩
  · exact (hxy.resolve_left (lt_irrefl _)).2
  · exact (hyx.resolve_left (lt_irrefl _)).2

theorem decisive_endFirst : Decisive endFirst := by
  intro x y hxy hyx
  rcases hxy with hlt | ⟨heq, hle⟩
  · rcases hyx with hlt' | ⟨heq', -⟩
    · exact absurd hlt hlt'.asymm
    · exact absurd heq' hlt.ne'
  · rcases hyx with hlt' | ⟨-, hle'⟩
    · exact absurd heq hlt'.ne'
    · exact ⟨heq, le_antisymm hle hle'⟩

variable {ties : Ties}

theorem Best.unique (hdecisive : Decisive ties) (hascending : s.Ascending) {front' : Bool}
    {g' : Numbered} (h : s.Best ties front g) (h' : s.Best ties front' g') :
    front = front' ∧ g = g' := by
  obtain ⟨hmem, hbest⟩ := h
  obtain ⟨hmem', hbest'⟩ := h'
  have hxy := hbest g' hmem' front'
  have hyx := hbest' g hmem front
  obtain ⟨hfront, hplace⟩ := hdecisive (front, g) (front', g')
    (hxy.resolve_left (by omega)).2 (hyx.resolve_left (by omega)).2
  exact ⟨hfront, hascending.eq_of_fst_eq hmem hmem' hplace⟩

theorem Next.unique (hdecisive : Decisive ties) (hascending : s.Ascending) {t' : Chaining}
    (h : Next ties s t) (h' : Next ties s t') : t = t' := by
  cases h with
  | attach hbest =>
    cases h' with
    | attach hbest' =>
      obtain ⟨rfl, rfl⟩ := hbest.unique hdecisive hascending hbest'
      rfl

theorem Next.ascending (h : Next ties s t) (hascending : s.Ascending) : t.Ascending := by
  cases h with
  | attach => exact hascending.attach _ _

/-- Nothing is attached to a complete chain. -/
theorem not_next_of_remaining_eq_nil (hnil : s.remaining = []) : ¬Next ties s t := by
  rintro ⟨hmem, -⟩
  rw [hnil] at hmem
  cases hmem

theorem Reaches.unique (hdecisive : Decisive ties) (hascending : s.Ascending)
    {result result' : List Numbered} (h : Reaches ties s ⟨result, []⟩)
    (h' : Reaches ties s ⟨result', []⟩) : result = result' := by
  induction h using Relation.ReflTransGen.head_induction_on with
  | refl =>
    rcases h'.cases_head with heq | ⟨t, hnext, -⟩
    · exact congrArg chain heq
    · exact absurd hnext (not_next_of_remaining_eq_nil rfl)
  | head hnext _ ih =>
    rcases h'.cases_head with rfl | ⟨t', hnext', hreaches'⟩
    · exact absurd hnext (not_next_of_remaining_eq_nil rfl)
    · obtain rfl := hnext.unique hdecisive hascending hnext'
      exact ih (hnext.ascending hascending) hreaches'

/-- Preferring the end of the chain would take the same attachment, unless that is in front of the
chain while some group shares as many wires with its end. -/
theorem Best.endFirst_iff (h : s.Best groupFirst front g) : s.Best endFirst front g ↔
    (front = true → ∀ x ∈ s.remaining, s.overlap false x < s.overlap true g) := by
  obtain ⟨hmem, hbest⟩ := h
  constructor
  · rintro ⟨-, hend⟩ rfl x hx
    rcases hend x hx false with hless | ⟨-, hfront | ⟨hfront, -⟩⟩
    · exact hless
    · cases hfront
    · cases hfront
  · intro htail
    refine ⟨hmem, ?_⟩
    intro x hx side
    rcases hbest x hx side with hless | ⟨heq, hties⟩
    · exact .inl hless
    · have hplace : g.1 ≤ x.1 := hties.elim (fun hlt => hlt.le) fun h => h.1.le
      cases front with
      | false =>
        cases side with
        | false => exact .inr ⟨heq, .inr ⟨rfl, hplace⟩⟩
        | true => exact .inr ⟨heq, .inl Bool.false_lt_true⟩
      | true =>
        cases side with
        | false => exact .inl (htail rfl x hx)
        | true => exact .inr ⟨heq, .inr ⟨rfl, hplace⟩⟩

/-- Groups are ordered by the attachments that share most wires and on ties are of the first group,
behind the chain before in front of it. Each of them is also the one that prefers the end of the
chain to its front, unless it goes to the front while some group shares as many wires with the
end. -/
theorem chain_attaches_first_group (groups : List Group) :
    (∃ result, Orders groupFirst groups result ∧
      (∀ other, Orders groupFirst groups other → other = result) ∧
      Group.chain groups = result.map Prod.snd) ∧
    ∀ s front g, Reaches groupFirst (opening groups) s → s.Best groupFirst front g →
      (s.Best endFirst front g ↔
        (front = true → ∀ x ∈ s.remaining, s.overlap false x < s.overlap true g)) := by
  refine ⟨?_, fun s front g _ hbest => hbest.endFirst_iff⟩
  have hascending := ascending_opening groups
  obtain ⟨result, hreaches, hresult⟩ := exists_reaches_extendChain _ hascending
  refine ⟨result, hreaches, ?_, ?_⟩
  · intro other hother
    exact Reaches.unique decisive_groupFirst hascending hother hreaches
  · rw [← hresult]
    exact chain_eq_extendChain groups

/-- The first two groups share two wires; the third meets the first, and the fourth the second. -/
def crossing : List Group :=
  [⟨.ofList [1, 2, 3], [0]⟩, ⟨.ofList [1, 2, 4], [1]⟩, ⟨.ofList [3, 5], [2]⟩,
    ⟨.ofList [4, 5], [3]⟩]

/-- The third group is put in front of the first although the fourth shares as many wires with the
second at the end. -/
theorem not_orders_endFirst_crossing :
    ¬∃ result, Orders endFirst crossing result ∧ Group.chain crossing = result.map Prod.snd := by
  rintro ⟨result, horders, hchain⟩
  have hsecond : (opening crossing).Best endFirst false (1, crossing[1]) := by decide +kernel
  have hfourth : ((opening crossing).attach false (1, crossing[1])).Best endFirst false
      (3, crossing[3]) := by decide +kernel
  have hthird : (((opening crossing).attach false (1, crossing[1])).attach false
      (3, crossing[3])).Best endFirst false (2, crossing[2]) := by decide +kernel
  have hcomplete : ((((opening crossing).attach false (1, crossing[1])).attach false
      (3, crossing[3])).attach false (2, crossing[2])) =
        ⟨[(0, crossing[0]), (1, crossing[1]), (3, crossing[3]), (2, crossing[2])], []⟩ := by
    decide +kernel
  have hend : Orders endFirst crossing
      [(0, crossing[0]), (1, crossing[1]), (3, crossing[3]), (2, crossing[2])] := by
    rw [Orders, ← hcomplete]
    exact .head (.attach hsecond) (.head (.attach hfourth) (.single (.attach hthird)))
  obtain rfl := Reaches.unique decisive_endFirst (ascending_opening crossing) horders hend
  revert hchain
  decide +kernel

end Chaining

end CircuitTrace.Group
