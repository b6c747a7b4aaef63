/-!
Finite maps kept as association lists with strictly ascending keys. The order of the entries is
part of the value, so two maps with the same look-ups are equal, and whoever walks the entries
walks them in key order.

All changes go through `alter`, which visits one key and may add, replace or remove its entry.
-/
namespace CircuitTrace

universe u v w

structure SortedMap (κ : Type u) (ν : Type v) [Ord κ] where
  entries : List (κ × ν)
  ascending : entries.Pairwise fun a b => compare a.1 b.1 = .lt
  deriving DecidableEq

namespace SortedMap

variable {κ : Type u} {ν : Type v} [Ord κ]

/-- Look-up in an ascending list: the walk ends at the first key that is not below `k`. -/
def lookup (k : κ) : List (κ × ν) → Option ν
  | [] => none
  | e :: rest =>
    match compare k e.1 with
    | .lt => none
    | .eq => some e.2
    | .gt => lookup k rest

/-- Replaces what an ascending list holds at `k` by `f` of it. -/
def alterEntries (k : κ) (f : Option ν → Option ν) : List (κ × ν) → List (κ × ν)
  | [] => ((f none).map (k, ·)).toList
  | e :: rest =>
    match compare k e.1 with
    | .lt => ((f none).map (k, ·)).toList ++ e :: rest
    | .eq => ((f (some e.2)).map (e.1, ·)).toList ++ rest
    | .gt => e :: alterEntries k f rest

/-- Every key of an altered list is `k` or was there before. -/
theorem key_of_mem_alterEntries {k : κ} {f : Option ν → Option ν} {l : List (κ × ν)} {x : κ × ν}
    (h : x ∈ alterEntries k f l) : x.1 = k ∨ ∃ e ∈ l, x.1 = e.1 := by
  induction l with
  | nil =>
    cases hf : f none with
    | none => simp [alterEntries, hf] at h
    | some v => left; simp [alterEntries, hf] at h; simp [h]
  | cons e rest ih =>
    rw [alterEntries] at h
    split at h
    · cases hf : f none with
      | none => right; exact ⟨x, by simpa [hf] using h, rfl⟩
      | some v =>
        rcases List.mem_append.1 h with h | h
        · left; simp [hf] at h; simp [h]
        · right; exact ⟨x, h, rfl⟩
    · right
      rcases List.mem_append.1 h with h | h
      · refine ⟨e, by simp, ?_⟩
        cases hf : f (some e.2) with
        | none => simp [hf] at h
        | some v => simp [hf] at h; simp [h]
      · exact ⟨x, by simp [h], rfl⟩
    · rcases List.mem_cons.1 h with h | h
      · right; exact ⟨e, by simp, by rw [h]⟩
      · rcases ih h with h | ⟨y, hy, hxy⟩
        · exact .inl h
        · exact .inr ⟨y, by simp [hy], hxy⟩

theorem ascending_alterEntries [Std.TransOrd κ] (k : κ) (f : Option ν → Option ν)
    {l : List (κ × ν)} (h : l.Pairwise fun a b => compare a.1 b.1 = .lt) :
    (alterEntries k f l).Pairwise fun a b => compare a.1 b.1 = .lt := by
  induction l with
  | nil => cases hf : f none <;> simp [alterEntries, hf]
  | cons e rest ih =>
    obtain ⟨he, hrest⟩ := List.pairwise_cons.1 h
    rw [alterEntries]
    split
    · rename_i hlt
      cases f none with
      | none => exact h
      | some v =>
        refine List.pairwise_cons.2 ⟨fun y hy => ?_, h⟩
        rcases List.mem_cons.1 hy with rfl | hy
        · exact hlt
        · exact Std.TransCmp.lt_trans hlt (he y hy)
    · cases f (some e.2) with
      | none => exact hrest
      | some v => exact List.pairwise_cons.2 ⟨he, hrest⟩
    · rename_i hgt
      refine List.pairwise_cons.2 ⟨fun y hy => ?_, ih hrest⟩
      rcases key_of_mem_alterEntries hy with hk | ⟨z, hz, hk⟩
      · rw [hk]; exact Std.OrientedCmp.gt_iff_lt.1 hgt
      · rw [hk]; exact he z hz

theorem lookup_alterEntries [Std.TransOrd κ] [Std.LawfulEqOrd κ] [DecidableEq κ] (k k' : κ)
    (f : Option ν → Option ν) {l : List (κ × ν)}
    (h : l.Pairwise fun a b => compare a.1 b.1 = .lt) :
    lookup k' (alterEntries k f l) = if k' = k then f (lookup k l) else lookup k' l := by
  induction l with
  | nil =>
    by_cases hk : k' = k
    · subst hk
      cases hf : f none <;> simp [alterEntries, lookup, hf]
    · have hne : compare k' k ≠ .eq := fun he => hk (Std.LawfulEqCmp.eq_of_compare he)
      cases hf : f none with
      | none => simp [alterEntries, lookup, hf, hk]
      | some v => cases hc : compare k' k <;> simp_all [alterEntries, lookup]
  | cons e rest ih =>
    obtain ⟨he, hrest⟩ := List.pairwise_cons.1 h
    have below : ∀ x, compare x e.1 = .lt ∨ compare x e.1 = .eq → lookup x rest = none := by
      intro x hx
      cases rest with
      | nil => rfl
      | cons d rest =>
        have hd : compare x d.1 = .lt := by
          rcases hx with hx | hx
          · exact Std.TransCmp.lt_trans hx (he d (by simp))
          · rw [Std.LawfulEqCmp.eq_of_compare hx]; exact he d (by simp)
        simp [lookup, hd]
    by_cases hk : k' = k
    · subst hk
      cases hc : compare k' e.1 with
      | lt => cases hf : f none <;> simp [alterEntries, lookup, hc, hf]
      | eq => cases hf : f (some e.2) <;> simp [alterEntries, lookup, hc, hf, below k' (.inr hc)]
      | gt => simp [alterEntries, lookup, hc, ih hrest]
    · have hne : compare k' k ≠ .eq := fun hc => hk (Std.LawfulEqCmp.eq_of_compare hc)
      cases hc : compare k e.1 with
      | lt =>
        cases hf : f none with
        | none => simp [alterEntries, hc, hf, hk]
        | some v =>
          cases hc' : compare k' k with
          | lt => simp [alterEntries, lookup, hc, hf, hk, hc', Std.TransCmp.lt_trans hc' hc]
          | eq => exact absurd hc' hne
          | gt => simp [alterEntries, lookup, hc, hf, hk, hc']
      | eq =>
        have hke : compare k' e.1 ≠ .eq := by
          rw [← Std.LawfulEqCmp.eq_of_compare hc]; exact hne
        cases hf : f (some e.2) with
        | none =>
          cases hc' : compare k' e.1 with
          | lt => simp [alterEntries, lookup, hc, hf, hk, hc', below k' (.inl hc')]
          | eq => exact absurd hc' hke
          | gt => simp [alterEntries, lookup, hc, hf, hk, hc']
        | some v => cases hc' : compare k' e.1 <;> simp_all [alterEntries, lookup]
      | gt => cases hc' : compare k' e.1 <;> simp [alterEntries, lookup, hc, hc', hk, ih hrest]

/-- Ascending lists with the same look-ups are equal. -/
theorem eq_of_lookup_eq [Std.TransOrd κ] [Std.LawfulEqOrd κ] {l l' : List (κ × ν)}
    (h : l.Pairwise fun a b => compare a.1 b.1 = .lt)
    (h' : l'.Pairwise fun a b => compare a.1 b.1 = .lt)
    (hll' : ∀ k, lookup k l = lookup k l') : l = l' := by
  have below : ∀ {e : κ × ν} {l : List (κ × ν)} {x : κ}, (∀ y ∈ l, compare e.1 y.1 = .lt) →
      compare x e.1 = .lt ∨ x = e.1 → lookup x l = none := by
    intro e l x he hx
    cases l with
    | nil => rfl
    | cons d l =>
      have hd : compare x d.1 = .lt := by
        rcases hx with hx | rfl
        · exact Std.TransCmp.lt_trans hx (he d (by simp))
        · exact he d (by simp)
      simp [lookup, hd]
  induction l generalizing l' with
  | nil =>
    cases l' with
    | nil => rfl
    | cons d l' => have := hll' d.1; simp [lookup] at this
  | cons e l ih =>
    cases l' with
    | nil => have := hll' e.1; simp [lookup] at this
    | cons d l' =>
      obtain ⟨he, hl⟩ := List.pairwise_cons.1 h
      obtain ⟨hd, hl'⟩ := List.pairwise_cons.1 h'
      have hkeys : compare e.1 d.1 = .eq := by
        cases hc : compare e.1 d.1 with
        | lt => have := hll' e.1; simp [lookup, hc] at this
        | eq => rfl
        | gt =>
          have hc' : compare d.1 e.1 = .lt := Std.OrientedCmp.gt_iff_lt.1 hc
          have := hll' d.1
          simp [lookup, hc'] at this
      have hk : e.1 = d.1 := Std.LawfulEqCmp.eq_of_compare hkeys
      have hv : e.2 = d.2 := by simpa [lookup, hk] using hll' e.1
      have hed : e = d := Prod.ext hk hv
      subst hed
      congr 1
      refine ih hl hl' fun k => ?_
      have hkk := hll' k
      cases hc : compare k e.1 with
      | lt => rw [below he (.inl hc), below hd (.inl hc)]
      | eq =>
        have hke := Std.LawfulEqCmp.eq_of_compare hc
        rw [below he (.inr hke), below hd (.inr hke)]
      | gt => simpa [lookup, hc] using hkk

def empty : SortedMap κ ν := ⟨[], .nil⟩

def get? (m : SortedMap κ ν) (k : κ) : Option ν := lookup k m.entries

def contains (m : SortedMap κ ν) (k : κ) : Bool := (m.get? k).isSome

def keys (m : SortedMap κ ν) : List κ := m.entries.map (·.1)

def size (m : SortedMap κ ν) : Nat := m.entries.length

def isEmpty (m : SortedMap κ ν) : Bool := m.entries.isEmpty

/-- Replaces what the map holds at `k`, or its absence, by `f` of it. -/
def alter [Std.TransOrd κ] (m : SortedMap κ ν) (k : κ) (f : Option ν → Option ν) :
    SortedMap κ ν :=
  ⟨alterEntries k f m.entries, ascending_alterEntries k f m.ascending⟩

/-- Sets the value at `k`, whether or not there was one. -/
def insert [Std.TransOrd κ] (m : SortedMap κ ν) (k : κ) (v : ν) : SortedMap κ ν :=
  m.alter k fun _ => some v

/-- Of several pairs with one key the last counts. -/
def ofList [Std.TransOrd κ] (l : List (κ × ν)) : SortedMap κ ν :=
  l.foldl (fun m e => m.insert e.1 e.2) empty

def mapValues {μ : Type w} (f : ν → μ) (m : SortedMap κ ν) : SortedMap κ μ where
  entries := m.entries.map fun e => (e.1, f e.2)
  ascending := m.ascending.map _ fun _ _ h => h

def filter (test : κ × ν → Bool) (m : SortedMap κ ν) : SortedMap κ ν where
  entries := m.entries.filter test
  ascending := m.ascending.filter test

section Lemmas

variable [Std.TransOrd κ] [Std.LawfulEqOrd κ]

theorem ext_get? {m m' : SortedMap κ ν} (h : ∀ k, m.get? k = m'.get? k) : m = m' := by
  cases m with
  | mk l hl =>
    cases m' with
    | mk l' hl' =>
      congr
      exact eq_of_lookup_eq hl hl' h

omit [Std.TransOrd κ] [Std.LawfulEqOrd κ] in
@[simp] theorem get?_empty (k : κ) : (empty : SortedMap κ ν).get? k = none := rfl

theorem get?_alter [DecidableEq κ] (m : SortedMap κ ν) (k k' : κ) (f : Option ν → Option ν) :
    (m.alter k f).get? k' = if k' = k then f (m.get? k) else m.get? k' :=
  lookup_alterEntries k k' f m.ascending

theorem get?_insert [DecidableEq κ] (m : SortedMap κ ν) (k k' : κ) (v : ν) :
    (m.insert k v).get? k' = if k' = k then some v else m.get? k' :=
  get?_alter m k k' _

end Lemmas

end SortedMap

end CircuitTrace
