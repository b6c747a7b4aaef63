import Mathlib
import CircuitTrace.SortedSet

/-!
What look-ups say about the entries of a sorted map, and what a change of one entry does to sums
over all of them. `sum_alterEntries` is the law behind every polynomial operation.
-/
namespace CircuitTrace

universe u v w

namespace SortedMap

variable {κ : Type u} {ν : Type v} [Ord κ]

theorem entries_injective : Function.Injective (entries : SortedMap κ ν → List (κ × ν)) := by
  rintro ⟨l, hl⟩ ⟨l', hl'⟩ h
  cases h
  rfl

/-- Beside the entries, the value found at the key stands on either side of the equation: a key
that was absent, or that is removed, counts as zero. -/
theorem sum_alterEntries [Std.LawfulEqOrd κ] {M : Type w} [AddCommMonoid M] (F : κ × ν → M) (k : κ)
    (f : Option ν → Option ν) (l : List (κ × ν)) :
    ((alterEntries k f l).map F).sum + (lookup k l).elim 0 (fun v => F (k, v)) =
      (l.map F).sum + (f (lookup k l)).elim 0 (fun v => F (k, v)) := by
  induction l with
  | nil => cases hf : f none <;> simp [alterEntries, lookup, hf]
  | cons e rest ih =>
    cases hc : compare k e.1 with
    | lt => cases hf : f none <;> simp [alterEntries, lookup, hc, hf, add_comm]
    | eq =>
      have hk : k = e.1 := Std.LawfulEqCmp.eq_of_compare hc
      subst hk
      cases hf : f (some e.2) with
      | none => simp [alterEntries, lookup, hf, add_comm]
      | some v =>
        simp only [alterEntries, lookup, hc, hf, Option.map_some, Option.toList_some,
          List.singleton_append, List.map_cons, List.sum_cons, Option.elim_some]
        abel
    | gt =>
      simp only [alterEntries, lookup, hc, List.map_cons, List.sum_cons, add_assoc, ih]

theorem mem_of_lookup [Std.LawfulEqOrd κ] {k : κ} {v : ν} {l : List (κ × ν)}
    (h : lookup k l = some v) : (k, v) ∈ l := by
  induction l with
  | nil => simp [lookup] at h
  | cons e rest ih =>
    cases hc : compare k e.1 with
    | lt => simp [lookup, hc] at h
    | eq =>
      have hk : k = e.1 := Std.LawfulEqCmp.eq_of_compare hc
      have hv : e.2 = v := by simpa [lookup, hc] using h
      simp [hk, ← hv]
    | gt => exact List.mem_cons_of_mem _ (ih (by simpa [lookup, hc] using h))

theorem lookup_of_mem [Std.TransOrd κ] {k : κ} {v : ν} {l : List (κ × ν)}
    (h : l.Pairwise fun a b => compare a.1 b.1 = .lt) (hm : (k, v) ∈ l) : lookup k l = some v := by
  induction l with
  | nil => simp at hm
  | cons e rest ih =>
    obtain ⟨he, hrest⟩ := List.pairwise_cons.1 h
    rcases List.mem_cons.1 hm with rfl | hm
    · simp [lookup]
    · have hgt : compare k e.1 = .gt := Std.OrientedCmp.gt_iff_lt.2 (he _ hm)
      simpa [lookup, hgt] using ih hrest hm

theorem get?_eq_some_iff [Std.TransOrd κ] [Std.LawfulEqOrd κ] (m : SortedMap κ ν) (k : κ) (v : ν) :
    m.get? k = some v ↔ (k, v) ∈ m.entries :=
  ⟨mem_of_lookup, lookup_of_mem m.ascending⟩

theorem mem_keys_iff [Std.TransOrd κ] [Std.LawfulEqOrd κ] (m : SortedMap κ ν) (k : κ) :
    k ∈ m.keys ↔ m.contains k = true := by
  rw [contains, Option.isSome_iff_exists]
  simp only [get?_eq_some_iff, keys, List.mem_map, Prod.exists, exists_and_right, exists_eq_right]

theorem mem_keys_of_mem {m : SortedMap κ ν} {e : κ × ν} (h : e ∈ m.entries) : e.1 ∈ m.keys :=
  List.mem_map.2 ⟨e, h, rfl⟩

theorem keys_pairwise (m : SortedMap κ ν) : m.keys.Pairwise fun a b => compare a b = .lt :=
  List.pairwise_map.2 m.ascending

theorem keys_strictMono (m : SortedMap Nat ν) : m.keys.Pairwise (· < ·) :=
  m.keys_pairwise.imp Nat.compare_eq_lt.1

theorem keys_nodup [Std.TransOrd κ] (m : SortedMap κ ν) : m.keys.Nodup := by
  refine m.keys_pairwise.imp ?_
  rintro a b hlt rfl
  exact absurd hlt (by simp)

theorem entries_nodup [Std.TransOrd κ] (m : SortedMap κ ν) : m.entries.Nodup :=
  m.keys_nodup.of_map Prod.fst

@[simp] theorem entries_empty : (empty : SortedMap κ ν).entries = [] := rfl

@[simp] theorem entries_insert_empty [Std.TransOrd κ] (k : κ) (v : ν) :
    (empty.insert k v).entries = [(k, v)] := rfl

/-- A key behind all others is added at the end. -/
theorem alterEntries_of_lt [Std.TransOrd κ] {k : κ} {v : ν} {f : Option ν → Option ν}
    {l : List (κ × ν)} (h : ∀ e ∈ l, compare e.1 k = .lt) (hf : f none = some v) :
    alterEntries k f l = l ++ [(k, v)] := by
  induction l with
  | nil => simp [alterEntries, hf]
  | cons e rest ih =>
    have hgt : compare k e.1 = .gt := Std.OrientedCmp.gt_iff_lt.2 (h e (by simp))
    simp only [alterEntries, hgt, List.cons_append]
    rw [ih fun d hd => h d (by simp [hd])]

/-- Setting the entries of a map one by one, in their order, builds the map again. -/
theorem foldl_alter_entries [Std.TransOrd κ] (f : κ × ν → Option ν → Option ν) (m : SortedMap κ ν)
    (hf : ∀ e ∈ m.entries, f e none = some e.2) :
    m.entries.foldl (fun m e => m.alter e.1 (f e)) empty = m := by
  have fold (l : List (κ × ν)) (a : SortedMap κ ν) (hl : ∀ e ∈ l, f e none = some e.2)
      (hascending : (a.entries ++ l).Pairwise fun x y => compare x.1 y.1 = .lt) :
      (l.foldl (fun m e => m.alter e.1 (f e)) a).entries = a.entries ++ l := by
    induction l generalizing a with
    | nil => simp
    | cons e l ih =>
      have hlast : (a.alter e.1 (f e)).entries = a.entries ++ [e] :=
        alterEntries_of_lt (fun d hd => (List.pairwise_append.1 hascending).2.2 d hd e (by simp))
          (hl e (by simp))
      rw [List.foldl_cons, ih _ (fun d hd => hl d (by simp [hd])), hlast, List.append_assoc,
        List.singleton_append]
      rwa [hlast, List.append_assoc, List.singleton_append]
  have hentries := fold m.entries empty hf m.ascending
  cases hm : m.entries.foldl (fun m e => m.alter e.1 (f e)) empty
  rw [hm] at hentries
  cases m
  congr

/-- What holds of the entries of a map, and of the one that is set, holds after the change. -/
theorem forall_mem_alter [Std.TransOrd κ] [Std.LawfulEqOrd κ] [DecidableEq κ] {P : κ × ν → Prop}
    {m : SortedMap κ ν} {k : κ} {f : Option ν → Option ν} (hm : ∀ e ∈ m.entries, P e)
    (hf : ∀ v, f (m.get? k) = some v → P (k, v)) : ∀ e ∈ (m.alter k f).entries, P e := by
  intro e he
  have hget := (get?_eq_some_iff (m.alter k f) e.1 e.2).2 he
  rw [get?_alter] at hget
  split at hget
  · rename_i hk
    have := hf e.2 hget
    rwa [← hk] at this
  · exact hm e ((get?_eq_some_iff m e.1 e.2).1 hget)

theorem get?_filter [Std.TransOrd κ] [Std.LawfulEqOrd κ] (m : SortedMap κ ν) (test : κ → Bool)
    (k : κ) : (m.filter fun e => test e.1).get? k = if test k then m.get? k else none := by
  ext v
  rw [get?_eq_some_iff]
  change (k, v) ∈ m.entries.filter _ ↔ _
  rw [List.mem_filter, ← get?_eq_some_iff]
  split <;> simp_all

section LookUp

variable [Std.TransOrd κ] [Std.LawfulEqOrd κ] [DecidableEq κ]

theorem get?_foldl_insert {l : List (κ × ν)} (hl : (l.map Prod.fst).Nodup) {m : SortedMap κ ν}
    (hfresh : ∀ e ∈ l, m.get? e.1 = none) (k : κ) (v : ν) :
    (l.foldl (fun m e => m.insert e.1 e.2) m).get? k = some v ↔
      m.get? k = some v ∨ (k, v) ∈ l := by
  induction l generalizing m with
  | nil => simp
  | cons e l ih =>
    obtain ⟨hnot, hl⟩ := List.nodup_cons.1 hl
    have hrest : ∀ d ∈ l, (m.insert e.1 e.2).get? d.1 = none := by
      intro d hd
      have hne : d.1 ≠ e.1 := by
        intro heq
        exact hnot (heq ▸ List.mem_map_of_mem hd)
      rw [get?_insert, if_neg hne]
      exact hfresh d (List.mem_cons_of_mem _ hd)
    have hnone := hfresh e List.mem_cons_self
    rw [List.foldl_cons, ih hl hrest, get?_insert, List.mem_cons, Prod.ext_iff]
    by_cases hk : k = e.1
    · subst hk
      simp [hnone, eq_comm]
    · simp [hk]

/-- A map from distinct keys holds what the list holds. -/
theorem get?_ofList {l : List (κ × ν)} (hl : (l.map Prod.fst).Nodup) (k : κ) (v : ν) :
    (ofList l).get? k = some v ↔ (k, v) ∈ l := by
  rw [ofList, get?_foldl_insert hl (by simp)]
  simp

/-- Entries that are filtered out can be changed first. -/
theorem filter_alter (m : SortedMap κ ν) (test : κ → Bool) (k : κ) (f : Option ν → Option ν) :
    (m.alter k f).filter (fun e => test e.1) =
      if test k then (m.filter fun e => test e.1).alter k f else m.filter fun e => test e.1 := by
  apply ext_get?
  intro k'
  rw [get?_filter, get?_alter]
  by_cases hk : test k
  · rw [if_pos hk, get?_alter, get?_filter]
    by_cases heq : k' = k
    · simp [heq, hk]
    · simp [heq, get?_filter]
  · rw [if_neg hk, get?_filter]
    by_cases heq : k' = k
    · simp [heq, hk]
    · simp [heq]

end LookUp

/-- Where no stored value is zero, a key that is absent can count as one that holds zero. -/
theorem ext_getD [Std.TransOrd κ] [Std.LawfulEqOrd κ] [Zero ν] {m m' : SortedMap κ ν}
    (hm : ∀ e ∈ m.entries, e.2 ≠ 0) (hm' : ∀ e ∈ m'.entries, e.2 ≠ 0)
    (h : ∀ k, (m.get? k).getD 0 = (m'.get? k).getD 0) : m = m' := by
  have stored {m : SortedMap κ ν} (hm : ∀ e ∈ m.entries, e.2 ≠ 0) {k : κ} {v : ν}
      (hv : m.get? k = some v) : v ≠ 0 :=
    hm (k, v) ((get?_eq_some_iff m k v).1 hv)
  apply ext_get?
  intro k
  have hk := h k
  cases hv : m.get? k with
  | none =>
    cases hv' : m'.get? k with
    | none => rfl
    | some v' =>
      rw [hv, hv', Option.getD_none, Option.getD_some] at hk
      exact absurd hk.symm (stored hm' hv')
  | some v =>
    cases hv' : m'.get? k with
    | none =>
      rw [hv, hv', Option.getD_none, Option.getD_some] at hk
      exact absurd hk (stored hm hv)
    | some v' =>
      rw [hv, hv', Option.getD_some, Option.getD_some] at hk
      rw [hk]

/-- A sum over the entries of a map to which only one key contributes. -/
theorem sum_entries_of_eq_zero [Std.TransOrd κ] [Std.LawfulEqOrd κ] [DecidableEq κ] {M : Type w}
    [AddCommMonoid M] (F : κ × ν → M) (m : SortedMap κ ν) (k : κ)
    (hF : ∀ e ∈ m.entries, e.1 ≠ k → F e = 0) :
    (m.entries.map F).sum = (m.get? k).elim 0 fun v => F (k, v) := by
  have hothers : ((m.alter k fun _ => none).entries.map F).sum = 0 := by
    apply List.sum_eq_zero
    intro x hx
    obtain ⟨e, he, rfl⟩ := List.mem_map.1 hx
    have hget := (get?_eq_some_iff _ e.1 e.2).2 he
    rw [get?_alter] at hget
    split at hget
    · cases hget
    · rename_i hne
      exact hF e ((get?_eq_some_iff m e.1 e.2).1 hget) hne
  have hremoved := sum_alterEntries F k (fun _ => none) m.entries
  rw [Option.elim_none, add_zero] at hremoved
  rw [← hremoved]
  change ((m.alter k fun _ => none).entries.map F).sum + (m.get? k).elim 0 _ = _
  rw [hothers, zero_add]

/-- Sums over the entries of a map can be taken over any list of keys that has them all. -/
theorem sum_entries [Std.TransOrd κ] [Std.LawfulEqOrd κ] {M : Type w} [AddCommMonoid M]
    (F : κ × ν → M) (m : SortedMap κ ν) {keys : List κ} (hkeys : keys.Nodup)
    (h : ∀ e ∈ m.entries, e.1 ∈ keys) : (m.entries.map F).sum =
      (keys.map fun k => (m.get? k).elim 0 fun v => F (k, v)).sum := by
  have hfound : (keys.filterMap fun k => (m.get? k).map fun v => (k, v)).Nodup := by
    apply hkeys.filterMap
    intro k k' e he he'
    simp only [Option.mem_def, Option.map_eq_some_iff] at he he'
    obtain ⟨v, -, rfl⟩ := he
    obtain ⟨v', -, heq⟩ := he'
    exact (Prod.mk.inj heq).1.symm
  have hperm : m.entries.Perm (keys.filterMap fun k => (m.get? k).map fun v => (k, v)) := by
    rw [List.perm_ext_iff_of_nodup m.entries_nodup hfound]
    rintro ⟨k, v⟩
    rw [← m.get?_eq_some_iff, List.mem_filterMap]
    constructor
    · intro hget
      have hmem := h (k, v) ((m.get?_eq_some_iff k v).1 hget)
      exact ⟨k, hmem, by simp [hget]⟩
    · rintro ⟨k', -, hget⟩
      simp only [Option.map_eq_some_iff] at hget
      obtain ⟨v', hget, heq⟩ := hget
      obtain ⟨rfl, rfl⟩ := Prod.mk.inj heq
      exact hget
  rw [(hperm.map F).sum_eq]
  clear hkeys h hfound hperm
  induction keys with
  | nil => rfl
  | cons k keys ih =>
    rw [List.map_cons, List.sum_cons, ← ih, List.filterMap_cons]
    cases m.get? k with
    | none => simp
    | some v => simp

end SortedMap

namespace SortedSet

variable {κ : Type u} [Ord κ] [Std.TransOrd κ] [Std.LawfulEqOrd κ] [DecidableEq κ]

theorem contains_add (s : SortedSet κ) (x y : κ) :
    (s.add x).contains y = true ↔ y = x ∨ s.contains y = true := by
  rw [SortedMap.contains, add, SortedMap.get?_insert]
  split <;> simp_all [SortedMap.contains]

theorem contains_addAll (s : SortedSet κ) (l : List κ) (y : κ) :
    (s.addAll l).contains y = true ↔ y ∈ l ∨ s.contains y = true := by
  induction l generalizing s with
  | nil => simp [addAll]
  | cons x l ih =>
    rw [addAll, List.foldl_cons, ← addAll, ih, contains_add, List.mem_cons, or_assoc, or_left_comm]

theorem contains_ofList (l : List κ) (y : κ) : (ofList l).contains y = true ↔ y ∈ l := by
  rw [ofList, contains_addAll]
  simp [SortedMap.contains]

theorem contains_union (s t : SortedSet κ) (y : κ) :
    (s.union t).contains y = true ↔ s.contains y = true ∨ t.contains y = true := by
  rw [union, contains_addAll, toList, SortedMap.mem_keys_iff, or_comm]

end SortedSet

end CircuitTrace
