import Mathlib
import CircuitTrace.Solver.Gadget
import CircuitTrace.Witness

namespace CircuitTrace

namespace Assignment

variable {n wire : Nat} {a b c : Assignment n}

theorem get?_of_lt (a : Assignment n) (h : wire < n) : a.get? wire = a[wire] := by simp [get?, h]

theorem isSome_get? (h : a.unknownCount = 0) (hlt : wire < n) : (a.get? wire).isSome := by
  rw [unknownCount, List.countP_eq_zero] at h
  have hwire := h a[wire] (Vector.mem_toList_iff.2 (Vector.getElem_mem hlt))
  rw [get?_of_lt a hlt, Option.isSome_iff_ne_none]
  simpa using hwire

theorem ext_get? (h : ∀ wire < n, a.get? wire = b.get? wire) : a = b := by
  apply Vector.ext
  intro wire hlt
  rw [← get?_of_lt a hlt, ← get?_of_lt b hlt, h wire hlt]

/-- The wires without a value, in order. -/
def unknownWires (a : Assignment n) : List Nat :=
  (List.range n).filter fun wire => (a.get? wire).isNone

theorem mem_unknownWires : wire ∈ a.unknownWires ↔ wire < n ∧ a.get? wire = none := by
  rw [unknownWires, List.mem_filter, List.mem_range, Option.isNone_iff_eq_none]

theorem length_unknownWires (a : Assignment n) : a.unknownWires.length = a.unknownCount := by
  have hcells : a.toList = (List.range n).map a.get? := by
    apply List.ext_getElem
    · simp
    · intro i hi _
      have hlt : i < n := by simpa using hi
      simp [get?_of_lt a hlt]
  rw [unknownWires, unknownCount, hcells, List.countP_map, List.countP_eq_length_filter]
  rfl

/-- The first unknown wire is the smallest of them. -/
theorem firstUnknown_le (h : wire ∈ a.unknownWires) : a.firstUnknown ≤ wire := by
  obtain ⟨hlt, hnone⟩ := mem_unknownWires.1 h
  by_contra hless
  have hcell := List.not_of_lt_findIdx (Nat.lt_of_not_le hless)
  rw [get?_of_lt a hlt] at hnone
  simp [hnone] at hcell

theorem firstUnknown_mem (h : 0 < a.unknownCount) : a.firstUnknown ∈ a.unknownWires := by
  have hexists : ∃ x ∈ a.toList, x.isNone = true := List.countP_pos_iff.1 h
  have hindex := List.findIdx_lt_length_of_exists hexists
  have hlt : a.firstUnknown < n := by simpa [firstUnknown] using hindex
  have hcell : a[a.firstUnknown].isNone = true := List.findIdx_getElem (w := hindex)
  rw [mem_unknownWires, get?_of_lt a hlt, ← Option.isNone_iff_eq_none]
  exact ⟨hlt, hcell⟩

@[simp] theorem length_values : a.values.length = n := by simp [values]

/-- A witness made from an assignment holds zero where the assignment has no value. -/
theorem value_mk_values (a : Assignment n) (wire : Nat) :
    Witness.value ⟨a.values⟩ wire = (a.get? wire).getD 0 := by
  by_cases hlt : wire < n
  · simp [Witness.value, values, get?, hlt]
  · simp [Witness.value, values, get?, hlt]

/-- An assignment knows the value of every wire, and it is that of the witness. -/
def Holds (a : Assignment n) (w : Witness) : Prop := ∀ wire < n, a.get? wire = some (w.value wire)

theorem holds_mk_values (h : a.unknownCount = 0) : a.Holds ⟨a.values⟩ := by
  intro wire hlt
  obtain ⟨value, hvalue⟩ := Option.isSome_iff_exists.1 (isSome_get? h hlt)
  rw [value_mk_values, hvalue, Option.getD_some]

section Writes

variable {α : Type} (key val : α → Nat) {l : List α}

theorem get?_foldl_assign_of_ne (h : ∀ x ∈ l, key x ≠ wire) :
    (l.foldl (fun a x => a.assign (key x) (val x)) a).get? wire = a.get? wire := by
  induction l generalizing a with
  | nil => rfl
  | cons x l ih =>
    obtain ⟨hx, hl⟩ := List.forall_mem_cons.1 h
    rw [List.foldl_cons, ih hl, get?_assign, if_neg fun heq => hx heq.1]

/-- Of wires that are written once each holds what was written. -/
theorem get?_foldl_assign_of_mem (hdistinct : (l.map key).Nodup) {x : α} (hx : x ∈ l)
    (hlt : key x < n) :
    (l.foldl (fun a x => a.assign (key x) (val x)) a).get? (key x) = some (val x) := by
  induction l generalizing a with
  | nil => cases hx
  | cons y l ih =>
    obtain ⟨hnot, hdistinct⟩ := List.nodup_cons.1 hdistinct
    rw [List.foldl_cons]
    rcases List.mem_cons.1 hx with rfl | hx
    · have hother : ∀ y ∈ l, key y ≠ key x := by
        intro y hy heq
        exact hnot (heq ▸ List.mem_map_of_mem hy)
      rw [get?_foldl_assign_of_ne key val hother, get?_assign, if_pos ⟨rfl, hlt⟩]
    · exact ih hdistinct hx

end Writes

/-- Every wire that the first assignment knows has the same value in the second. -/
def Extends (a b : Assignment n) : Prop :=
  ∀ wire value, a.get? wire = some value → b.get? wire = some value

theorem Extends.refl (a : Assignment n) : a.Extends a := fun _ _ h => h

theorem Extends.trans (hab : a.Extends b) (hbc : b.Extends c) : a.Extends c :=
  fun wire value h => hbc wire value (hab wire value h)

theorem Extends.get?_eq_none (h : a.Extends b) (hb : b.get? wire = none) :
    a.get? wire = none := by
  cases ha : a.get? wire with
  | none => rfl
  | some value =>
    rw [h wire value ha] at hb
    cases hb

/-- What is known is the same. -/
theorem Extends.get?_eq (h : a.Extends b) (ha : (a.get? wire).isSome) :
    b.get? wire = a.get? wire := by
  obtain ⟨value, hvalue⟩ := Option.isSome_iff_exists.1 ha
  rw [hvalue]
  exact h wire value hvalue

theorem extends_assign (h : a.get? wire = none) (value : Nat) :
    a.Extends (a.assign wire value) := by
  intro other v hother
  rw [get?_assign, if_neg]
  · exact hother
  · rintro ⟨rfl, -⟩
    rw [h] at hother
    cases hother

/-- Filling wires lowers the number of unknown wires, unless there is nothing to fill. -/
theorem Extends.eq_or_lt (h : a.Extends b) : b = a ∨ b.unknownCount < a.unknownCount := by
  have count (l l' : List (Option Nat))
      (hl : List.Forall₂ (fun x y => ∀ v, x = some v → y = some v) l l') :
      l' = l ∨ l'.countP Option.isNone < l.countP Option.isNone := by
    induction hl with
    | nil => exact .inl rfl
    | @cons x y l l' hxy _ ih =>
      cases x with
      | some v =>
        obtain rfl := hxy v rfl
        simpa using ih
      | none =>
        have hle : l'.countP Option.isNone ≤ l.countP Option.isNone := by
          rcases ih with rfl | hlt
          · exact le_refl _
          · exact hlt.le
        cases y with
        | some v => exact .inr (by simpa [Nat.lt_succ_iff] using hle)
        | none => simpa using ih
  have hcells : List.Forall₂ (fun x y => ∀ v, x = some v → y = some v) a.toList b.toList := by
    rw [List.forall₂_iff_get]
    refine ⟨by simp, ?_⟩
    intro i hi _ v hv
    have hlt : i < n := by simpa using hi
    have hget := h i v
    simp only [get?, Vector.getElem?_eq_getElem hlt, Option.join_some] at hget
    simpa using hget (by simpa using hv)
  rcases count _ _ hcells with heq | hlt
  · exact .inl (Vector.toList_inj.1 heq)
  · exact .inr hlt

end Assignment

/-- A gadget writes no wire that has a value, whatever it reports. -/
def Gadget.FillsUnknown (g : Gadget) (p : Nat) : Prop :=
  ∀ {n : Nat} (a : Assignment n), a.Extends (g.apply p a).2

end CircuitTrace
