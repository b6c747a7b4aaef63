import CircuitTrace.Proofs.Assignment

/-!
Splitting a wire into bits is exact, and all or nothing. The bits are written if the source is
known, no bit is, and the value fits; then they spell the value. Otherwise nothing is written at
all. No slot outside the assignment is read or written as long as the last bit has a number that
fits a word; if it wraps around, it can pass for a wire, and the slots of the bits are asked for
although they are not there.
-/
namespace CircuitTrace

namespace Assignment

variable {n : Nat}

/-- The slot of a wire. There is none outside the range of wires. -/
def slot? (a : Assignment n) (wire : Nat) : Option (Option Nat) := a[wire]?

/-- The slots from `start` up to `stop`, if they are there. -/
def slots? (a : Assignment n) (start stop : Nat) : Option (List (Option Nat)) :=
  if start ≤ stop ∧ stop ≤ n then some ((List.range' start (stop - start)).map a.get?) else none

/-- Writes the slot of a wire, if it is there. -/
def assign? (a : Assignment n) (wire value : Nat) : Option (Assignment n) :=
  if wire < n then some (a.assign wire value) else none

theorem slot?_of_lt (a : Assignment n) {wire : Nat} (h : wire < n) :
    a.slot? wire = some (a.get? wire) := by
  rw [slot?, get?_of_lt a h, Vector.getElem?_eq_getElem h]

theorem foldlM_assign? {α : Type} (key val : α → Nat) {l : List α} (h : ∀ x ∈ l, key x < n)
    (a : Assignment n) : l.foldlM (fun a x => a.assign? (key x) (val x)) a =
      some (l.foldl (fun a x => a.assign (key x) (val x)) a) := by
  induction l generalizing a with
  | nil => rfl
  | cons x l ih =>
    obtain ⟨hx, hl⟩ := List.forall_mem_cons.1 h
    rw [List.foldlM_cons, assign?, if_pos hx, List.foldl_cons, ← ih hl]
    rfl

end Assignment

/-- The lowest bits of a number spell its remainder. -/
theorem sum_testBit (value count : Nat) :
    ∑ i ∈ Finset.range count, 2 ^ i * (value.testBit i).toNat = value % 2 ^ count := by
  induction count with
  | zero => simp [Nat.mod_one]
  | succ count ih => rw [Finset.sum_range_succ, ih, Nat.mod_pow_succ, Nat.toNat_testBit]

namespace BitDecomposition

variable {n : Nat} {g : BitDecomposition} {a b : Assignment n} {value wire : Nat}

/-- The number of the wire of the last bit, and of the first if there are none. -/
def lastWire (g : BitDecomposition) : Nat := g.start.toNat + (g.count.toNat - 1)

/-- The number of the last wire fits a word. -/
def Fits (g : BitDecomposition) : Prop := g.lastWire < UInt64.size

instance (g : BitDecomposition) : Decidable g.Fits :=
  inferInstanceAs (Decidable (g.lastWire < UInt64.size))

structure InRange (g : BitDecomposition) (n : Nat) : Prop where
  source_lt : g.source.toNat < n
  lastWire_lt : g.lastWire < n

/-- The source holds a value that fits, and no bit is known. -/
structure Fires (g : BitDecomposition) (a : Assignment n) (value : Nat) : Prop where
  inRange : g.InRange n
  source : a.get? g.source.toNat = some value
  bits : ∀ wire ∈ g.wires, a.get? wire = none
  value_lt : value < 2 ^ g.count.toNat

/-- Why nothing is written, as it is reported. A broken range is no reason. -/
def Declines (g : BitDecomposition) (a : Assignment n) : Except GadgetError Nat → Prop
  | .error (.wireOutOfRange wire wireCount) =>
    wireCount = n ∧ n ≤ wire ∧ (wire = g.source.toNat ∨ g.source.toNat < n ∧ wire = g.lastWire)
  | .ok filled =>
    filled = 0 ∧ g.InRange n ∧
      (a.get? g.source.toNat = none ∨ ∃ wire ∈ g.wires, (a.get? wire).isSome = true)
  | .error (.valueTooLarge value count) =>
    count = g.count.toNat ∧ g.InRange n ∧ a.get? g.source.toNat = some value ∧
      (∀ wire ∈ g.wires, a.get? wire = none) ∧ 2 ^ g.count.toNat ≤ value
  | .error (.brokenRange ..) => False

theorem Fits.toNat_last (h : g.Fits) : g.last.toNat = g.lastWire := by
  have hcount : g.count.toNat - 1 < UInt64.size :=
    (Nat.sub_le _ _).trans_lt (UInt64.toNat_lt_size g.count)
  rw [last, UInt64.toNat_add, UInt64.toNat_ofNat_of_lt' hcount]
  exact Nat.mod_eq_of_lt h

theorem InRange.fits (h : g.InRange n) (hn : n < UInt64.size) : g.Fits :=
  Nat.lt_trans h.lastWire_lt hn

/-- The wires of the bits are wires of the circuit if the last one is. -/
theorem InRange.start_add_count_le (h : g.InRange n) : g.start.toNat + g.count.toNat ≤ n := by
  have hlast : g.start.toNat + (g.count.toNat - 1) < n := h.lastWire_lt
  omega

theorem InRange.toNat_stop (h : g.InRange n) (hn : n < UInt64.size) :
    g.stop.toNat = g.start.toNat + g.count.toNat := by
  rw [stop, UInt64.toNat_add]
  exact Nat.mod_eq_of_lt (Nat.lt_of_le_of_lt h.start_add_count_le hn)

/-- The range of the bits is not broken if the last one is a wire. -/
theorem InRange.not_broken (h : g.InRange n) (hn : n < UInt64.size) :
    ¬(g.stop < g.start ∨ n < g.stop.toNat) := by
  have hle := h.start_add_count_le
  rw [UInt64.lt_iff_toNat_lt, h.toNat_stop hn]
  omega

theorem find?_eq_none_iff (hfits : g.Fits) :
    ([g.source, g.last].find? fun wire => n ≤ wire.toNat) = none ↔ g.InRange n := by
  rw [List.find?_eq_none]
  constructor
  · intro h
    refine ⟨by simpa using h g.source (by simp), ?_⟩
    rw [← hfits.toNat_last]
    simpa using h g.last (by simp)
  · rintro ⟨hsource, hlast⟩ wire hwire
    simp only [List.mem_cons, List.not_mem_nil, or_false] at hwire
    rcases hwire with rfl | rfl
    · simpa using hsource
    · simpa [hfits.toNat_last] using hlast

theorem of_find?_eq_some (hfits : g.Fits) {word : UInt64}
    (h : ([g.source, g.last].find? fun wire => n ≤ wire.toNat) = some word) :
    n ≤ word.toNat ∧
      (word.toNat = g.source.toNat ∨ g.source.toNat < n ∧ word.toNat = g.lastWire) := by
  have hle : n ≤ word.toNat := by simpa using List.find?_some h
  refine ⟨hle, ?_⟩
  by_cases hsource : n ≤ g.source.toNat
  · rw [List.find?_cons_of_pos (by simpa using hsource)] at h
    exact .inl (congrArg UInt64.toNat (Option.some.inj h).symm)
  · rw [List.find?_cons_of_neg (by simpa using hsource)] at h
    have hword : word = g.last := List.mem_singleton.1 (List.mem_of_find?_eq_some h)
    rw [hword, hfits.toNat_last]
    exact .inr ⟨Nat.lt_of_not_le hsource, rfl⟩

theorem mem_wires_iff : wire ∈ g.wires ↔ ∃ i < g.count.toNat, wire = g.start.toNat + i := by
  rw [wires, List.mem_range'_1]
  constructor
  · rintro ⟨hle, hlt⟩
    exact ⟨wire - g.start.toNat, by omega, by omega⟩
  · rintro ⟨i, hi, rfl⟩
    omega

theorem bitsUnknown_iff : (¬g.wires.any fun wire => (a.get? wire).isSome) ↔
    ∀ wire ∈ g.wires, a.get? wire = none := by
  simp

/-- All bits are there if their range is not broken: a sum that wraps around ends before its
start. -/
theorem inRange_of_not_broken (hsource : g.source.toNat < n) (hlast : g.last.toNat < n)
    (h : ¬(g.stop < g.start ∨ n < g.stop.toNat)) : g.InRange n := by
  obtain ⟨hle, hstop⟩ := not_or.1 h
  rw [UInt64.lt_iff_toNat_lt] at hle
  have hsum : g.stop.toNat = (g.start.toNat + g.count.toNat) % 2 ^ 64 := UInt64.toNat_add ..
  have hstart : g.start.toNat < 2 ^ 64 := g.start.toNat_lt
  have hcount : g.count.toNat < 2 ^ 64 := g.count.toNat_lt
  have hfits : g.Fits := by
    change g.start.toNat + (g.count.toNat - 1) < 2 ^ 64
    omega
  rw [hfits.toNat_last] at hlast
  exact ⟨hsource, hlast⟩

/-- An assignment is left as it is, or the gadget fires. -/
theorem unchanged_or_fires (g : BitDecomposition) (a : Assignment n) : (g.apply a).2 = a ∨
    ∃ value, g.Fires a value ∧ g.apply a = (.ok g.count.toNat, g.fill value a) := by
  rw [apply]
  split
  · exact .inl rfl
  rename_i hfind
  split
  · exact .inl rfl
  rename_i value hsource
  split
  · exact .inl rfl
  rename_i hbroken
  split
  · exact .inl rfl
  rename_i hunknown
  split
  · exact .inl rfl
  rename_i hsmall
  rw [Nat.one_shiftLeft, Nat.not_le] at hsmall
  have hwires := List.find?_eq_none.1 hfind
  have hrange : g.InRange n := inRange_of_not_broken (by simpa using hwires g.source (by simp))
    (by simpa using hwires g.last (by simp)) hbroken
  exact .inr ⟨value, ⟨hrange, hsource, bitsUnknown_iff.1 hunknown, hsmall⟩, rfl⟩

theorem apply_of_fires (hn : n < UInt64.size) (h : g.Fires a value) :
    g.apply a = (.ok g.count.toNat, g.fill value a) := by
  have hfind := (find?_eq_none_iff (h.inRange.fits hn)).2 h.inRange
  have hsmall : ¬1 <<< g.count.toNat ≤ value := by
    rw [Nat.one_shiftLeft]
    exact Nat.not_le.2 h.value_lt
  rw [apply, hfind]
  simp only [h.source]
  rw [if_neg (h.inRange.not_broken hn), if_neg (bitsUnknown_iff.2 h.bits), if_neg hsmall]

theorem apply_of_known (hn : n < UInt64.size) (hrange : g.InRange n) (hwire : wire ∈ g.wires)
    (hknown : (a.get? wire).isSome) : g.apply a = (.ok 0, a) := by
  have hfind := (find?_eq_none_iff (hrange.fits hn)).2 hrange
  rw [apply, hfind]
  cases hsource : a.get? g.source.toNat with
  | none => rfl
  | some value =>
    simp only [if_neg (hrange.not_broken hn)]
    exact if_pos (List.any_eq_true.2 ⟨wire, hwire, hknown⟩)

/-- Either the bits are written, or nothing is, for one of the three reasons. -/
theorem fires_or_declines (hn : n < UInt64.size) (hfits : g.Fits) (a : Assignment n) :
    (∃ value, g.Fires a value) ∨ g.Declines a (g.apply a).1 := by
  rw [apply]
  split
  · rename_i wire hfind
    exact .inr ⟨rfl, of_find?_eq_some hfits hfind⟩
  rename_i hfind
  have hrange : g.InRange n := (find?_eq_none_iff hfits).1 hfind
  split
  · rename_i hsource
    exact .inr ⟨rfl, hrange, .inl hsource⟩
  rename_i value hsource
  rw [if_neg (hrange.not_broken hn)]
  split
  · rename_i hknown
    exact .inr ⟨rfl, hrange, .inr (List.any_eq_true.1 hknown)⟩
  rename_i hunknown
  split
  · rename_i hlarge
    rw [Nat.one_shiftLeft] at hlarge
    exact .inr ⟨rfl, hrange, hsource, bitsUnknown_iff.1 hunknown, hlarge⟩
  · rename_i hsmall
    rw [Nat.one_shiftLeft, Nat.not_le] at hsmall
    exact .inl ⟨value, hrange, hsource, bitsUnknown_iff.1 hunknown, hsmall⟩

theorem get?_fill_of_notMem (h : wire ∉ g.wires) (value : Nat) :
    (g.fill value a).get? wire = a.get? wire := by
  apply Assignment.get?_foldl_assign_of_ne (g.start.toNat + ·)
  intro i hi heq
  exact h (mem_wires_iff.2 ⟨i, List.mem_range.1 hi, heq.symm⟩)

theorem get?_fill (h : g.InRange n) {i : Nat} (hi : i < g.count.toNat) (value : Nat) :
    (g.fill value a).get? (g.start.toNat + i) = some (value.testBit i).toNat := by
  have hdistinct : ((List.range g.count.toNat).map (g.start.toNat + ·)).Nodup :=
    List.nodup_range.map (add_right_injective g.start.toNat)
  apply Assignment.get?_foldl_assign_of_mem (g.start.toNat + ·) _ hdistinct (List.mem_range.2 hi)
  have hle := h.start_add_count_le
  omega

/-- The bits are the only wires that are ever written. -/
theorem get?_apply_of_notMem (g : BitDecomposition) (a : Assignment n) (h : wire ∉ g.wires) :
    (g.apply a).2.get? wire = a.get? wire := by
  rcases unchanged_or_fires g a with hsame | ⟨value, -, hfill⟩
  · rw [hsame]
  · rw [hfill, get?_fill_of_notMem h]

/-- The bits are the only wires that are written, and all of them were unknown. -/
theorem fillsUnknown (g : BitDecomposition) (p : Nat) : g.toGadget.FillsUnknown p := by
  intro n a
  change a.Extends (g.apply a).2
  rcases unchanged_or_fires g a with hsame | ⟨value, hfires, -⟩
  · rw [hsame]
    exact .refl a
  · intro wire known hwire
    have hother : wire ∉ g.wires := by
      intro hmem
      rw [hfires.bits wire hmem] at hwire
      cases hwire
    rw [get?_apply_of_notMem g a hother, hwire]

/-- The bits that were written hold the gadget back. -/
theorem apply_fill (hn : n < UInt64.size) (h : g.InRange n) (hcount : 0 < g.count.toNat)
    (value : Nat) : g.apply (g.fill value a) = (.ok 0, g.fill value a) := by
  have hfirst := get?_fill (a := a) h hcount value
  apply apply_of_known hn h (mem_wires_iff.2 ⟨0, hcount, rfl⟩)
  rw [hfirst, Option.isSome_some]

/-- Does the same with checked accesses: it has a result only if every slot that is read or written
is there. -/
def applyChecked (g : BitDecomposition) (a : Assignment n) :
    Option (Except GadgetError Nat × Assignment n) :=
  match [g.source, g.last].find? fun wire => n ≤ wire.toNat with
  | some wire => some (.error (.wireOutOfRange wire.toNat n), a)
  | none => do
    match ← a.slot? g.source.toNat with
    | none => some (.ok 0, a)
    | some value =>
      let bits ← a.slots? g.start.toNat g.stop.toNat
      if bits.any Option.isSome then some (.ok 0, a)
      else if 1 <<< g.count.toNat ≤ value then
        some (.error (.valueTooLarge value g.count.toNat), a)
      else
        let filled ← (List.range g.count.toNat).foldlM
          (fun a i => a.assign? (g.start.toNat + i) (value.testBit i).toNat) a
        some (.ok g.count.toNat, filled)

theorem applyChecked_eq (hn : n < UInt64.size) (hfits : g.Fits) (a : Assignment n) :
    g.applyChecked a = some (g.apply a) := by
  rw [applyChecked, apply]
  cases hfind : [g.source, g.last].find? fun wire => n ≤ wire.toNat with
  | some wire => rfl
  | none =>
    have hrange : g.InRange n := (find?_eq_none_iff hfits).1 hfind
    have hle := hrange.start_add_count_le
    have hslots : a.slots? g.start.toNat g.stop.toNat = some (g.wires.map a.get?) := by
      rw [hrange.toNat_stop hn, Assignment.slots?, if_pos ⟨Nat.le_add_right _ _, hle⟩,
        Nat.add_sub_cancel_left, wires]
    have hwires : ∀ i ∈ List.range g.count.toNat, g.start.toNat + i < n := by
      intro i hi
      have := List.mem_range.1 hi
      omega
    simp only [Assignment.slot?_of_lt a hrange.source_lt, Option.bind_eq_bind, Option.bind_some]
    cases a.get? g.source.toNat with
    | none => rfl
    | some value =>
      have hfill := Assignment.foldlM_assign? (g.start.toNat + ·)
        (fun i => (value.testBit i).toNat) hwires a
      simp only [hslots, hfill, Option.bind_some, List.any_map, if_neg (hrange.not_broken hn)]
      change (if g.wires.any (fun wire => (a.get? wire).isSome) then _ else _) = _
      split
      · rfl
      · split <;> rfl

/-- In an assignment of no more wires than a word can count, the bits are written where the source
and all bits are wires, the source is known, no bit is, and the value fits. Then they spell the
value, and keep the gadget from writing again. Otherwise nothing is written. Other wires than the
bits never change. As long as the number of the last wire fits a word, the report says why nothing
was written, and no slot is read or written that is not there. -/
theorem apply_exact_or_unchanged (g : BitDecomposition) (p : Nat) (a : Assignment n)
    (hn : n < UInt64.size) :
    (∀ value, g.Fires a value → ∃ b, g.toGadget.apply p a = (.ok g.count.toNat, b) ∧
      (∀ wire ∈ g.wires, b.get? wire = some 0 ∨ b.get? wire = some 1) ∧
      ∑ i ∈ Finset.range g.count.toNat, 2 ^ i * (b.get? (g.start.toNat + i)).getD 0 = value ∧
      (0 < g.count → g.toGadget.apply p b = (.ok 0, b))) ∧
    ((¬∃ value, g.Fires a value) → (g.toGadget.apply p a).2 = a) ∧
    (∀ wire ∉ g.wires, (g.toGadget.apply p a).2.get? wire = a.get? wire) ∧
    (g.Fits → g.applyChecked a = some (g.toGadget.apply p a) ∧
      ((¬∃ value, g.Fires a value) → g.Declines a (g.toGadget.apply p a).1)) := by
  have happly {b : Assignment n} : g.toGadget.apply p b = g.apply b := rfl
  simp only [happly]
  refine ⟨?_, ?_, fun _ => get?_apply_of_notMem g a, fun hfits =>
    ⟨applyChecked_eq hn hfits a, (fires_or_declines hn hfits a).resolve_left⟩⟩
  · intro value hfires
    have hrange := hfires.inRange
    refine ⟨g.fill value a, apply_of_fires hn hfires, ?_, ?_, ?_⟩
    · intro wire hwire
      obtain ⟨i, hi, rfl⟩ := mem_wires_iff.1 hwire
      rw [get?_fill hrange hi]
      cases value.testBit i
      · exact .inl rfl
      · exact .inr rfl
    · calc ∑ i ∈ Finset.range g.count.toNat,
              2 ^ i * ((g.fill value a).get? (g.start.toNat + i)).getD 0
          = ∑ i ∈ Finset.range g.count.toNat, 2 ^ i * (value.testBit i).toNat := by
            apply Finset.sum_congr rfl
            intro i hi
            rw [get?_fill hrange (Finset.mem_range.1 hi), Option.getD_some]
        _ = value % 2 ^ g.count.toNat := sum_testBit value g.count.toNat
        _ = value := Nat.mod_eq_of_lt hfires.value_lt
    · intro hcount
      exact apply_fill hn hrange (UInt64.lt_iff_toNat_lt.1 hcount) value
  · intro hnot
    exact (unchanged_or_fires g a).resolve_right fun ⟨value, hfires, _⟩ => hnot ⟨value, hfires⟩

/-- Six fits into four bits, but not into two. -/
theorem apply_exact_or_unchanged_six :
    (∃ b : Assignment 5,
      (toGadget ⟨0, 1, 4⟩).apply 7 (#v[some 6, none, none, none, none] : Assignment 5) =
        (.ok 4, b) ∧
      ∑ i ∈ Finset.range 4, 2 ^ i * (b.get? (1 + i)).getD 0 = 6 ∧
      (toGadget ⟨0, 1, 4⟩).apply 7 b = (.ok 0, b)) ∧
    ((toGadget ⟨0, 1, 2⟩).apply 7 (#v[some 6, none, none, none, none] : Assignment 5)).2 =
      #v[some 6, none, none, none, none] := by
  constructor
  · have hfires : Fires ⟨0, 1, 4⟩ (#v[some 6, none, none, none, none] : Assignment 5) 6 :=
      ⟨⟨by decide, by decide⟩, rfl, by decide, by decide⟩
    obtain ⟨b, happly, -, hsum, hagain⟩ :=
      (apply_exact_or_unchanged ⟨0, 1, 4⟩ 7 _ (by decide)).1 6 hfires
    exact ⟨b, happly, hsum, hagain (by decide)⟩
  · refine (apply_exact_or_unchanged _ 7 _ (by decide)).2.1 ?_
    rintro ⟨value, hfires⟩
    obtain rfl : 6 = value := Option.some.inj hfires.source
    exact absurd hfires.value_lt (by decide)

/-- Of two bits from the last word on, the second wraps around to wire zero and passes for a wire.
Then the slots of the bits are asked for, and none of them is there. -/
theorem not_apply_exact_or_unchanged_wrapped :
    let g : BitDecomposition := ⟨0, 0xFFFFFFFFFFFFFFFF, 2⟩
    let a : Assignment 3 := #v[some 1, none, none]
    g.applyChecked a = none ∧ g.apply a = (.error (.brokenRange 0xFFFFFFFFFFFFFFFF 1), a) ∧
      ¬g.Declines a (g.apply a).1 := by
  intro g a
  have happly : g.apply a = (.error (.brokenRange 0xFFFFFFFFFFFFFFFF 1), a) := by
    decide +kernel
  refine ⟨by decide +kernel, happly, ?_⟩
  rw [happly]
  exact id

end BitDecomposition

end CircuitTrace
