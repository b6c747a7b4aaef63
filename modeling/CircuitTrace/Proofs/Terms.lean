import CircuitTrace.Proofs.Polynomial

/-!
Which terms the polynomial operations can produce: coefficients stay between zero and the
modulus, and monomials stay inside every set that is closed under the operation.
-/
namespace CircuitTrace

namespace Monomial

variable {S : Nat → Prop}

theorem within_one : one.Within S := by
  intro e he
  simp [one] at he

theorem within_var {x : Nat} (h : S x) : (var x).Within S := by
  intro e he
  have he : e = (x, 1) := by simpa [var, power] using he
  rwa [he]

/-- A product has the variables of its factors, also where an exponent wraps around. -/
theorem within_mul {a b : Monomial} (ha : a.Within S) (hb : b.Within S) : (a * b).Within S := by
  have fold (l : List (Nat × UInt32)) (hl : ∀ e ∈ l, S e.1) (m : SortedMap Nat UInt32)
      (hm : ∀ e ∈ m.entries, S e.1) :
      ∀ e ∈ (l.foldl (fun m e => m.alter e.1 fun old => some (old.getD 0 + e.2)) m).entries,
        S e.1 := by
    induction l generalizing m with
    | nil => exact hm
    | cons e l ih =>
      rw [List.foldl_cons]
      apply ih (fun e he => hl e (by simp [he]))
      exact SortedMap.forall_mem_alter (P := fun e => S e.1) hm fun _ _ => hl e (by simp)
  exact fold b.powers.entries hb a.powers ha

theorem Within.mono {S' : Nat → Prop} {m : Monomial} (h : m.Within S) (hs : ∀ x, S x → S' x) :
    m.Within S' := fun e he => hs _ (h e he)

end Monomial

namespace Poly

variable {p : Nat} {a b : Poly} {Q : Monomial → Prop}

theorem over_addTerm (ha : a.Over Q) {m : Monomial} (hm : Q m) (c : Nat) :
    (a.addTerm p m c).Over Q := by
  rw [addTerm]
  split
  · exact ha
  · exact SortedMap.forall_mem_alter (P := fun t => Q t.1) ha fun _ _ => hm

theorem over_foldl {α : Type} (g : α → Monomial) (c : α → Nat) {l : List α}
    (hl : ∀ t ∈ l, Q (g t)) (ha : a.Over Q) :
    (l.foldl (fun r t => r.addTerm p (g t) (c t)) a).Over Q := by
  induction l generalizing a with
  | nil => exact ha
  | cons t l ih =>
    exact ih (fun t ht => hl t (by simp [ht])) (over_addTerm ha (hl t (by simp)) _)

theorem over_zero : zero.Over Q := by
  intro t ht
  simp [zero] at ht

theorem over_term {m : Monomial} (hm : Q m) (c : Nat) : (term m c).Over Q := by
  rw [term]
  split
  · exact over_zero
  · intro t ht
    have ht : t = (m, c) := by simpa using ht
    rwa [ht]

theorem over_add (ha : a.Over Q) (hb : b.Over Q) : (add p a b).Over Q := over_foldl _ _ hb ha

theorem over_neg (ha : a.Over Q) : (neg p a).Over Q := by
  intro t ht
  obtain ⟨s, hs, rfl⟩ := List.mem_map.1 ht
  exact ha s hs

theorem over_sub (ha : a.Over Q) (hb : b.Over Q) : (sub p a b).Over Q := over_add ha (over_neg hb)

theorem over_scale (ha : a.Over Q) (k : Nat) : (scale p a k).Over Q := over_foldl _ _ ha over_zero

theorem over_mul_of_forall {T : Monomial → Prop}
    (h : ∀ s ∈ a.terms.entries, ∀ t ∈ b.terms.entries, T (s.1 * t.1)) : (mul p a b).Over T := by
  have fold (l : List (Monomial × Nat)) (hl : ∀ s ∈ l, ∀ t ∈ b.terms.entries, T (s.1 * t.1))
      (r : Poly) (hr : r.Over T) : (l.foldl (fun r s => b.terms.entries.foldl
        (fun r t => r.addTerm p (s.1 * t.1) (Residue.mul p s.2 t.2)) r) r).Over T := by
    induction l generalizing r with
    | nil => exact hr
    | cons s l ih =>
      apply ih (fun s hs => hl s (by simp [hs]))
      exact over_foldl _ _ (hl s (by simp)) hr
  exact fold a.terms.entries h zero over_zero

theorem over_mul {R T : Monomial → Prop} (ha : a.Over Q) (hb : b.Over R)
    (hT : ∀ m n, Q m → R n → T (m * n)) : (mul p a b).Over T :=
  over_mul_of_forall fun s hs t ht => hT s.1 t.1 (ha s hs) (hb t ht)

theorem mem_vars_iff {x : Nat} :
    x ∈ a.vars ↔ ∃ t ∈ a.terms.entries, x ∈ t.1.vars := by
  rw [vars, SortedSet.toList, SortedMap.mem_keys_iff, SortedSet.contains_ofList, List.mem_flatMap]
  simp only [SortedMap.keys, List.mem_map]
  constructor
  · rintro ⟨m, ⟨t, ht, rfl⟩, hx⟩
    exact ⟨t, ht, hx⟩
  · rintro ⟨t, ht, hx⟩
    exact ⟨t.1, ⟨t, ht, rfl⟩, hx⟩

/-- A condition on all variables of all monomials is one on the variables that occur. -/
theorem over_within_iff {S : Nat → Prop} :
    a.Over (Monomial.Within S) ↔ ∀ x ∈ a.vars, S x := by
  constructor
  · intro h x hx
    obtain ⟨t, ht, hx⟩ := mem_vars_iff.1 hx
    obtain ⟨e, he, rfl⟩ := List.mem_map.1 hx
    exact h t ht e he
  · intro h t ht e he
    exact h e.1 (mem_vars_iff.2 ⟨t, ht, SortedMap.mem_keys_of_mem he⟩)

/-- The stored coefficients are residues, and none of them is zero. -/
def Reduced (p : Nat) (a : Poly) : Prop := ∀ t ∈ a.terms.entries, 0 < t.2 ∧ t.2 < p

/-- A coefficient that is stored is not zero as a residue. -/
theorem Reduced.of_coeff? (ha : a.Reduced p) {m : Monomial} {c : Nat} (hc : a.coeff? m = some c) :
    c < p ∧ (c : ZMod p) ≠ 0 := by
  obtain ⟨hpos, hlt⟩ := ha (m, c) ((SortedMap.get?_eq_some_iff _ m c).1 hc)
  exact ⟨hlt, fun heq => hpos.ne' ((Residue.cast_eq_zero_iff hlt).1 heq)⟩

theorem Reduced.getD_coeff?_lt (ha : a.Reduced p) (hp : 0 < p) (m : Monomial) :
    (a.coeff? m).getD 0 < p := by
  cases hc : a.coeff? m with
  | none => exact hp
  | some c => exact (ha.of_coeff? hc).1

theorem reduced_addTerm (ha : a.Reduced p) (m : Monomial) {c : Nat} (hc : c < p) :
    (a.addTerm p m c).Reduced p := by
  have hp : 0 < p := by omega
  rw [addTerm]
  split
  · exact ha
  · rename_i h0
    apply SortedMap.forall_mem_alter (P := fun t => 0 < t.2 ∧ t.2 < p) ha
    intro v hv
    cases hg : a.terms.get? m with
    | none =>
      have : c = v := by simpa [hg] using hv
      omega
    | some d =>
      obtain ⟨hs, rfl⟩ : Residue.add p d c ≠ 0 ∧ Residue.add p d c = v := by simpa [hg] using hv
      exact ⟨Nat.pos_of_ne_zero hs, Residue.add_lt hp d c⟩

theorem reduced_foldl {α : Type} (g : α → Monomial) (c : α → Nat) {l : List α}
    (hl : ∀ t ∈ l, c t < p) (ha : a.Reduced p) :
    (l.foldl (fun r t => r.addTerm p (g t) (c t)) a).Reduced p := by
  induction l generalizing a with
  | nil => exact ha
  | cons t l ih =>
    exact ih (fun t ht => hl t (by simp [ht])) (reduced_addTerm ha _ (hl t (by simp)))

theorem reduced_zero : zero.Reduced p := by
  intro t ht
  simp [zero] at ht

theorem reduced_term (m : Monomial) {c : Nat} (hc : c < p) : (term m c).Reduced p := by
  rw [term]
  split
  · exact reduced_zero
  · intro t ht
    have ht : t = (m, c) := by simpa using ht
    rw [ht]
    exact ⟨by omega, hc⟩

theorem reduced_const {c : Nat} (hc : c < p) : (const c).Reduced p := reduced_term _ hc

theorem reduced_var (hp : 1 < p) (x : Nat) : (var x).Reduced p := reduced_term _ hp

theorem reduced_add (ha : a.Reduced p) (hb : b.Reduced p) : (add p a b).Reduced p :=
  reduced_foldl _ _ (fun t ht => (hb t ht).2) ha

theorem reduced_neg (ha : a.Reduced p) : (neg p a).Reduced p := by
  intro t ht
  obtain ⟨s, hs, rfl⟩ := List.mem_map.1 ht
  exact ⟨Residue.neg_pos (ha s hs).1 (ha s hs).2, Residue.neg_lt (ha s hs).1 (ha s hs).2⟩

theorem reduced_sub (ha : a.Reduced p) (hb : b.Reduced p) : (sub p a b).Reduced p :=
  reduced_add ha (reduced_neg hb)

/-- Products are reduced whatever their factors are. -/
theorem reduced_scale (hp : 0 < p) (a : Poly) (k : Nat) : (scale p a k).Reduced p :=
  reduced_foldl _ _ (fun _ _ => Residue.mul_lt hp _ _) reduced_zero

theorem reduced_mul (hp : 0 < p) (a b : Poly) : (mul p a b).Reduced p := by
  have fold (l : List (Monomial × Nat)) (r : Poly) (hr : r.Reduced p) :
      (l.foldl (fun r s => b.terms.entries.foldl
        (fun r t => r.addTerm p (s.1 * t.1) (Residue.mul p s.2 t.2)) r) r).Reduced p := by
    induction l generalizing r with
    | nil => exact hr
    | cons s l ih =>
      apply ih
      exact reduced_foldl _ _ (fun _ _ => Residue.mul_lt hp _ _) hr
  exact fold a.terms.entries zero reduced_zero

theorem Reduced.toMvPolynomial_sub (hb : b.Reduced p) (a : Poly) :
    (sub p a b).toMvPolynomial p = a.toMvPolynomial p - b.toMvPolynomial p :=
  Poly.toMvPolynomial_sub fun t ht => (hb t ht).2.le

end Poly

end CircuitTrace
