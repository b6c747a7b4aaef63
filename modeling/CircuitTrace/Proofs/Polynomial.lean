import CircuitTrace.Poly
import CircuitTrace.Proofs.Inversion
import CircuitTrace.Proofs.Residue
import CircuitTrace.Proofs.SortedMap

/-!
Sparse polynomials as formal polynomials over `ZMod p`. Every operation on stored terms is the
ring operation on formal polynomials, products as long as no exponent outgrows its word, and
evaluation at numbers is evaluation in `ZMod p`.
-/
namespace CircuitTrace

namespace Monomial

/-- All variables of a monomial are in a set. -/
def Within (S : Nat → Prop) (m : Monomial) : Prop := ∀ e ∈ m.powers.entries, S e.1

/-- The exponents of a monomial as a function of the variable. -/
noncomputable def toFinsupp (m : Monomial) : Nat →₀ Nat :=
  (m.powers.entries.map fun e => Finsupp.single e.1 e.2.toNat).sum

@[simp] theorem toFinsupp_one : one.toFinsupp = 0 := rfl

@[simp] theorem toFinsupp_var (x : Nat) : (var x).toFinsupp = Finsupp.single x 1 := by
  simp [toFinsupp, var, power]

theorem toFinsupp_apply (m : Monomial) (x : Nat) : m.toFinsupp x = (m.exponent x).toNat := by
  have hsum := m.powers.sum_entries_of_eq_zero (fun e => Finsupp.single e.1 e.2.toNat x) x
    fun e _ hne => Finsupp.single_eq_of_ne' hne
  rw [toFinsupp, ← Finsupp.applyAddHom_apply, map_list_sum, List.map_map]
  change (m.powers.entries.map fun e => Finsupp.single e.1 e.2.toNat x).sum = _
  rw [hsum, exponent]
  cases m.powers.get? x <;> simp

theorem exponent_of_mem {m : Monomial} {e : Nat × UInt32} (h : e ∈ m.powers.entries) :
    m.exponent e.1 = e.2 := by
  rw [exponent, (m.powers.get?_eq_some_iff e.1 e.2).2 h, Option.getD_some]

theorem exponent_alter (m : Monomial) (x : Nat) (e : UInt32) (y : Nat) :
    exponent ⟨m.powers.alter x fun old => some (old.getD 0 + e)⟩ y =
      m.exponent y + if x = y then e else 0 := by
  rw [exponent, SortedMap.get?_alter]
  by_cases hy : y = x
  · rw [if_pos hy, if_pos hy.symm, hy]
    rfl
  · rw [if_neg hy, if_neg (Ne.symm hy), add_zero]
    rfl

/-- As words, exponents add up whether or not the sum wraps around. -/
theorem exponent_mul (a b : Monomial) (x : Nat) :
    (a * b).exponent x = a.exponent x + b.exponent x := by
  have fold (l : List (Nat × UInt32)) (m : SortedMap Nat UInt32) :
      exponent ⟨l.foldl (fun m e => m.alter e.1 fun old => some (old.getD 0 + e.2)) m⟩ x =
        exponent ⟨m⟩ x + (l.map fun e => if e.1 = x then e.2 else 0).sum := by
    induction l generalizing m with
    | nil => simp
    | cons e l ih =>
      rw [List.foldl_cons, ih, List.map_cons, List.sum_cons, ← add_assoc]
      exact congrArg (· + _) (exponent_alter ⟨m⟩ e.1 e.2 x)
  have hsum := b.powers.sum_entries_of_eq_zero (fun e => if e.1 = x then e.2 else 0) x
    fun e _ hne => if_neg hne
  refine (fold b.powers.entries a.powers).trans ?_
  rw [hsum, exponent, exponent]
  cases b.powers.get? x <;> simp

theorem Fits.exponent_add_lt {a b : Monomial} (h : a.Fits b) (x : Nat) :
    (a.exponent x).toNat + (b.exponent x).toNat < UInt32.size := by
  cases hx : a.powers.get? x with
  | none =>
    have hzero : a.exponent x = 0 := by rw [exponent, hx, Option.getD_none]
    rw [hzero, UInt32.toNat_zero, Nat.zero_add]
    exact UInt32.toNat_lt_size _
  | some e =>
    have hmem := (a.powers.get?_eq_some_iff x e).1 hx
    rw [exponent_of_mem hmem]
    exact h (x, e) hmem

theorem Fits.symm {a b : Monomial} (h : a.Fits b) : b.Fits a := by
  intro e he
  have hlt := h.exponent_add_lt e.1
  rw [exponent_of_mem he] at hlt
  omega

theorem toFinsupp_mul {a b : Monomial} (h : a.Fits b) :
    (a * b).toFinsupp = a.toFinsupp + b.toFinsupp := by
  ext x
  rw [Finsupp.add_apply, toFinsupp_apply, toFinsupp_apply, toFinsupp_apply, exponent_mul,
    UInt32.toNat_add, Nat.mod_eq_of_lt (h.exponent_add_lt x)]

end Monomial

namespace Poly

variable {p : Nat}

/-- The formal polynomial that a list of terms stands for. -/
noncomputable def toMvPolynomial (p : Nat) (a : Poly) : MvPolynomial Nat (ZMod p) :=
  (a.terms.entries.map fun t => MvPolynomial.monomial t.1.toFinsupp (t.2 : ZMod p)).sum

@[simp] theorem toMvPolynomial_zero : zero.toMvPolynomial p = 0 := rfl

/-- Changing the coefficient of a monomial by `c` adds the term with coefficient `c`. A missing
coefficient is zero, before and after. -/
theorem toMvPolynomial_alter (a : Poly) (m : Monomial) (f : Option Nat → Option Nat) {c : ZMod p}
    (hf : (((f (a.terms.get? m)).getD 0 : Nat) : ZMod p) = ((a.terms.get? m).getD 0 : Nat) + c) :
    (Poly.mk (a.terms.alter m f)).toMvPolynomial p =
      a.toMvPolynomial p + MvPolynomial.monomial m.toFinsupp c := by
  let F : Monomial × Nat → MvPolynomial Nat (ZMod p) := fun t =>
    MvPolynomial.monomial t.1.toFinsupp (t.2 : ZMod p)
  have found (o : Option Nat) : o.elim 0 (fun v => F (m, v)) =
      MvPolynomial.monomial m.toFinsupp ((o.getD 0 : Nat) : ZMod p) := by
    cases o with
    | none => simp
    | some d => rfl
  have h := SortedMap.sum_alterEntries F m f a.terms.entries
  rw [found, found] at h
  change ((SortedMap.alterEntries m f a.terms.entries).map F).sum = _
  have hm : SortedMap.lookup m a.terms.entries = a.terms.get? m := rfl
  rw [hm, hf, map_add, ← add_assoc, add_right_comm] at h
  exact add_right_cancel h

theorem toMvPolynomial_addTerm (a : Poly) (m : Monomial) (c : Nat) :
    (a.addTerm p m c).toMvPolynomial p =
      a.toMvPolynomial p + MvPolynomial.monomial m.toFinsupp (c : ZMod p) := by
  rw [addTerm]
  split
  · rename_i hc
    simp [hc]
  · apply toMvPolynomial_alter
    cases a.terms.get? m with
    | none => simp
    | some d =>
      have hs : (Residue.add p d c : ZMod p) = d + c := Residue.cast_add p d c
      rw [Option.getD_some, ← hs]
      dsimp only
      split
      · rename_i hzero
        rw [hzero, Option.getD_none]
      · rw [Option.getD_some]

/-- Adding the terms of a list one by one adds their sum. -/
theorem toMvPolynomial_foldl {α : Type} (g : α → Monomial) (c : α → Nat) (l : List α) (a : Poly) :
    (l.foldl (fun r t => r.addTerm p (g t) (c t)) a).toMvPolynomial p =
      a.toMvPolynomial p +
        (l.map fun t => MvPolynomial.monomial (g t).toFinsupp (c t : ZMod p)).sum := by
  induction l generalizing a with
  | nil => simp
  | cons t l ih =>
    rw [List.foldl_cons, ih, toMvPolynomial_addTerm, List.map_cons, List.sum_cons, add_assoc]

theorem toMvPolynomial_term (m : Monomial) (c : Nat) :
    (term m c).toMvPolynomial p = MvPolynomial.monomial m.toFinsupp (c : ZMod p) := by
  rw [term]
  split
  · rename_i hc
    simp [hc]
  · simp [toMvPolynomial]

@[simp] theorem toMvPolynomial_const (c : Nat) :
    (const c).toMvPolynomial p = MvPolynomial.C (c : ZMod p) := by
  rw [const, toMvPolynomial_term, Monomial.toFinsupp_one, MvPolynomial.C_apply]

@[simp] theorem toMvPolynomial_one : one.toMvPolynomial p = 1 := by
  rw [one, toMvPolynomial_const, Nat.cast_one, MvPolynomial.C_1]

@[simp] theorem toMvPolynomial_var (x : Nat) : (var x).toMvPolynomial p = MvPolynomial.X x := by
  rw [var, toMvPolynomial_term, Monomial.toFinsupp_var, Nat.cast_one, MvPolynomial.X]

@[simp] theorem toMvPolynomial_add (a b : Poly) :
    (add p a b).toMvPolynomial p = a.toMvPolynomial p + b.toMvPolynomial p :=
  toMvPolynomial_foldl _ _ _ _

@[simp] theorem toMvPolynomial_scale (a : Poly) (k : Nat) :
    (scale p a k).toMvPolynomial p = a.toMvPolynomial p * MvPolynomial.C (k : ZMod p) := by
  rw [scale, toMvPolynomial_foldl, toMvPolynomial_zero, zero_add, toMvPolynomial,
    ← List.sum_map_mul_right]
  congr 1
  apply List.map_congr_left
  intro t _
  rw [mul_comm, MvPolynomial.C_mul_monomial, Residue.cast_mul, mul_comm]

theorem toMvPolynomial_mul {a b : Poly} (h : a.Fits b) :
    (mul p a b).toMvPolynomial p = a.toMvPolynomial p * b.toMvPolynomial p := by
  have fold (l : List (Monomial × Nat)) (hl : ∀ s ∈ l, ∀ t ∈ b.terms.entries, s.1.Fits t.1)
      (r : Poly) : (l.foldl (fun r s => b.terms.entries.foldl
        (fun r t => r.addTerm p (s.1 * t.1) (Residue.mul p s.2 t.2)) r) r).toMvPolynomial p =
        r.toMvPolynomial p +
          (l.map fun s => MvPolynomial.monomial s.1.toFinsupp (s.2 : ZMod p)).sum *
            b.toMvPolynomial p := by
    induction l generalizing r with
    | nil => simp
    | cons s l ih =>
      have row : (b.terms.entries.map fun t => MvPolynomial.monomial (s.1 * t.1).toFinsupp
          ((Residue.mul p s.2 t.2 : Nat) : ZMod p)).sum =
          MvPolynomial.monomial s.1.toFinsupp (s.2 : ZMod p) * b.toMvPolynomial p := by
        rw [toMvPolynomial, ← List.sum_map_mul_left]
        congr 1
        apply List.map_congr_left
        intro t ht
        rw [Monomial.toFinsupp_mul (hl s (by simp) t ht), Residue.cast_mul,
          MvPolynomial.monomial_mul]
      rw [List.foldl_cons, ih fun s hs => hl s (by simp [hs]), toMvPolynomial_foldl, row,
        List.map_cons, List.sum_cons, add_mul, add_assoc]
  rw [mul, fold _ h, toMvPolynomial_zero, zero_add]
  rfl

/-- Negation is exact only on coefficients up to the modulus. -/
theorem toMvPolynomial_neg {a : Poly} (h : ∀ t ∈ a.terms.entries, t.2 ≤ p) :
    (neg p a).toMvPolynomial p = -a.toMvPolynomial p := by
  rw [toMvPolynomial, toMvPolynomial, neg, SortedMap.mapValues, List.map_map, List.sum_neg,
    List.map_map]
  congr 1
  apply List.map_congr_left
  intro t ht
  simp only [Function.comp_apply, Residue.cast_neg (h t ht), map_neg]

theorem toMvPolynomial_sub {a b : Poly} (h : ∀ t ∈ b.terms.entries, t.2 ≤ p) :
    (sub p a b).toMvPolynomial p = a.toMvPolynomial p - b.toMvPolynomial p := by
  rw [sub, toMvPolynomial_add, toMvPolynomial_neg h, sub_eq_add_neg]

end Poly

section Evaluation

variable {p : Nat} {values : Nat → Option Nat}

theorem Monomial.prod_toFinsupp {R : Type} [CommSemiring R] (m : Monomial) (v : Nat → R) :
    (m.toFinsupp.prod fun x e => v x ^ e) =
      (m.powers.entries.map fun e => v e.1 ^ e.2.toNat).prod := by
  have fold (l : List (Nat × UInt32)) :
      ((l.map fun e => Finsupp.single e.1 e.2.toNat).sum.prod fun x e => v x ^ e) =
        (l.map fun e => v e.1 ^ e.2.toNat).prod := by
    induction l with
    | nil => simp
    | cons e l ih =>
      rw [List.map_cons, List.sum_cons,
        Finsupp.prod_add_index' (fun _ => pow_zero _) (fun _ => pow_add _), ih,
        Finsupp.prod_single_index (h := fun x e => v x ^ e) (pow_zero _), List.map_cons,
        List.prod_cons]
  exact fold m.powers.entries

namespace Poly

/-- The values of an assignment as residues, zero where there is none. -/
def valuation (p : Nat) (values : Nat → Option Nat) (x : Nat) : ZMod p := ((values x).getD 0 : Nat)

/-- All monomials of a polynomial satisfy a condition. -/
def Over (Q : Monomial → Prop) (a : Poly) : Prop := ∀ t ∈ a.terms.entries, Q t.1

theorem evalTerm_cast {m : Monomial} {c r : Nat} (h : evalTerm p values m c = .ok r) :
    (r : ZMod p) = MvPolynomial.eval (valuation p values)
      (MvPolynomial.monomial m.toFinsupp (c : ZMod p)) := by
  rw [MvPolynomial.eval_monomial, Monomial.prod_toFinsupp]
  rw [evalTerm] at h
  generalize m.powers.entries = l at h ⊢
  induction l generalizing c with
  | nil =>
    cases h
    simp
  | cons e l ih =>
    cases hv : values e.1 with
    | none => simp [hv, bind, Except.bind] at h
    | some v =>
      simp only [List.foldlM_cons, hv, bind, Except.bind] at h
      rw [ih h, List.map_cons, List.prod_cons, Residue.cast_mul, Residue.cast_pow, mul_assoc]
      simp [valuation, hv]

theorem exists_evalTerm {m : Monomial} (h : m.Within fun x => (values x).isSome)
    (c : Nat) : ∃ r, evalTerm p values m c = .ok r := by
  rw [evalTerm]
  unfold Monomial.Within at h
  generalize m.powers.entries = l at h
  induction l generalizing c with
  | nil => exact ⟨c, rfl⟩
  | cons e l ih =>
    obtain ⟨v, hv⟩ := Option.isSome_iff_exists.1 (h e (by simp))
    obtain ⟨r, hr⟩ :=
      ih (Residue.mul p c (Residue.pow p v e.2.toNat)) fun e he => h e (by simp [he])
    exact ⟨r, by simpa [hv, bind, Except.bind] using hr⟩

/-- The value of a polynomial, where it has one, is that of the formal polynomial. -/
theorem eval_cast {a : Poly} {r : Nat} (h : a.eval p values = .ok r) :
    (r : ZMod p) = MvPolynomial.eval (valuation p values) (a.toMvPolynomial p) := by
  have fold (l : List (Monomial × Nat)) (s : Nat)
      (h : l.foldlM (fun s t => (evalTerm p values t.1 t.2).map (Residue.add p s)) s = .ok r) :
      (r : ZMod p) = s + MvPolynomial.eval (valuation p values)
        (l.map fun t => MvPolynomial.monomial t.1.toFinsupp (t.2 : ZMod p)).sum := by
    induction l generalizing s with
    | nil =>
      cases h
      simp
    | cons t l ih =>
      cases ht : evalTerm p values t.1 t.2 with
      | error e => simp [ht, bind, Except.bind, Except.map] at h
      | ok v =>
        simp only [List.foldlM_cons, ht, bind, Except.bind, Except.map] at h
        rw [ih _ h, List.map_cons, List.sum_cons, map_add, ← evalTerm_cast ht, Residue.cast_add,
          add_assoc]
  have := fold a.terms.entries 0 h
  rwa [Nat.cast_zero, zero_add] at this

theorem eval_lt {a : Poly} {r : Nat} (hp : 0 < p) (h : a.eval p values = .ok r) : r < p := by
  apply foldlM_eq_ok_induction h hp
  intro t _ s s' _ hterm
  obtain ⟨c, -, rfl⟩ := map_eq_ok_iff.1 hterm
  exact Residue.add_lt hp s c

theorem exists_eval {a : Poly} (h : a.Over (Monomial.Within fun x => (values x).isSome)) :
    ∃ r, a.eval p values = .ok r := by
  rw [eval]
  unfold Over at h
  generalize a.terms.entries = l at h
  generalize 0 = s
  induction l generalizing s with
  | nil => exact ⟨s, rfl⟩
  | cons t l ih =>
    obtain ⟨v, hv⟩ := exists_evalTerm (p := p) (h t (by simp)) t.2
    obtain ⟨r, hr⟩ := ih (fun t ht => h t (by simp [ht])) (Residue.add p s v)
    exact ⟨r, by simpa [hv, bind, Except.bind, Except.map] using hr⟩

/-- A polynomial evaluates to zero exactly where the formal one vanishes. -/
theorem eval_eq_zero_iff {a : Poly} (hp : 0 < p)
    (h : a.Over (Monomial.Within fun x => (values x).isSome)) :
    a.eval p values = .ok 0 ↔ MvPolynomial.eval (valuation p values) (a.toMvPolynomial p) = 0 := by
  obtain ⟨r, hr⟩ := exists_eval (p := p) h
  rw [← eval_cast hr, Residue.cast_eq_zero_iff (eval_lt hp hr), hr]
  exact ⟨fun h => Except.ok.inj h, fun h => congrArg _ h⟩

end Poly

end Evaluation

end CircuitTrace
