import CircuitTrace.Proofs.Terms

/-!
Degrees. Terms that cancel can only lower the degree of a sum or a product, and so can an exponent
that wraps around; so what is known of formal polynomials holds as an upper bound: the degrees of
factors add up, and that of a sum or a difference is at most the greater one. Polynomials of small
degree can therefore be multiplied without an exponent that outgrows its word.
-/
namespace CircuitTrace

namespace Monomial

/-- The sum of the exponents as a number. -/
def totalDegree (m : Monomial) : Nat := m.powers.entries.foldr (fun e d => e.2.toNat + d) 0

theorem totalDegree_eq (m : Monomial) : m.totalDegree = m.toFinsupp.degree := by
  have fold (l : List (Nat × UInt32)) : l.foldr (fun e d => e.2.toNat + d) 0 =
      (l.map fun e => Finsupp.single e.1 e.2.toNat).sum.degree := by
    induction l with
    | nil => simp
    | cons e l ih => rw [List.foldr_cons, ih, List.map_cons, List.sum_cons, map_add,
        Finsupp.degree_single]
  exact fold m.powers.entries

theorem totalDegree_var (x : Nat) : (var x).totalDegree = 1 := by
  rw [totalDegree_eq, toFinsupp_var, Finsupp.degree_single]

/-- The degree that is computed is the remainder of the degree. -/
theorem toNat_degree (m : Monomial) : m.degree.toNat = m.totalDegree % UInt32.size := by
  have fold (l : List (Nat × UInt32)) : (l.foldr (fun e d => e.2 + d) (0 : UInt32)).toNat =
      l.foldr (fun e d => e.2.toNat + d) 0 % UInt32.size := by
    induction l with
    | nil => rfl
    | cons e l ih =>
      rw [List.foldr_cons, List.foldr_cons, UInt32.toNat_add, ih, Nat.add_mod_mod]
  exact fold m.powers.entries

theorem exponent_le_totalDegree (m : Monomial) (x : Nat) :
    (m.exponent x).toNat ≤ m.totalDegree := by
  rw [totalDegree_eq, ← toFinsupp_apply]
  exact Finsupp.le_degree x m.toFinsupp

theorem totalDegree_mul_le (a b : Monomial) :
    (a * b).totalDegree ≤ a.totalDegree + b.totalDegree := by
  rw [totalDegree_eq, totalDegree_eq, totalDegree_eq, ← map_add]
  apply Finsupp.degree_mono
  intro x
  rw [Finsupp.add_apply, toFinsupp_apply, toFinsupp_apply, toFinsupp_apply, exponent_mul,
    UInt32.toNat_add]
  exact Nat.mod_le _ _

theorem fits_of_totalDegree {a b : Monomial} (h : a.totalDegree + b.totalDegree < UInt32.size) :
    a.Fits b := by
  intro e he
  rw [← exponent_of_mem he]
  have ha := a.exponent_le_totalDegree e.1
  have hb := b.exponent_le_totalDegree e.1
  omega

end Monomial

namespace Poly

variable {p d : Nat} {a b : Poly}

/-- The greatest degree of a term as a number, and zero if there is none. -/
def totalDegree (a : Poly) : Nat := a.terms.keys.foldl (fun d m => max d m.totalDegree) 0

theorem totalDegree_le_iff : a.totalDegree ≤ d ↔ a.Over fun m => m.totalDegree ≤ d := by
  have fold (l : List Monomial) (s : Nat) :
      l.foldl (fun d m => max d m.totalDegree) s ≤ d ↔ s ≤ d ∧ ∀ m ∈ l, m.totalDegree ≤ d := by
    induction l generalizing s with
    | nil => simp
    | cons m l ih => rw [List.foldl_cons, ih, max_le_iff, and_assoc, List.forall_mem_cons]
  rw [totalDegree, fold, and_iff_right (Nat.zero_le d)]
  exact List.forall_mem_map

/-- No degree wraps around if none reaches the size of a word. -/
theorem toNat_degree (h : a.totalDegree < UInt32.size) : a.degree.toNat = a.totalDegree := by
  have fold (l : List Monomial) (hl : ∀ m ∈ l, m.totalDegree < UInt32.size) (s : UInt32) :
      (l.foldl (fun d m => max d m.degree) s).toNat =
        l.foldl (fun d m => max d m.totalDegree) s.toNat := by
    induction l generalizing s with
    | nil => rfl
    | cons m l ih =>
      obtain ⟨hm, hl⟩ := List.forall_mem_cons.1 hl
      have hdegree : m.degree.toNat = m.totalDegree := by
        rw [Monomial.toNat_degree, Nat.mod_eq_of_lt hm]
      rw [List.foldl_cons, ih hl, UInt32.toNat_max, hdegree, List.foldl_cons]
  refine fold a.terms.keys (fun m hm => ?_) 0
  obtain ⟨t, ht, rfl⟩ := List.mem_map.1 hm
  exact (totalDegree_le_iff.1 le_rfl t ht).trans_lt h

theorem totalDegree_const_le (c d : Nat) : (const c).totalDegree ≤ d :=
  totalDegree_le_iff.2 (over_term (Nat.zero_le d) c)

theorem totalDegree_var (x : Nat) : (var x).totalDegree = 1 := by
  have hle : (var x).totalDegree ≤ 1 :=
    totalDegree_le_iff.2 (over_term (Monomial.totalDegree_var x).le 1)
  have hge : (Monomial.var x).totalDegree ≤ (var x).totalDegree :=
    totalDegree_le_iff.1 le_rfl (.var x, 1) (by simp [var, term])
  rw [Monomial.totalDegree_var] at hge
  omega

theorem totalDegree_add_le_of_le (ha : a.totalDegree ≤ d) (hb : b.totalDegree ≤ d) :
    (add p a b).totalDegree ≤ d :=
  totalDegree_le_iff.2 (over_add (totalDegree_le_iff.1 ha) (totalDegree_le_iff.1 hb))

theorem totalDegree_sub_le_of_le (ha : a.totalDegree ≤ d) (hb : b.totalDegree ≤ d) :
    (sub p a b).totalDegree ≤ d :=
  totalDegree_le_iff.2 (over_sub (totalDegree_le_iff.1 ha) (totalDegree_le_iff.1 hb))

theorem totalDegree_mul_le_of_le {e : Nat} (ha : a.totalDegree ≤ d) (hb : b.totalDegree ≤ e) :
    (mul p a b).totalDegree ≤ d + e := by
  refine totalDegree_le_iff.2 <|
    over_mul (totalDegree_le_iff.1 ha) (totalDegree_le_iff.1 hb) fun m n hm hn => ?_
  exact (Monomial.totalDegree_mul_le m n).trans (Nat.add_le_add hm hn)

theorem fits_of_totalDegree {e : Nat} (ha : a.totalDegree ≤ d) (hb : b.totalDegree ≤ e)
    (h : d + e < UInt32.size) : a.Fits b := by
  intro s hs t ht
  have hsd := totalDegree_le_iff.1 ha s hs
  have hte := totalDegree_le_iff.1 hb t ht
  exact Monomial.fits_of_totalDegree (by omega)

/-- Of degree one at most. -/
def Affine (a : Poly) : Prop := a.totalDegree ≤ 1

theorem affine_const (c : Nat) : (const c).Affine := totalDegree_const_le c 1

theorem affine_one : one.Affine := affine_const 1

theorem affine_var (x : Nat) : (var x).Affine := (totalDegree_var x).le

theorem Affine.add (ha : a.Affine) (hb : b.Affine) : (Poly.add p a b).Affine :=
  totalDegree_add_le_of_le ha hb

theorem Affine.sub (ha : a.Affine) (hb : b.Affine) : (Poly.sub p a b).Affine :=
  totalDegree_sub_le_of_le ha hb

theorem Affine.fits (ha : a.Affine) (hb : b.Affine) : a.Fits b :=
  fits_of_totalDegree ha hb (by decide)

end Poly

end CircuitTrace
