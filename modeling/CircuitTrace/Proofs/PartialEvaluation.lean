import CircuitTrace.Proofs.Terms

/-!
Substituting the known variables of a polynomial. Wherever the known variables have their values,
the polynomial that is left has the value of the whole; and of a polynomial whose terms have at most
two variables, with one variable unknown, a quadratic in that variable is left.
-/
namespace CircuitTrace

namespace Monomial

theorem restrict_mul (test : Nat → Bool) (a b : Monomial) :
    (a * b).restrict test = a.restrict test * b.restrict test := by
  have fold (l : List (Nat × UInt32)) (m : SortedMap Nat UInt32) :
      (l.foldl (fun m e => m.alter e.1 fun old => some (old.getD 0 + e.2)) m).filter
          (fun e => test e.1) =
        (l.filter fun e => test e.1).foldl
          (fun m e => m.alter e.1 fun old => some (old.getD 0 + e.2))
          (m.filter fun e => test e.1) := by
    induction l generalizing m with
    | nil => rfl
    | cons e l ih =>
      rw [List.foldl_cons, ih, SortedMap.filter_alter, List.filter_cons]
      split <;> rfl
  exact congrArg Monomial.mk (fold b.powers.entries a.powers)

theorem restrict_var (test : Nat → Bool) (x : Nat) :
    (var x).restrict test = if test x then var x else one := by
  have h := SortedMap.filter_alter (.empty : SortedMap Nat UInt32) test x fun _ => some 1
  rw [restrict]
  change Monomial.mk ((SortedMap.empty.alter x fun _ => some 1).filter fun e => test e.1) = _
  rw [h]
  split <;> rfl

theorem one_mul_var (x : Nat) : one * var x = var x := rfl

theorem mul_one (m : Monomial) : m * one = m := rfl

theorem var_mul_var (x : Nat) : var x * var x = power x 2 := by
  apply congrArg Monomial.mk
  apply SortedMap.ext_get?
  intro y
  change ((SortedMap.empty.insert x 1).alter x fun old => some (old.getD 0 + 1)).get? y =
    (SortedMap.empty.insert x 2).get? y
  rw [SortedMap.get?_alter, SortedMap.get?_insert, SortedMap.get?_insert, SortedMap.get?_insert]
  split <;> simp

theorem toFinsupp_power (x : Nat) (e : UInt32) :
    (power x e).toFinsupp = Finsupp.single x e.toNat := by
  rw [power]
  split
  · rename_i h
    simp [h]
  · simp [toFinsupp]

end Monomial

namespace Poly

variable {p : Nat} {values : Nat → Option Nat}

theorem scaleByKnown_eq (m : Monomial) (c : Nat) : scaleByKnown p values m c =
    m.powers.entries.foldl
      (fun c e => (values e.1).elim c fun v => Residue.mul p c (Residue.pow p v e.2.toNat)) c := by
  rw [scaleByKnown]
  congr
  funext c e
  cases values e.1 <;> rfl

theorem scaleByKnown_lt (hp : 0 < p) (m : Monomial) {c : Nat} (hc : c < p) :
    scaleByKnown p values m c < p := by
  rw [scaleByKnown_eq]
  generalize m.powers.entries = l
  induction l generalizing c with
  | nil => exact hc
  | cons e l ih =>
    rw [List.foldl_cons]
    apply ih
    cases values e.1 with
    | none => exact hc
    | some v => exact Residue.mul_lt hp _ _

section Values

variable {R : Type} [CommRing R] [Algebra (ZMod p) R] {u : Nat → R}

/-- The known part of a term goes into its coefficient, and the rest stays. -/
theorem aeval_restrict (hu : ∀ x v, values x = some v → u x = v) (m : Monomial) (c : Nat) :
    MvPolynomial.aeval u (MvPolynomial.monomial
        (m.restrict fun x => (values x).isNone).toFinsupp
        ((scaleByKnown p values m c : Nat) : ZMod p)) =
      MvPolynomial.aeval u (MvPolynomial.monomial m.toFinsupp (c : ZMod p)) := by
  have fold (l : List (Nat × UInt32)) (c : Nat) :
      algebraMap (ZMod p) R (l.foldl (fun c e => (values e.1).elim c fun v =>
          Residue.mul p c (Residue.pow p v e.2.toNat)) c : Nat) *
        ((l.filter fun e => (values e.1).isNone).map fun e => u e.1 ^ e.2.toNat).prod =
        algebraMap (ZMod p) R c * (l.map fun e => u e.1 ^ e.2.toNat).prod := by
    induction l generalizing c with
    | nil => rfl
    | cons e l ih =>
      cases hv : values e.1 with
      | none =>
        simp only [List.foldl_cons, List.filter_cons, hv, Option.elim_none, Option.isNone_none,
          if_true, List.map_cons, List.prod_cons]
        rw [mul_left_comm, ih, mul_left_comm]
      | some v =>
        simp only [List.foldl_cons, List.filter_cons, hv, Option.elim_some, Option.isNone_some,
          Bool.false_eq_true, if_false, List.map_cons, List.prod_cons]
        rw [ih, Residue.cast_mul, Residue.cast_pow, hu _ _ hv, map_mul, map_pow, map_natCast,
          map_natCast, mul_assoc]
  rw [MvPolynomial.aeval_monomial, MvPolynomial.aeval_monomial, Monomial.prod_toFinsupp,
    Monomial.prod_toFinsupp, scaleByKnown_eq]
  exact fold m.powers.entries c

/-- What is left of a polynomial has its value, in whatever ring and wherever the known variables
have theirs. -/
theorem aeval_evalPartial (hu : ∀ x v, values x = some v → u x = v) (a : Poly) :
    MvPolynomial.aeval u ((a.evalPartial p values).toMvPolynomial p) =
      MvPolynomial.aeval u (a.toMvPolynomial p) := by
  rw [evalPartial, toMvPolynomial_foldl, toMvPolynomial_zero, zero_add, toMvPolynomial,
    map_list_sum, map_list_sum, List.map_map, List.map_map]
  congr 1
  apply List.map_congr_left
  intro t _
  exact aeval_restrict hu t.1 t.2

end Values

theorem eval_evalPartial {u : Nat → ZMod p} (hu : ∀ x v, values x = some v → u x = v) (a : Poly) :
    MvPolynomial.eval u ((a.evalPartial p values).toMvPolynomial p) =
      MvPolynomial.eval u (a.toMvPolynomial p) := by
  rw [← MvPolynomial.aeval_eq_eval]
  exact aeval_evalPartial hu a

theorem reduced_evalPartial (hp : 0 < p) {a : Poly} (ha : a.Reduced p) :
    (a.evalPartial p values).Reduced p :=
  reduced_foldl _ _ (fun t ht => scaleByKnown_lt hp t.1 (ha t ht).2) reduced_zero

theorem over_evalPartial {a : Poly} {Q R : Monomial → Prop} (ha : a.Over Q)
    (h : ∀ m, Q m → R (m.restrict fun x => (values x).isNone)) : (a.evalPartial p values).Over R :=
  over_foldl _ _ (fun t ht => h t.1 (ha t ht)) over_zero

/-- Only the values of variables that occur matter. -/
theorem evalPartial_congr {values' : Nat → Option Nat} {a : Poly}
    (h : a.Over (Monomial.Within fun x => values x = values' x)) :
    a.evalPartial p values = a.evalPartial p values' := by
  rw [evalPartial, evalPartial]
  apply List.foldl_ext
  intro r t ht
  have hvalues : ∀ e ∈ t.1.powers.entries, values e.1 = values' e.1 := h t ht
  congr 1
  · rw [Monomial.restrict, Monomial.restrict, SortedMap.filter, SortedMap.filter]
    congr 2
    apply List.filter_congr
    intro e he
    rw [hvalues e he]
  · rw [scaleByKnown, scaleByKnown]
    apply List.foldl_ext
    intro c e he
    rw [hvalues e he]

/-- A polynomial in the powers of one variable up to its square. -/
abbrev Quadratic (wire : Nat) (a : Poly) : Prop :=
  a.Over (· ∈ [Monomial.one, Monomial.var wire, Monomial.power wire 2])

theorem nodup_powers (wire : Nat) :
    [Monomial.one, Monomial.var wire, Monomial.power wire 2].Nodup := by
  apply List.Nodup.of_map Monomial.degree
  change [0, 1, 2].Nodup
  decide

theorem Quadratic.aeval_eq {R : Type} [CommRing R] [Algebra (ZMod p) R] {wire : Nat} {a : Poly}
    (ha : a.Quadratic wire) (u : Nat → R) :
    MvPolynomial.aeval u (a.toMvPolynomial p) = (a.constTerm?.getD 0 : Nat) +
      (((a.coeff? (.var wire)).getD 0 : Nat) * u wire +
        ((a.coeff? (.power wire 2)).getD 0 : Nat) * u wire ^ 2) := by
  have term (o : Option Nat) (m : Monomial) : MvPolynomial.aeval u
      (o.elim 0 fun v => MvPolynomial.monomial m.toFinsupp (v : ZMod p)) =
        (o.getD 0 : Nat) * m.toFinsupp.prod fun x e => u x ^ e := by
    cases o with
    | none => simp
    | some v => simp [MvPolynomial.aeval_monomial]
  rw [toMvPolynomial, a.terms.sum_entries _ (nodup_powers wire) ha]
  simp only [List.map_cons, List.map_nil, List.sum_cons, List.sum_nil, map_add, map_zero, term]
  simp [constTerm?, coeff?, Monomial.toFinsupp_power]

theorem Quadratic.eval_eq {wire : Nat} {a : Poly} (ha : a.Quadratic wire) (u : Nat → ZMod p) :
    MvPolynomial.eval u (a.toMvPolynomial p) = (a.constTerm?.getD 0 : Nat) +
      (((a.coeff? (.var wire)).getD 0 : Nat) * u wire +
        ((a.coeff? (.power wire 2)).getD 0 : Nat) * u wire ^ 2) := by
  rw [← MvPolynomial.aeval_eq_eval]
  exact ha.aeval_eq u

theorem Quadratic.size_eq {wire : Nat} {a : Poly} (ha : a.Quadratic wire) :
    a.size = a.constTerm?.elim 0 (fun _ => 1) + ((a.coeff? (.var wire)).elim 0 (fun _ => 1) +
      (a.coeff? (.power wire 2)).elim 0 fun _ => 1) := by
  have h := a.terms.sum_entries (fun _ => 1) (nodup_powers wire) ha
  simpa [size, SortedMap.size, constTerm?, coeff?] using h

theorem Quadratic.mem_vars_iff {wire : Nat} {a : Poly} (ha : a.Quadratic wire) : wire ∈ a.vars ↔
    (a.coeff? (.var wire)).isSome = true ∨ (a.coeff? (.power wire 2)).isSome = true := by
  have found (m : Monomial) : (a.coeff? m).isSome = true ↔ ∃ t ∈ a.terms.entries, t.1 = m := by
    rw [Option.isSome_iff_exists]
    constructor
    · rintro ⟨c, hc⟩
      exact ⟨(m, c), (SortedMap.get?_eq_some_iff _ m c).1 hc, rfl⟩
    · rintro ⟨t, ht, rfl⟩
      exact ⟨t.2, (SortedMap.get?_eq_some_iff _ t.1 t.2).2 ht⟩
  rw [Poly.mem_vars_iff, found, found]
  constructor
  · rintro ⟨t, ht, hx⟩
    have hm := ha t ht
    simp only [List.mem_cons, List.not_mem_nil, or_false] at hm
    rcases hm with hm | hm | hm
    · rw [hm] at hx
      cases hx
    · exact .inl ⟨t, ht, hm⟩
    · exact .inr ⟨t, ht, hm⟩
  · rintro (⟨t, ht, hm⟩ | ⟨t, ht, hm⟩)
    · exact ⟨t, ht, hm ▸ List.mem_singleton.2 rfl⟩
    · exact ⟨t, ht, hm ▸ List.mem_singleton.2 rfl⟩

end Poly

end CircuitTrace
