import CircuitTrace.Proofs.PartialEvaluation
import CircuitTrace.Proofs.Substitution

/-!
Polynomials in canonical form: the stored exponents are at least one, and the stored coefficients
are residues other than zero. The operations keep this form, products as long as no exponent
outgrows its word; adding the stored terms one by one builds the same polynomial again, and two
polynomials in this form are equal where they are the same formal polynomial.
-/
namespace CircuitTrace

namespace Monomial

/-- Every stored exponent is at least one. -/
def Canonical (m : Monomial) : Prop := ∀ e ∈ m.powers.entries, 0 < e.2

theorem canonical_one : one.Canonical := by
  intro e he
  simp [one] at he

theorem canonical_power (x : Nat) (e : UInt32) : (power x e).Canonical := by
  rw [power]
  split
  · exact canonical_one
  · intro d hd
    obtain rfl : d = (x, e) := by simpa using hd
    exact UInt32.pos_iff_ne_zero.2 ‹_›

/-- A variable that occurs has an exponent of at least one. -/
theorem Canonical.exponent_pos {m : Monomial} (hm : m.Canonical) {x : Nat} (hx : x ∈ m.vars) :
    0 < (m.exponent x).toNat := by
  obtain ⟨e, he, rfl⟩ := List.mem_map.1 hx
  rw [exponent_of_mem he]
  exact UInt32.lt_iff_toNat_lt.1 (hm e he)

theorem Canonical.mul {a b : Monomial} (ha : a.Canonical) (hb : b.Canonical) (h : a.Fits b) :
    (a * b).Canonical := by
  intro e he
  have hvars : e.1 ∈ a.vars ∨ e.1 ∈ b.vars :=
    within_mul (S := fun x => x ∈ a.vars ∨ x ∈ b.vars)
      (fun d hd => .inl (SortedMap.mem_keys_of_mem hd))
      (fun d hd => .inr (SortedMap.mem_keys_of_mem hd)) e he
  have hlt : (a.exponent e.1).toNat + (b.exponent e.1).toNat < 2 ^ 32 := h.exponent_add_lt e.1
  rw [← exponent_of_mem he, exponent_mul, UInt32.lt_iff_toNat_lt, UInt32.toNat_add,
    Nat.mod_eq_of_lt hlt]
  rcases hvars with hx | hx
  · exact Nat.add_pos_left (ha.exponent_pos hx) _
  · exact Nat.add_pos_right _ (hb.exponent_pos hx)

theorem exponent_power (x : Nat) (e : UInt32) (y : Nat) :
    (power x e).exponent y = if x = y then e else 0 := by
  rw [power]
  by_cases he : e = 0
  · simp [he, exponent, one]
  · rw [if_neg he, exponent, SortedMap.get?_insert]
    by_cases hy : y = x
    · simp [hy]
    · simp [hy, Ne.symm hy]

/-- The exponents that a list of powers has for a variable, added up as numbers. -/
def exponentSum (l : List (Nat × UInt32)) (x : Nat) : Nat :=
  (l.map fun e => if e.1 = x then e.2.toNat else 0).sum

/-- No exponent outgrows its word when a list of powers is multiplied. -/
def PowersFit (l : List (Nat × UInt32)) : Prop := ∀ e ∈ l, exponentSum l e.1 < UInt32.size

instance (l : List (Nat × UInt32)) : Decidable (PowersFit l) :=
  inferInstanceAs (Decidable (∀ e ∈ l, exponentSum l e.1 < UInt32.size))

theorem PowersFit.exponentSum_lt {l : List (Nat × UInt32)} (h : PowersFit l) (x : Nat) :
    exponentSum l x < UInt32.size := by
  by_cases hx : ∃ e ∈ l, e.1 = x
  · obtain ⟨e, he, rfl⟩ := hx
    exact h e he
  · have hzero : exponentSum l x = 0 := by
      apply List.sum_eq_zero
      intro n hn
      obtain ⟨e, he, rfl⟩ := List.mem_map.1 hn
      exact if_neg fun hex => hx ⟨e, he, hex⟩
    rw [hzero]
    decide

theorem exponentSum_entries (m : Monomial) (x : Nat) :
    exponentSum m.powers.entries x = (m.exponent x).toNat := by
  have hsum := m.powers.sum_entries_of_eq_zero (fun e => if e.1 = x then e.2.toNat else 0) x
    fun e _ hne => if_neg hne
  rw [exponentSum, hsum, exponent]
  cases m.powers.get? x <;> simp

theorem powersFit_entries (m : Monomial) : PowersFit m.powers.entries := fun e _ => by
  rw [exponentSum_entries]
  exact UInt32.toNat_lt_size _

/-- What holds of the empty product, and goes on to hold with every power that fits, holds of the
product of powers that fit together. -/
theorem PowersFit.ofPowers_induction {P : Monomial → Prop} {l : List (Nat × UInt32)}
    (h : PowersFit l) (hone : P one)
    (hmul : ∀ m x e, P m → m.Fits (power x e) → P (m * power x e)) : P (ofPowers l) := by
  -- The exponents so far and those to come stay within a word together.
  have fold (l : List (Nat × UInt32)) (m : Monomial) (hm : P m)
      (hl : ∀ x, (m.exponent x).toNat + exponentSum l x < UInt32.size) :
      P (l.foldl (fun m e => m * power e.1 e.2) m) := by
    induction l generalizing m with
    | nil => exact hm
    | cons e l ih =>
      have hsum (x : Nat) : (m.exponent x).toNat + ((power e.1 e.2).exponent x).toNat +
          exponentSum l x < UInt32.size := by
        have hx := hl x
        rw [exponentSum, List.map_cons, List.sum_cons, ← exponentSum, ← Nat.add_assoc] at hx
        rw [exponent_power]
        split at hx
        · rwa [if_pos ‹_›]
        · rwa [if_neg ‹_›]
      have hfits : m.Fits (power e.1 e.2) := by
        intro d hd
        have hd' := hsum d.1
        rw [exponent_of_mem hd] at hd'
        exact Nat.lt_of_le_of_lt (Nat.le_add_right _ _) hd'
      apply ih _ (hmul m e.1 e.2 hm hfits)
      intro x
      rw [exponent_mul, UInt32.toNat_add]
      exact Nat.lt_of_le_of_lt (Nat.add_le_add_right (Nat.mod_le _ _) _) (hsum x)
  exact fold l one hone fun x => (Nat.zero_add _).trans_lt (h.exponentSum_lt x)

theorem PowersFit.canonical {l : List (Nat × UInt32)} (h : PowersFit l) : (ofPowers l).Canonical :=
  h.ofPowers_induction canonical_one fun _ x e hm hfits => hm.mul (canonical_power x e) hfits

theorem Canonical.restrict {m : Monomial} (hm : m.Canonical) (test : Nat → Bool) :
    (m.restrict test).Canonical := fun e he => hm e (List.mem_filter.1 he).1

theorem mul_power (m : Monomial) (x : Nat) {e : UInt32} (he : 0 < e) :
    m * power x e = ⟨m.powers.alter x fun old => some (old.getD 0 + e)⟩ := by
  rw [power, if_neg (UInt32.pos_iff_ne_zero.1 he)]
  rfl

theorem Canonical.ofPowers_entries {m : Monomial} (h : m.Canonical) :
    ofPowers m.powers.entries = m := by
  have fold (l : List (Nat × UInt32)) (hl : ∀ e ∈ l, 0 < e.2) (a : SortedMap Nat UInt32) :
      l.foldl (fun m e => m * power e.1 e.2) ⟨a⟩ =
        ⟨l.foldl (fun m e => m.alter e.1 fun old => some (old.getD 0 + e.2)) a⟩ := by
    induction l generalizing a with
    | nil => rfl
    | cons e l ih =>
      rw [List.foldl_cons, List.foldl_cons, mul_power _ _ (hl e (by simp)),
        ih fun d hd => hl d (by simp [hd])]
  have hbuilt := SortedMap.foldl_alter_entries (fun e old => some (old.getD 0 + e.2)) m.powers
    fun e _ => congrArg some (UInt32.zero_add e.2)
  rw [ofPowers, one, fold _ h, hbuilt]

/-- Monomials with the same exponents are equal if they store no exponent of zero. -/
theorem Canonical.toFinsupp_inj {m m' : Monomial} (hm : m.Canonical) (hm' : m'.Canonical) :
    m.toFinsupp = m'.toFinsupp ↔ m = m' := by
  refine ⟨fun h => ?_, congrArg toFinsupp⟩
  have hpowers : m.powers = m'.powers := by
    apply SortedMap.ext_getD (fun e he => UInt32.pos_iff_ne_zero.1 (hm e he))
      fun e he => UInt32.pos_iff_ne_zero.1 (hm' e he)
    intro x
    have hx := DFunLike.congr_fun h x
    rw [toFinsupp_apply, toFinsupp_apply] at hx
    exact UInt32.toNat_inj.1 hx
  cases m
  cases m'
  exact congrArg Monomial.mk hpowers

end Monomial

namespace Poly

variable {p : Nat} {a b : Poly}

structure Canonical (p : Nat) (a : Poly) : Prop where
  reduced : a.Reduced p
  exponents : a.Over Monomial.Canonical

theorem canonical_iff : a.Canonical p ↔
    ∀ t ∈ a.terms.entries, (0 < t.2 ∧ t.2 < p) ∧ ∀ e ∈ t.1.powers.entries, 0 < e.2 :=
  ⟨fun h t ht => ⟨h.reduced t ht, h.exponents t ht⟩,
    fun h => ⟨fun t ht => (h t ht).1, fun t ht => (h t ht).2⟩⟩

theorem canonical_zero : zero.Canonical p := ⟨reduced_zero, over_zero⟩

theorem canonical_const {c : Nat} (hc : c < p) : (const c).Canonical p :=
  ⟨reduced_const hc, over_term Monomial.canonical_one c⟩

theorem canonical_one (hp : 1 < p) : one.Canonical p := canonical_const hp

theorem canonical_term {m : Monomial} (hm : m.Canonical) {c : Nat} (hc : c < p) :
    (term m c).Canonical p :=
  ⟨reduced_term m hc, over_term hm c⟩

theorem canonical_var (hp : 1 < p) (x : Nat) : (var x).Canonical p :=
  ⟨reduced_var hp x, over_term (Monomial.canonical_power x 1) 1⟩

namespace Canonical

theorem addTerm (ha : a.Canonical p) {m : Monomial} (hm : m.Canonical) {c : Nat} (hc : c < p) :
    (a.addTerm p m c).Canonical p :=
  ⟨reduced_addTerm ha.reduced m hc, over_addTerm ha.exponents hm c⟩

theorem add (ha : a.Canonical p) (hb : b.Canonical p) : (Poly.add p a b).Canonical p :=
  ⟨reduced_add ha.reduced hb.reduced, over_add ha.exponents hb.exponents⟩

theorem sub (ha : a.Canonical p) (hb : b.Canonical p) : (Poly.sub p a b).Canonical p :=
  ⟨reduced_sub ha.reduced hb.reduced, over_sub ha.exponents hb.exponents⟩

theorem mul (hp : 0 < p) (ha : a.Canonical p) (hb : b.Canonical p) (h : a.Fits b) :
    (Poly.mul p a b).Canonical p :=
  ⟨reduced_mul hp a b, over_mul_of_forall fun s hs t ht =>
    (ha.exponents s hs).mul (hb.exponents t ht) (h s hs t ht)⟩

theorem neg (ha : a.Canonical p) : (Poly.neg p a).Canonical p :=
  ⟨reduced_neg ha.reduced, over_neg ha.exponents⟩

theorem scale (hp : 0 < p) (ha : a.Canonical p) (k : Nat) : (Poly.scale p a k).Canonical p :=
  ⟨reduced_scale hp a k, over_scale ha.exponents k⟩

theorem evalPartial (hp : 0 < p) (ha : a.Canonical p) (values : Nat → Option Nat) :
    (a.evalPartial p values).Canonical p :=
  ⟨reduced_evalPartial hp ha.reduced,
    over_evalPartial ha.exponents fun _ hm => hm.restrict _⟩

theorem substitute (hp : 0 < p) {c : Constraint} {f : Nat → Poly}
    (h : ∀ wire, c.Mentions wire → (f wire).Canonical p) (hfits : c.Fits p f) :
    (c.substitute p f).Canonical p := by
  have part (l : LinearCombination) (hl : l ∈ c.parts) : (l.substitute p f).Canonical p :=
    ⟨LinearCombination.reduced_substitute hp f l,
      LinearCombination.over_substitute fun wire hwire => (h wire ⟨l, hl, hwire⟩).exponents⟩
  have hproduct := (part c.a c.a_mem_parts).mul hp (part c.b c.b_mem_parts) hfits
  exact hproduct.sub (part c.c c.c_mem_parts)

end Canonical

/-- What the coefficient of a monomial becomes when `c` is added to it. -/
def addCoefficient (p c : Nat) : Option Nat → Option Nat
  | none => some c
  | some d => if Residue.add p d c = 0 then none else some (Residue.add p d c)

theorem addTerm_of_pos (a : Poly) (m : Monomial) {c : Nat} (hc : 0 < c) :
    a.addTerm p m c = ⟨a.terms.alter m (addCoefficient p c)⟩ := by
  rw [addTerm, if_neg (Nat.ne_of_gt hc)]
  rfl

theorem Reduced.ofTerms_entries {a : Poly} (h : a.Reduced p) : ofTerms p a.terms.entries = a := by
  have fold (l : List (Monomial × Nat)) (hl : ∀ t ∈ l, 0 < t.2) (b : SortedMap Monomial Nat) :
      l.foldl (fun r t => r.addTerm p t.1 t.2) (Poly.mk b) =
        ⟨l.foldl (fun b t => b.alter t.1 (addCoefficient p t.2)) b⟩ := by
    induction l generalizing b with
    | nil => rfl
    | cons t l ih =>
      rw [List.foldl_cons, List.foldl_cons, addTerm_of_pos _ _ (hl t (by simp)),
        ih fun d hd => hl d (by simp [hd])]
  have hbuilt := SortedMap.foldl_alter_entries (fun t => addCoefficient p t.2) a.terms
    fun _ _ => rfl
  rw [ofTerms, zero, fold _ fun t ht => (h t ht).1, hbuilt]

/-- The coefficients of the formal polynomial are the stored ones, and zero where none is stored. -/
theorem coeff_toMvPolynomial (ha : a.Over Monomial.Canonical) {m : Monomial} (hm : m.Canonical) :
    (a.toMvPolynomial p).coeff m.toFinsupp = ((a.coeff? m).getD 0 : Nat) := by
  let F : Monomial × Nat → ZMod p := fun t =>
    (MvPolynomial.monomial t.1.toFinsupp (t.2 : ZMod p)).coeff m.toFinsupp
  have hother : ∀ t ∈ a.terms.entries, t.1 ≠ m → F t = 0 := by
    intro t ht hne
    exact (MvPolynomial.coeff_monomial _ _ _).trans <|
      if_neg fun h => hne (((ha t ht).toFinsupp_inj hm).1 h)
  have hsum := a.terms.sum_entries_of_eq_zero F m hother
  rw [toMvPolynomial, ← MvPolynomial.lcoeff_apply, map_list_sum, List.map_map]
  change (a.terms.entries.map F).sum = _
  rw [hsum, coeff?]
  cases a.terms.get? m <;> simp [F]

/-- Canonical polynomials that stand for the same formal polynomial are equal. -/
theorem Canonical.ext (hp : 0 < p) (ha : a.Canonical p) (hb : b.Canonical p)
    (h : a.toMvPolynomial p = b.toMvPolynomial p) : a = b := by
  have absent {d : Poly} (hd : d.Canonical p) {m : Monomial} (hm : ¬m.Canonical) :
      d.terms.get? m = none := by
    cases hget : d.terms.get? m with
    | none => rfl
    | some c => exact absurd (hd.exponents _ ((SortedMap.get?_eq_some_iff _ m c).1 hget)) hm
  have hterms : a.terms = b.terms := by
    apply SortedMap.ext_getD (fun t ht => (ha.reduced t ht).1.ne')
      fun t ht => (hb.reduced t ht).1.ne'
    intro m
    by_cases hm : m.Canonical
    · have hcoeff := congrArg (MvPolynomial.coeff m.toFinsupp) h
      rw [coeff_toMvPolynomial ha.exponents hm, coeff_toMvPolynomial hb.exponents hm] at hcoeff
      exact Residue.eq_of_cast_eq (ha.reduced.getD_coeff?_lt hp m) (hb.reduced.getD_coeff?_lt hp m)
        hcoeff
    · rw [absent ha hm, absent hb hm]
  cases a
  cases b
  exact congrArg Poly.mk hterms

end Poly

end CircuitTrace
