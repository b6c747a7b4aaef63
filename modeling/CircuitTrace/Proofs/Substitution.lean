import CircuitTrace.Circuit.Constraint
import CircuitTrace.Proofs.Degree

/-!
Constraints over `ZMod p`. Substituting polynomials for wires and then evaluating gives the value
of the constraint at the values of these polynomials, as long as the one product in it can be formed
without an exponent that outgrows its word; in particular a residual is zero exactly where the
substituted polynomial vanishes.
-/
namespace CircuitTrace

variable {p : Nat}

namespace LinearCombination

/-- The value for values of the wires in `ZMod p`. -/
def dot (u : Nat → ZMod p) (l : LinearCombination) : ZMod p :=
  (l.entries.map fun e => (e.2 : ZMod p) * u e.1).sum

theorem dot_congr {u u' : Nat → ZMod p} {l : LinearCombination} (h : ∀ w ∈ l.keys, u w = u' w) :
    l.dot u = l.dot u' := by
  rw [dot, dot]
  congr 1
  apply List.map_congr_left
  intro e he
  rw [h e.1 (SortedMap.mem_keys_of_mem he)]

theorem cast_eval (values : Nat → Nat) (l : LinearCombination) :
    ((l.eval p values : Nat) : ZMod p) = l.dot fun w => (values w : ZMod p) := by
  have fold (es : List (Nat × Nat)) (s : Nat) :
      ((es.foldl (fun s e => Residue.add p s (Residue.mul p e.2 (values e.1))) s : Nat) : ZMod p) =
        s + (es.map fun e => (e.2 : ZMod p) * values e.1).sum := by
    induction es generalizing s with
    | nil => simp
    | cons e es ih => rw [List.foldl_cons, ih]; simp [add_assoc]
  have := fold l.entries 0
  rwa [Nat.cast_zero, zero_add] at this

variable {f : Nat → Poly}

/-- A substituted combination is the combination of what its wires stand for. -/
theorem toMvPolynomial_substitute (f : Nat → Poly) (l : LinearCombination) :
    (l.substitute p f).toMvPolynomial p = (l.entries.map fun e =>
      (e.2 : MvPolynomial Nat (ZMod p)) * (f e.1).toMvPolynomial p).sum := by
  have fold (es : List (Nat × Nat)) (s : Poly) :
      (es.foldl (fun s e => Poly.add p s ((f e.1).scale p e.2)) s).toMvPolynomial p =
        s.toMvPolynomial p + (es.map fun e =>
          (e.2 : MvPolynomial Nat (ZMod p)) * (f e.1).toMvPolynomial p).sum := by
    induction es generalizing s with
    | nil => simp
    | cons e es ih =>
      rw [List.foldl_cons, ih, List.map_cons, List.sum_cons, Poly.toMvPolynomial_add,
        Poly.toMvPolynomial_scale, map_natCast, add_assoc, mul_comm]
  have := fold l.entries .zero
  rwa [Poly.toMvPolynomial_zero, zero_add] at this

theorem value_substitute (v : Nat → ZMod p) (f : Nat → Poly) (l : LinearCombination) :
    MvPolynomial.eval v ((l.substitute p f).toMvPolynomial p) =
      l.dot fun w => MvPolynomial.eval v ((f w).toMvPolynomial p) := by
  rw [toMvPolynomial_substitute, map_list_sum, List.map_map, dot]
  congr 1
  apply List.map_congr_left
  intro e _
  rw [Function.comp_apply, map_mul, map_natCast]

theorem reduced_substitute (hp : 0 < p) (f : Nat → Poly) (l : LinearCombination) :
    (l.substitute p f).Reduced p := by
  have fold (es : List (Nat × Nat)) (s : Poly) (hs : s.Reduced p) :
      (es.foldl (fun s e => Poly.add p s ((f e.1).scale p e.2)) s).Reduced p := by
    induction es generalizing s with
    | nil => exact hs
    | cons e es ih => exact ih _ (Poly.reduced_add hs (Poly.reduced_scale hp _ _))
  exact fold l.entries .zero Poly.reduced_zero

theorem over_substitute {Q : Monomial → Prop} {l : LinearCombination}
    (h : ∀ w ∈ l.keys, (f w).Over Q) : (l.substitute p f).Over Q := by
  have fold (es : List (Nat × Nat)) (hes : ∀ e ∈ es, (f e.1).Over Q) (s : Poly) (hs : s.Over Q) :
      (es.foldl (fun s e => Poly.add p s ((f e.1).scale p e.2)) s).Over Q := by
    induction es generalizing s with
    | nil => exact hs
    | cons e es ih =>
      exact ih (fun e he => hes e (by simp [he])) _
        (Poly.over_add hs (Poly.over_scale (hes e (by simp)) _))
  exact fold l.entries (fun e he => h e.1 (SortedMap.mem_keys_of_mem he)) .zero Poly.over_zero

theorem affine_substitute {l : LinearCombination} (h : ∀ w ∈ l.keys, (f w).Affine) :
    (l.substitute p f).Affine :=
  Poly.totalDegree_le_iff.2 (over_substitute fun w hw => Poly.totalDegree_le_iff.1 (h w hw))

/-- What a partial substitution reads, with zero in place of what is missing. -/
def total {ε : Type} (f : Nat → Except ε Poly) (w : Nat) : Poly := (f w).toOption.getD .zero

theorem total_ok {ε : Type} {f : Nat → Except ε Poly} {w : Nat} {a : Poly} (h : f w = .ok a) :
    total f w = a := by
  simp [total, h, Except.toOption]

theorem trySubstitute_ok {ε : Type} {f : Nat → Except ε Poly} {l : LinearCombination} {a : Poly}
    (h : l.trySubstitute p f = .ok a) :
    (∀ w ∈ l.keys, ∃ q, f w = .ok q) ∧ a = l.substitute p (total f) := by
  have fold (es : List (Nat × Nat)) (s : Poly)
      (h : es.foldlM (fun s e => (f e.1).map fun q => Poly.add p s (q.scale p e.2)) s = .ok a) :
      (∀ e ∈ es, ∃ q, f e.1 = .ok q) ∧
        a = es.foldl (fun s e => Poly.add p s ((total f e.1).scale p e.2)) s := by
    induction es generalizing s with
    | nil =>
      cases h
      simp
    | cons e es ih =>
      cases hf : f e.1 with
      | error x => simp [hf, bind, Except.bind, Except.map] at h
      | ok q =>
        simp only [List.foldlM_cons, hf, bind, Except.bind, Except.map] at h
        obtain ⟨hok, ha⟩ := ih _ h
        refine ⟨?_, ?_⟩
        · intro d hd
          rcases List.mem_cons.1 hd with rfl | hd
          · exact ⟨q, hf⟩
          · exact hok d hd
        · rw [ha, List.foldl_cons, total_ok hf]
  obtain ⟨hok, ha⟩ := fold l.entries .zero h
  refine ⟨?_, ha⟩
  intro w hw
  obtain ⟨e, he, rfl⟩ := List.mem_map.1 hw
  exact hok e he

theorem exists_trySubstitute {ε : Type} {f : Nat → Except ε Poly} {l : LinearCombination}
    (h : ∀ w ∈ l.keys, ∃ q, f w = .ok q) : ∃ a, l.trySubstitute p f = .ok a := by
  have fold (es : List (Nat × Nat)) (hes : ∀ e ∈ es, ∃ q, f e.1 = .ok q) (s : Poly) :
      ∃ a, es.foldlM (fun s e => (f e.1).map fun q => Poly.add p s (q.scale p e.2)) s = .ok a := by
    induction es generalizing s with
    | nil => exact ⟨s, rfl⟩
    | cons e es ih =>
      obtain ⟨q, hq⟩ := hes e (by simp)
      obtain ⟨a, ha⟩ := ih (fun d hd => hes d (by simp [hd])) (Poly.add p s (q.scale p e.2))
      exact ⟨a, by rw [List.foldlM_cons, hq]; exact ha⟩
  exact fold l.entries (fun e he => h e.1 (SortedMap.mem_keys_of_mem he)) .zero

end LinearCombination

namespace Constraint

open LinearCombination (total total_ok)

/-- The wires that occur in a constraint, the constant one included. -/
def Mentions (k : Constraint) (w : Nat) : Prop := ∃ l ∈ k.parts, w ∈ l.keys

theorem a_mem_parts (k : Constraint) : k.a ∈ k.parts := by simp [parts]

theorem b_mem_parts (k : Constraint) : k.b ∈ k.parts := by simp [parts]

theorem c_mem_parts (k : Constraint) : k.c ∈ k.parts := by simp [parts]

/-- `a * b - c` for values of the wires in `ZMod p`. -/
def value (u : Nat → ZMod p) (k : Constraint) : ZMod p := k.a.dot u * k.b.dot u - k.c.dot u

theorem value_congr {u u' : Nat → ZMod p} {k : Constraint} (h : ∀ w, k.Mentions w → u w = u' w) :
    k.value u = k.value u' := by
  have part (l : LinearCombination) (hl : l ∈ k.parts) : l.dot u = l.dot u' :=
    LinearCombination.dot_congr fun w hw => h w ⟨l, hl, hw⟩
  rw [value, value, part k.a k.a_mem_parts, part k.b k.b_mem_parts, part k.c k.c_mem_parts]

theorem residual_lt (hp : 0 < p) (values : Nat → Nat) (k : Constraint) :
    k.residual p values < p := Residue.sub_lt hp _ _

theorem cast_residual (hp : 0 < p) (values : Nat → Nat) (k : Constraint) :
    ((k.residual p values : Nat) : ZMod p) = k.value fun w => (values w : ZMod p) := by
  have hc : k.c.eval p values < p := by
    rw [LinearCombination.eval]
    generalize k.c.entries = es
    induction es using List.reverseRecOn with
    | nil => exact hp
    | append_singleton es e _ =>
      rw [List.foldl_append]
      exact Residue.add_lt hp _ _
  rw [residual, Residue.cast_sub (by omega), Residue.cast_mul, LinearCombination.cast_eval,
    LinearCombination.cast_eval, LinearCombination.cast_eval, value]

theorem residual_eq_zero_iff (hp : 0 < p) (values : Nat → Nat) (k : Constraint) :
    k.residual p values = 0 ↔ (k.value fun w => (values w : ZMod p)) = 0 := by
  rw [← cast_residual hp, Residue.cast_eq_zero_iff (residual_lt hp values k)]

/-- The product in a substituted constraint can be formed. -/
def Fits (p : Nat) (f : Nat → Poly) (k : Constraint) : Prop :=
  (k.a.substitute p f).Fits (k.b.substitute p f)

instance (p : Nat) (f : Nat → Poly) (k : Constraint) : Decidable (k.Fits p f) :=
  inferInstanceAs (Decidable ((k.a.substitute p f).Fits (k.b.substitute p f)))

/-- Affine polynomials can take the place of the wires. -/
theorem fits_of_affine {f : Nat → Poly} {k : Constraint}
    (h : ∀ w, k.Mentions w → (f w).Affine) : k.Fits p f := by
  have part (l : LinearCombination) (hl : l ∈ k.parts) : (l.substitute p f).Affine :=
    LinearCombination.affine_substitute fun w hw => h w ⟨l, hl, hw⟩
  exact (part k.a k.a_mem_parts).fits (part k.b k.b_mem_parts)

/-- A variable for each wire can take its place. -/
theorem fits_var (p : Nat) (k : Constraint) : k.Fits p Poly.var :=
  fits_of_affine fun w _ => Poly.affine_var w

theorem toMvPolynomial_substitute (hp : 0 < p) {f : Nat → Poly} {k : Constraint}
    (h : k.Fits p f) : (k.substitute p f).toMvPolynomial p =
      (k.a.substitute p f).toMvPolynomial p * (k.b.substitute p f).toMvPolynomial p -
        (k.c.substitute p f).toMvPolynomial p := by
  rw [substitute, (LinearCombination.reduced_substitute hp f k.c).toMvPolynomial_sub,
    Poly.toMvPolynomial_mul h]

theorem value_substitute (hp : 0 < p) (v : Nat → ZMod p) {f : Nat → Poly} {k : Constraint}
    (h : k.Fits p f) : MvPolynomial.eval v ((k.substitute p f).toMvPolynomial p) =
      k.value fun w => MvPolynomial.eval v ((f w).toMvPolynomial p) := by
  rw [toMvPolynomial_substitute hp h, map_sub, map_mul, LinearCombination.value_substitute,
    LinearCombination.value_substitute, LinearCombination.value_substitute, value]

theorem over_substitute {Q T : Monomial → Prop} {f : Nat → Poly} {k : Constraint}
    (h : ∀ w, k.Mentions w → (f w).Over Q) (hmul : ∀ m n, Q m → Q n → T (m * n))
    (hQ : ∀ m, Q m → T m) : (k.substitute p f).Over T := by
  have part (l : LinearCombination) (hl : l ∈ k.parts) : (l.substitute p f).Over Q :=
    LinearCombination.over_substitute fun w hw => h w ⟨l, hl, hw⟩
  apply Poly.over_sub
  · exact Poly.over_mul (part k.a k.a_mem_parts) (part k.b k.b_mem_parts) hmul
  · exact fun t ht => hQ _ (part k.c k.c_mem_parts t ht)

/-- A constraint is a product of two combinations less a third. -/
theorem totalDegree_substitute_le {f : Nat → Poly} {k : Constraint}
    (h : ∀ w, k.Mentions w → (f w).Affine) : (k.substitute p f).totalDegree ≤ 2 := by
  have hf : ∀ w, k.Mentions w → (f w).Over fun m => m.totalDegree ≤ 1 :=
    fun w hw => Poly.totalDegree_le_iff.1 (h w hw)
  refine Poly.totalDegree_le_iff.2 <|
    over_substitute hf (fun m n hm hn => ?_) fun m hm => Nat.le_succ_of_le hm
  exact (Monomial.totalDegree_mul_le m n).trans (Nat.add_le_add hm hn)

/-- A further factor of degree one fits. -/
theorem fits_substitute {a : Poly} {f : Nat → Poly} {k : Constraint} (ha : a.Affine)
    (h : ∀ w, k.Mentions w → (f w).Affine) : a.Fits (k.substitute p f) :=
  Poly.fits_of_totalDegree ha (totalDegree_substitute_le h) (by decide)

theorem trySubstitute_ok {ε : Type} {f : Nat → Except ε Poly} {k : Constraint} {a : Poly}
    (h : k.trySubstitute p f = .ok a) :
    (∀ w, k.Mentions w → ∃ q, f w = .ok q) ∧ a = k.substitute p (total f) := by
  cases ha : k.a.trySubstitute p f with
  | error e => simp [trySubstitute, ha, bind, Except.bind] at h
  | ok qa =>
    cases hb : k.b.trySubstitute p f with
    | error e => simp [trySubstitute, ha, hb, bind, Except.bind] at h
    | ok qb =>
      cases hc : k.c.trySubstitute p f with
      | error e => simp [trySubstitute, ha, hb, hc, bind, Except.bind] at h
      | ok qc =>
        obtain ⟨wa, rfl⟩ := LinearCombination.trySubstitute_ok ha
        obtain ⟨wb, rfl⟩ := LinearCombination.trySubstitute_ok hb
        obtain ⟨wc, rfl⟩ := LinearCombination.trySubstitute_ok hc
        refine ⟨?_, ?_⟩
        · rintro w ⟨l, hl, hw⟩
          simp only [parts, List.mem_cons, List.not_mem_nil, or_false] at hl
          rcases hl with rfl | rfl | rfl
          · exact wa w hw
          · exact wb w hw
          · exact wc w hw
        · simpa [trySubstitute, substitute, ha, hb, hc, bind, Except.bind, pure, Except.pure] using
            h.symm

theorem exists_trySubstitute {ε : Type} {f : Nat → Except ε Poly} {k : Constraint}
    (h : ∀ w, k.Mentions w → ∃ q, f w = .ok q) : ∃ a, k.trySubstitute p f = .ok a := by
  have part (l : LinearCombination) (hl : l ∈ k.parts) : ∃ a, l.trySubstitute p f = .ok a :=
    LinearCombination.exists_trySubstitute fun w hw => h w ⟨l, hl, hw⟩
  obtain ⟨a, ha⟩ := part k.a k.a_mem_parts
  obtain ⟨b, hb⟩ := part k.b k.b_mem_parts
  obtain ⟨c, hc⟩ := part k.c k.c_mem_parts
  exact ⟨Poly.sub p (Poly.mul p a b) c, by rw [trySubstitute, ha, hb, hc]; rfl⟩

end Constraint

end CircuitTrace
