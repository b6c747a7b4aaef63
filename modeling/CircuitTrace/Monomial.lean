import CircuitTrace.SortedMap

/-!
Products of powers of numbered variables. Exponents are words of 32 bits, and sums of them wrap
around. While no sum does, a stored exponent is at least one, so the constant monomial is the empty
product and equal products are equal values; a sum that wraps around can leave a zero behind.
-/
namespace CircuitTrace

/-- The variables that occur, each with its exponent. -/
structure Monomial where
  powers : SortedMap Nat UInt32
  deriving DecidableEq

namespace Monomial

def one : Monomial := ⟨.empty⟩

/-- A power of one variable. The zeroth power is the constant. -/
def power (x : Nat) (e : UInt32) : Monomial :=
  if e = 0 then one else ⟨SortedMap.empty.insert x e⟩

def var (x : Nat) : Monomial := power x 1

def isConstant (m : Monomial) : Bool := m.powers.isEmpty

def vars (m : Monomial) : List Nat := m.powers.keys

/-- The sum of the exponents. It wraps around like every sum of words. -/
def degree (m : Monomial) : UInt32 := m.powers.entries.foldr (fun e d => e.2 + d) 0

def exponent (m : Monomial) (x : Nat) : UInt32 := (m.powers.get? x).getD 0

/-- Exponents of one variable add up. The product is one of powers only for factors that `Fits`
admits; for others the exponent that is stored is a remainder, which may be zero. -/
def mul (a b : Monomial) : Monomial :=
  ⟨b.powers.entries.foldl
    (fun m e => m.alter e.1 fun old => some (old.getD 0 + e.2)) a.powers⟩

instance : Mul Monomial := ⟨mul⟩

/-- No exponent of the product of two monomials outgrows its word. Where sums of words are checked,
these are the factors that have a product at all. -/
def Fits (a b : Monomial) : Prop :=
  ∀ e ∈ a.powers.entries, e.2.toNat + (b.exponent e.1).toNat < UInt32.size

instance (a b : Monomial) : Decidable (a.Fits b) :=
  inferInstanceAs (Decidable (∀ e ∈ a.powers.entries, _))

def ofPowers (l : List (Nat × UInt32)) : Monomial := l.foldl (fun m e => m * power e.1 e.2) one

/-- The part of a monomial in the variables that pass a test. -/
def restrict (test : Nat → Bool) (m : Monomial) : Monomial :=
  ⟨m.powers.filter fun e => test e.1⟩

/-- Powers compare by variable, then by exponent. -/
def comparePowers : Nat × UInt32 → Nat × UInt32 → Ordering :=
  compareLex (compareOn Prod.fst) (compareOn Prod.snd)

/-- The order of ascending lists of powers: lexicographic, and where one list ends first, it is
the smaller one. -/
def compareLists : List (Nat × UInt32) → List (Nat × UInt32) → Ordering :=
  List.compareLex comparePowers

instance : Std.TransCmp comparePowers :=
  inferInstanceAs (Std.TransCmp (compareLex (compareOn Prod.fst) (compareOn Prod.snd)))

instance : Std.TransCmp compareLists :=
  inferInstanceAs (Std.TransCmp (List.compareLex comparePowers))

instance : Ord Monomial where
  compare a b := compareLists a.powers.entries b.powers.entries

instance : Std.TransOrd Monomial where
  eq_swap {a b} := by
    change compareLists _ _ = (compareLists _ _).swap
    exact Std.OrientedCmp.eq_swap
  isLE_trans {a b c} hab hbc := by
    change (compareLists a.powers.entries c.powers.entries).isLE = true
    exact Std.TransCmp.isLE_trans hab hbc

instance : Std.LawfulEqCmp comparePowers where
  compare_self := by
    intro a
    simp [comparePowers, compareLex, compareOn]
  eq_of_compare := by
    intro a b h
    simp only [comparePowers, compareLex, compareOn, Ordering.then_eq_eq] at h
    exact Prod.ext (Std.LawfulEqCmp.eq_of_compare h.1) (Std.LawfulEqCmp.eq_of_compare h.2)

instance : Std.LawfulEqCmp compareLists :=
  inferInstanceAs (Std.LawfulEqCmp (List.compareLex comparePowers))

instance : Std.LawfulEqOrd Monomial where
  compare_self {a} := by
    change compareLists _ _ = .eq
    exact Std.ReflCmp.compare_self
  eq_of_compare {a b} h := by
    change compareLists a.powers.entries b.powers.entries = .eq at h
    cases a with
    | mk p =>
      cases b with
      | mk q =>
        cases p
        cases q
        congr
        exact Std.LawfulEqCmp.eq_of_compare h

end Monomial

end CircuitTrace
