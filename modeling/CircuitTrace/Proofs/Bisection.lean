import Mathlib
import CircuitTrace.Bisection

namespace CircuitTrace.Bisection

variable {l : List Nat} {x low high i : Nat}

theorem getElem?_of_between (hhigh : high ≤ l.length) (h : between l x low high = some i) :
    l[i]? = some x := by
  fun_induction between l x low high with
  | case1 low high hlt middle hless ih => exact ih hhigh h
  | case2 low high hlt middle heq =>
    have hmiddle : middle < l.length := by omega
    have hx : l.getD middle 0 = x := Nat.compare_eq_eq.1 heq
    obtain rfl : middle = i := Option.some.inj h
    rw [List.getElem?_eq_getElem hmiddle, ← hx, List.getD_eq_getElem _ _ hmiddle]
  | case3 low high hlt middle hmore ih => exact ih (by omega) h
  | case4 => cases h

/-- Smaller elements stand further in front, so the half that is given up has no place of `x`. -/
theorem between_of_getElem? (hl : l.Pairwise (· < ·)) (hx : l[i]? = some x) (hlow : low ≤ i)
    (hhigh : i < high) (hlen : high ≤ l.length) : between l x low high = some i := by
  obtain ⟨hi, rfl⟩ := List.getElem?_eq_some_iff.1 hx
  have before {a b : Nat} (ha : a < l.length) (hb : b < l.length) (h : l[a] < l[b]) : a < b := by
    by_contra hle
    rcases Nat.eq_or_lt_of_le (Nat.not_lt.1 hle) with rfl | hlt
    · exact Nat.lt_irrefl _ h
    · exact Nat.lt_asymm h (List.pairwise_iff_getElem.1 hl b a hb ha hlt)
  fun_induction between l l[i] low high with
  | case1 low high hlt middle hless ih =>
    rw [List.getD_eq_getElem _ _ (by omega), Nat.compare_eq_lt] at hless
    exact ih (before (by omega) hi hless) hhigh hlen
  | case2 low high hlt middle heq =>
    rw [List.getD_eq_getElem _ _ (by omega), Nat.compare_eq_eq] at heq
    exact congrArg some (hl.nodup.getElem_inj_iff.1 heq)
  | case3 low high hlt middle hmore ih =>
    rw [List.getD_eq_getElem _ _ (by omega), Nat.compare_eq_gt] at hmore
    exact ih hlow (before hi (by omega) hmore) (by omega)
  | case4 => omega

theorem getElem?_of_find? (h : find? l x = some i) : l[i]? = some x :=
  getElem?_of_between (Nat.le_refl _) h

theorem find?_eq_some_iff (hl : l.Pairwise (· < ·)) : find? l x = some i ↔ l[i]? = some x := by
  refine ⟨getElem?_of_find?, ?_⟩
  intro h
  exact between_of_getElem? hl h (Nat.zero_le i) (List.getElem?_eq_some_iff.1 h).1 (Nat.le_refl _)

theorem isSome_find?_iff (hl : l.Pairwise (· < ·)) : (find? l x).isSome = true ↔ x ∈ l := by
  simp only [Option.isSome_iff_exists, find?_eq_some_iff hl, List.mem_iff_getElem?]

end CircuitTrace.Bisection
