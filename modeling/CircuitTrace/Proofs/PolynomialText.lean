import CircuitTrace.Poly.Text
import CircuitTrace.Proofs.CanonicalForm

/-!
What can be read off a written polynomial. Numbers of any length stand one behind the other with
nothing between them, and a one may be left out. So the parts of such a text are not self-delimiting
as those of a container are: a number ends where a character comes that is no digit of its table, a
power where the next `x` comes, a term where the space in front of a plus sign comes. Read this way,
the text of a canonical polynomial is that of no other.
-/
namespace CircuitTrace

/-! Texts that show where they end, as long as none of certain characters comes behind them. -/

variable {α β : Type} {s t : List Char} {k : Char} {e : α → List Char} {f : β → List Char}

/-- The first character of `r`, if there is one, is none of `s`. -/
def Stops (s r : List Char) : Prop := ∀ c ∈ r.head?, c ∉ s

namespace Stops

variable {r u : List Char}

theorem nil (s : List Char) : Stops s [] := by
  intro c hc
  simp at hc

theorem cons (hk : k ∉ s) (r : List Char) : Stops s (k :: r) := by
  intro c hc
  obtain rfl : k = c := by simpa using hc
  exact hk

theorem append (hu : Stops s u) (hr : Stops s r) : Stops s (u ++ r) := by
  cases u with
  | nil => exact hr
  | cons c u => exact cons (hu c rfl) _

theorem mono (h : Stops t r) (hst : s ⊆ t) : Stops s r := fun c hc hmem => h c hc (hst hmem)

/-- Texts that all begin with a mark, one behind the other. -/
theorem marked (hk : k ∉ s) (e : α → List Char) (l : List α) :
    Stops s (l.flatMap fun a => k :: e a) := by
  cases l with
  | nil => exact nil s
  | cons a l => exact cons hk _

theorem of_run (hrun : ∀ c ∈ r, c ∈ t) (hst : ∀ c ∈ t, c ∉ s) : Stops s r :=
  fun c hc => hst c (hrun c (List.mem_of_mem_head? hc))

end Stops

/-- Two runs of characters of `s` end at the same place. -/
theorem eq_of_run_append {l l' r r' : List Char} (hl : ∀ c ∈ l, c ∈ s) (hl' : ∀ c ∈ l', c ∈ s)
    (hr : Stops s r) (hr' : Stops s r') (heq : l ++ r = l' ++ r') : l = l' ∧ r = r' := by
  have takeRun {l r : List Char} (hl : ∀ c ∈ l, c ∈ s) (hr : Stops s r) :
      (l ++ r).takeWhile (· ∈ s) = l := by
    rw [List.takeWhile_append_of_pos (by simpa using hl)]
    cases r with
    | nil => simp
    | cons c r => simp [hr c rfl]
  have hrun : l = l' := by rw [← takeRun hl hr, heq, takeRun hl' hr']
  subst hrun
  exact ⟨rfl, List.append_cancel_left heq⟩

/-- A value and what stands behind its text can be told, as long as what stands behind begins with
none of the characters of `s`, which might carry the text on. -/
def Readable (s : List Char) (e : α → List Char) : Prop :=
  ∀ ⦃a a' : α⦄ ⦃r r' : List Char⦄, Stops s r → Stops s r' → e a ++ r = e a' ++ r' → a = a' ∧ r = r'

namespace Readable

theorem of_run (hinj : Function.Injective e) (hrun : ∀ a, ∀ c ∈ e a, c ∈ s) : Readable s e := by
  intro a a' r r' hr hr' heq
  obtain ⟨htext, hrest⟩ := eq_of_run_append (hrun a) (hrun a') hr hr' heq
  exact ⟨hinj htext, hrest⟩

/-- What determines a value may be written in its place. -/
theorem comp (h : Readable s e) {g : β → α} (hg : Function.Injective g) :
    Readable s fun b => e (g b) := by
  intro b b' r r' hr hr' heq
  obtain ⟨hvalue, hrest⟩ := h hr hr' heq
  exact ⟨hg hvalue, hrest⟩

theorem behind (h : Readable s e) (u : List Char) : Readable s fun a => u ++ e a := by
  intro a a' r r' hr hr' heq
  rw [List.append_assoc, List.append_assoc] at heq
  exact h hr hr' (List.append_cancel_left heq)

/-- A run of characters of which none comes first in the text behind it. How the run is written may
depend on the value behind it, since where the run ends does not. -/
theorem run_append {run : β → α → List Char} (h : Readable t f)
    (hinj : ∀ b, Function.Injective (run b)) (hrun : ∀ b a, ∀ c ∈ run b a, c ∈ s)
    (hstop : ∀ b, Stops s (f b)) :
    Readable (s ++ t) fun x : β × α => run x.1 x.2 ++ f x.1 := by
  rintro ⟨b, a⟩ ⟨b', a'⟩ r r' hr hr' heq
  rw [List.append_assoc, List.append_assoc] at heq
  have hbehind : Stops s (f b ++ r) :=
    (hstop b).append (hr.mono (List.subset_append_left s t))
  have hbehind' : Stops s (f b' ++ r') :=
    (hstop b').append (hr'.mono (List.subset_append_left s t))
  obtain ⟨hruns, heq⟩ := eq_of_run_append (hrun b a) (hrun b' a') hbehind hbehind' heq
  obtain ⟨rfl, rfl⟩ := h (hr.mono (List.subset_append_right s t))
    (hr'.mono (List.subset_append_right s t)) heq
  obtain rfl := hinj b hruns
  exact ⟨rfl, rfl⟩

/-- In a list of texts that all begin with a mark of their own it can be told how many there are. -/
theorem marked (h : Readable s e) (hk : k ∉ s) :
    Readable (k :: s) (List.flatMap fun a => k :: e a) := by
  have hne {a : α} {r r' : List Char} (hr : Stops (k :: s) r) : r ≠ k :: e a ++ r' := by
    rintro rfl
    exact hr k rfl (by simp)
  -- Whether another text comes is seen from the mark, as no text that may stand behind begins so.
  intro l
  induction l with
  | nil =>
    intro l' r r' hr hr' heq
    cases l' with
    | nil => exact ⟨rfl, heq⟩
    | cons a' l' =>
      rw [List.flatMap_cons, List.append_assoc] at heq
      exact absurd heq (hne hr)
  | cons a l ih =>
    intro l' r r' hr hr' heq
    cases l' with
    | nil =>
      rw [List.flatMap_cons, List.append_assoc] at heq
      exact absurd heq.symm (hne hr')
    | cons a' l' =>
      rw [List.flatMap_cons, List.flatMap_cons, List.append_assoc, List.append_assoc] at heq
      have hstop := (Stops.marked hk e l).append (hr.mono (List.subset_cons_self k s))
      have hstop' := (Stops.marked hk e l').append (hr'.mono (List.subset_cons_self k s))
      obtain ⟨rfl, hbehind⟩ := h hstop hstop' (List.cons.inj heq).2
      obtain ⟨rfl, hrest⟩ := ih hr hr' hbehind
      exact ⟨rfl, hrest⟩

theorem intercalate_map_cons (sep : List Char) (e : α → List Char) (a : α) (l : List α) :
    sep.intercalate ((a :: l).map e) = e a ++ l.flatMap fun b => sep ++ e b := by
  induction l generalizing a with
  | nil => simp
  | cons b l ih =>
    rw [List.map_cons, List.map_cons, List.intercalate_cons_cons, ← List.map_cons, ih,
      List.flatMap_cons, List.append_assoc, List.append_assoc]

/-- Texts with a separator between them, which begins with the mark. -/
theorem intercalate_inj (h : Readable s e) (hk : k ∉ s) {sep : List Char} {l l' : List α}
    (hl : l ≠ []) (hl' : l' ≠ [])
    (heq : (k :: sep).intercalate (l.map e) = (k :: sep).intercalate (l'.map e)) : l = l' := by
  obtain ⟨a, l, rfl⟩ := List.exists_cons_of_ne_nil hl
  obtain ⟨a', l', rfl⟩ := List.exists_cons_of_ne_nil hl'
  rw [intercalate_map_cons, intercalate_map_cons] at heq
  obtain ⟨rfl, hothers⟩ := h (.marked hk _ l) (.marked hk _ l') heq
  have hmarked := (h.behind sep).marked hk
  obtain ⟨rfl, -⟩ := hmarked (.nil _) (.nil _) (congrArg (· ++ []) hothers)
  rfl

end Readable

namespace Decimal

variable {table : List Char}

/-- A character of its own for each of the ten digits. -/
structure IsTable (table : List Char) : Prop where
  nodup : table.Nodup
  length_eq : table.length = 10

/-- The digits with which coefficients are written. -/
def decimals : List Char := ['0', '1', '2', '3', '4', '5', '6', '7', '8', '9']

theorem isTable_decimals : IsTable decimals := ⟨by decide, by decide⟩

theorem isTable_superscripts : IsTable superscripts := ⟨by decide, by decide⟩

theorem isTable_subscripts : IsTable subscripts := ⟨by decide, by decide⟩

/-- A digit is the character as far behind `0` as it counts. -/
theorem digit_place {n : Nat} {d : Char} (hd : d ∈ Nat.toDigits 10 n) :
    d.toNat - '0'.toNat < 10 ∧ Char.ofNat ('0'.toNat + (d.toNat - '0'.toNat)) = d := by
  have hdigit := Char.isDigit_iff_toNat.1 (Nat.isDigit_of_mem_toDigits (by decide) (by decide) hd)
  have hnine : '9'.toNat = '0'.toNat + 9 := by decide
  refine ⟨by omega, ?_⟩
  rw [Nat.add_sub_of_le hdigit.1, Char.ofNat_toNat]

theorem IsTable.getElem?_digit (h : IsTable table) {n : Nat} {d : Char}
    (hd : d ∈ Nat.toDigits 10 n) :
    table[d.toNat - '0'.toNat]? = some (table.getD (d.toNat - '0'.toNat) d) := by
  have hlt : d.toNat - '0'.toNat < table.length := h.length_eq ▸ (digit_place hd).1
  rw [List.getD_eq_getElem _ _ hlt, List.getElem?_eq_getElem hlt]

theorem IsTable.mem_digitsIn (h : IsTable table) {n : Nat} {c : Char} (hc : c ∈ digitsIn table n) :
    c ∈ table := by
  obtain ⟨d, hd, rfl⟩ := List.mem_map.1 hc
  exact List.mem_of_getElem? (h.getElem?_digit hd)

/-- The number that digits of a table stand for. -/
def valueIn (table l : List Char) : Nat := l.foldl (fun v c => 10 * v + table.idxOf c) 0

theorem IsTable.valueIn_digitsIn (h : IsTable table) (n : Nat) :
    valueIn table (digitsIn table n) = n := by
  have hplace (v : Nat) (d : Char) (hd : d ∈ Nat.toDigits 10 n) :
      10 * v + table.idxOf (table.getD (d.toNat - '0'.toNat) d) =
        10 * v + (d.toNat - '0'.toNat) := by
    obtain ⟨hlt, hget⟩ := List.getElem?_eq_some_iff.1 (h.getElem?_digit hd)
    rw [← hget, h.nodup.idxOf_getElem]
  calc valueIn table (digitsIn table n)
      = (Nat.toDigits 10 n).foldl
          (fun v d => 10 * v + table.idxOf (table.getD (d.toNat - '0'.toNat) d)) 0 :=
        List.foldl_map
    _ = Nat.ofDigitChars 10 (Nat.toDigits 10 n) 0 := List.foldl_ext _ _ 0 hplace
    _ = n := Nat.ofDigitChars_ten_toDigits

theorem IsTable.digitsIn_injective (h : IsTable table) : Function.Injective (digitsIn table) :=
  Function.LeftInverse.injective h.valueIn_digitsIn

theorem digitsIn_ne_nil (table : List Char) (n : Nat) : digitsIn table n ≠ [] := by
  simp [digitsIn]

theorem digitsIn_decimals (n : Nat) : digitsIn decimals n = Nat.toDigits 10 n := by
  have hplace : ∀ i < 10, decimals[i]? = some (Char.ofNat ('0'.toNat + i)) := by decide
  have hsame (d : Char) (hd : d ∈ Nat.toDigits 10 n) :
      decimals.getD (d.toNat - '0'.toNat) d = d := by
    obtain ⟨hlt, hchar⟩ := digit_place hd
    rw [List.getD_eq_getElem?_getD, hplace _ hlt, hchar, Option.getD_some]
  rw [digitsIn, List.map_congr_left hsame, List.map_id']

/-- The digits of a number, where a one is left out unless it has to be `shown`. -/
def optionalDigits (table : List Char) (shown : Bool) (n : Nat) : List Char :=
  if shown || n != 1 then digitsIn table n else []

theorem IsTable.mem_optionalDigits (h : IsTable table) (shown : Bool) (n : Nat) :
    ∀ c ∈ optionalDigits table shown n, c ∈ table := by
  intro c hc
  rw [optionalDigits] at hc
  split at hc
  · exact h.mem_digitsIn hc
  · simp at hc

theorem IsTable.optionalDigits_injective (h : IsTable table) (shown : Bool) :
    Function.Injective (optionalDigits table shown) := by
  intro n n' heq
  rw [optionalDigits, optionalDigits] at heq
  split at heq <;> split at heq
  · exact h.digitsIn_injective heq
  · exact absurd heq (digitsIn_ne_nil table n)
  · exact absurd heq.symm (digitsIn_ne_nil table n')
  · rename_i hn hn'
    simp only [Bool.or_eq_true, bne_iff_ne, not_or, not_not] at hn hn'
    exact hn.2.trans hn'.2.symm

end Decimal

namespace Monomial

open Decimal

/-- The characters of a written power. -/
def powerMarks : List Char := 'x' :: (subscripts ++ superscripts)

theorem x_notMem : 'x' ∉ subscripts ++ superscripts := by decide

theorem powerText_eq (x : Nat) (e : UInt32) : powerText x e =
    'x' :: (digitsIn subscripts x ++ optionalDigits superscripts false e.toNat) := by
  have hone : e.toNat = 1 ↔ e = 1 := UInt32.toNat_inj (b := 1)
  rw [powerText, optionalDigits]
  by_cases he : e = 1
  · simp [he]
  · simp [he, hone]

theorem text_eq (m : Monomial) : m.text = m.powers.entries.flatMap fun e =>
    'x' :: (digitsIn subscripts e.1 ++ optionalDigits superscripts false e.2.toNat) :=
  congrArg (m.powers.entries.flatMap ·) (funext fun e => powerText_eq e.1 e.2)

/-- An exponent is in other digits than the variable in front of it, and the next power begins with
an `x`. -/
theorem readable_text : Readable powerMarks text := by
  have hexponent : Readable superscripts fun e : UInt32 =>
      optionalDigits superscripts false e.toNat :=
    .of_run
      ((isTable_superscripts.optionalDigits_injective false).comp fun _ _ => UInt32.toNat_inj.1)
      fun e => isTable_superscripts.mem_optionalDigits false e.toNat
  have hdistinct : ∀ c ∈ superscripts, c ∉ subscripts := by simp [superscripts, subscripts]
  have hstop (e : UInt32) : Stops subscripts (optionalDigits superscripts false e.toNat) :=
    .of_run (isTable_superscripts.mem_optionalDigits false e.toNat) hdistinct
  have hpower := hexponent.run_append (fun _ => isTable_subscripts.digitsIn_injective)
    (fun _ _ _ => isTable_subscripts.mem_digitsIn) hstop
  have hpowers := (hpower.comp Prod.swap_injective).marked x_notMem
  have hentries : Function.Injective fun m : Monomial => m.powers.entries := by
    rintro ⟨powers⟩ ⟨powers'⟩ h
    exact congrArg Monomial.mk (SortedMap.entries_injective h)
  rw [show text = _ from funext text_eq]
  exact hpowers.comp hentries

end Monomial

namespace Poly

open Decimal

theorem termText_eq (m : Monomial) (c : Nat) :
    termText m c = optionalDigits decimals m.isConstant c ++ m.text := by
  rw [termText, optionalDigits, digitsIn_decimals]

theorem readable_termText :
    Readable (decimals ++ Monomial.powerMarks) fun t : Monomial × Nat => termText t.1 t.2 := by
  have hstop (m : Monomial) : Stops decimals m.text := by
    rw [Monomial.text_eq]
    exact .marked (by decide) _ _
  have hterm := Monomial.readable_text.run_append
    (fun m => isTable_decimals.optionalDigits_injective m.isConstant)
    (fun m => isTable_decimals.mem_optionalDigits m.isConstant) hstop
  simpa only [termText_eq] using hterm

/-- The terms that are written: the zero polynomial is written as a constant of zero. -/
def writtenTerms (a : Poly) : List (Monomial × Nat) :=
  if a.isZero then [(.one, 0)] else a.terms.entries

theorem writtenTerms_ne_nil (a : Poly) : a.writtenTerms ≠ [] := by
  rw [writtenTerms]
  split
  · simp
  · simpa [isZero, SortedMap.isEmpty] using ‹¬a.isZero›

theorem text_eq (a : Poly) :
    a.text = [' ', '+', ' '].intercalate (a.writtenTerms.map fun t => termText t.1 t.2) := by
  rw [text, writtenTerms]
  split
  · decide
  · rfl

theorem writtenTerms_eq_of_text_eq {a b : Poly} (h : a.text = b.text) :
    a.writtenTerms = b.writtenTerms := by
  have hspace : ' ' ∉ decimals ++ Monomial.powerMarks := by decide
  rw [text_eq, text_eq] at h
  exact readable_termText.intercalate_inj hspace a.writtenTerms_ne_nil b.writtenTerms_ne_nil h

/-- No stored coefficient is zero, so the zero that is written for the zero polynomial is told from
the terms of the others. -/
theorem Reduced.entries_eq_filter {p : Nat} {a : Poly} (h : a.Reduced p) :
    a.terms.entries = a.writtenTerms.filter fun t => t.2 != 0 := by
  rw [writtenTerms]
  split
  · simpa [isZero, SortedMap.isEmpty] using ‹a.isZero›
  · refine (List.filter_eq_self.2 fun t ht => ?_).symm
    simpa using Nat.ne_of_gt (h t ht).1

variable {p : Nat} {a b : Poly}

/-- Two canonical polynomials are written alike if and only if they are equal, whatever coefficients
and exponents are left out and however long the numbers are. -/
theorem render_eq_render_iff (ha : a.Canonical p) (hb : b.Canonical p) :
    a.render = b.render ↔ a = b := by
  refine ⟨fun h => ?_, congrArg render⟩
  have htext : a.text = b.text := String.ofList_injective h
  have hterms : a.terms.entries = b.terms.entries := by
    rw [ha.reduced.entries_eq_filter, hb.reduced.entries_eq_filter,
      writtenTerms_eq_of_text_eq htext]
  cases a
  cases b
  exact congrArg Poly.mk (SortedMap.entries_injective hterms)

/-- `1 + 11 x₁ x₂²` modulo thirteen. -/
def twoVariables : Poly := ofTerms 13 [(.one, 1), (.ofPowers [(1, 1), (2, 2)], 11)]

/-- `1 + 11 x₁₂²` modulo thirteen. -/
def twoDigits : Poly := ofTerms 13 [(.one, 1), (.power 12 2, 11)]

/-- Only the `x` in front of a variable tells two variables from one with two digits. -/
theorem render_eq_render_iff_twoDigits :
    (twoVariables.Canonical 13 ∧ twoDigits.Canonical 13) ∧
      twoVariables.render = "1 + 11x₁x₂²" ∧ twoDigits.render = "1 + 11x₁₂²" ∧
      (twoVariables.render = twoDigits.render ↔ twoVariables = twoDigits) ∧
      twoVariables ≠ twoDigits := by
  have hvariables : twoVariables.Canonical 13 := canonical_iff.2 (by decide +kernel)
  have hdigits : twoDigits.Canonical 13 := canonical_iff.2 (by decide +kernel)
  have hiff := render_eq_render_iff hvariables hdigits
  exact ⟨⟨hvariables, hdigits⟩, by decide +kernel, by decide +kernel, hiff, by decide +kernel⟩

end Poly

end CircuitTrace
