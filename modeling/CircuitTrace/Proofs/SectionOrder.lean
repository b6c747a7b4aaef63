import CircuitTrace.Proofs.Offsets
import CircuitTrace.Proofs.Sections

/-!
What a list of sections is read as. Sections are looked at in order, and the first that holds custom
gates, or is a second header or second constraints, is refused whatever stands behind it. If there
is none, only the header and the constraints count, wherever they stand.
-/
namespace CircuitTrace

theorem Logged.outcome_foldlM {ε α β : Type} (f : β → α → Logged ε β) (l : List α) (b : β) :
    (l.foldlM f b).outcome = l.foldlM (fun b a => (f b a).outcome) b := by
  induction l generalizing b with
  | nil => rfl
  | cons a l ih =>
    rw [List.foldlM_cons, List.foldlM_cons, Logged.outcome_bind]
    exact congrArg ((f b a).outcome.bind ·) (funext ih)

namespace Container

variable {l : List (Nat × Bytes)} {m : SortedMap Nat Section}

/-- Sections that were written are read back one by one, and what comes of them is what comes of
adding them. -/
theorem readSections_flatMap_frame (hfits : ∀ s ∈ l, Fits s) (offset : Nat) (rest : Bytes) :
    readSections l.length ⟨offset, l.flatMap frame ++ rest⟩ m =
      (placed offset l).foldlM addSection m := by
  induction l generalizing offset m with
  | nil => rfl
  | cons s l ih =>
    obtain ⟨hs, hl⟩ := List.forall_mem_cons.1 hfits
    let next : Cursor := ⟨offset + 12 + s.2.length, l.flatMap frame ++ rest⟩
    have hover : (⟨offset, (s :: l).flatMap frame ++ rest⟩ : Cursor).Over (frame s) next := by
      refine ⟨?_, ?_⟩
      · rw [List.flatMap_cons, List.append_assoc]
      · rw [length_frame, ← Nat.add_assoc]
    have hread := readSection_run_eq_ok_iff.2 ⟨s.1, s.2, hs, rfl, hover⟩
    rw [List.length_cons, readSections, hread, placed, List.foldlM_cons]
    change (addSection m _ >>= fun m => readSections l.length next m) = _
    exact congrArg (addSection m _ >>= ·) (funext fun _ => ih hl _)

/-- What a byte string is read as depends on nothing but the sections that it starts with. -/
theorem Frames.parse_eq {bytes : Bytes} (h : Frames bytes l) : Circuit.parse bytes =
    (placed 12 l).foldlM addSection .empty >>= fun m => (⟨m⟩ : Container).circuit := by
  obtain ⟨⟨rest, rfl⟩, hcount, hfits⟩ := h
  have hover : (⟨0, encode l ++ rest⟩ : Cursor).Over
      (Bytes.ofNat 4 magic ++ Bytes.ofNat 4 version ++ Bytes.ofNat 4 l.length)
      ⟨12, l.flatMap frame ++ rest⟩ := ⟨by rw [encode_eq, List.append_assoc], by simp⟩
  rw [Circuit.parse, read, readPreamble_eq_ok_iff.2 ⟨hcount, hover⟩]
  change (readSections l.length ⟨12, l.flatMap frame ++ rest⟩ .empty >>= fun m =>
    pure (⟨m⟩ : Container)) >>= circuit = _
  rw [readSections_flatMap_frame hfits, Logged.bind_pure_bind]

theorem outcome_parse_encode (hcount : l.length < 2 ^ 32) (hfits : ∀ s ∈ l, Fits s) :
    (Circuit.parse (encode l)).outcome =
      ((placed 12 l).foldlM addSection .empty).outcome.bind fun m =>
        (⟨m⟩ : Container).circuit.outcome := by
  rw [Frames.parse_eq ⟨List.prefix_rfl, hcount, hfits⟩, Logged.outcome_bind]

/-- No section holds custom gates, at most one is a header and at most one holds constraints. -/
structure Clean (l : List (Nat × Bytes)) : Prop where
  noGates : ∀ s ∈ l, s.1 ≠ 4 ∧ s.1 ≠ 5
  single : ∀ t, t = 1 ∨ t = 2 → (payloads t l).length ≤ 1

theorem foldlM_addSection_of_clean (h : Clean l) (offset : Nat) :
    ((placed offset l).foldlM addSection .empty).outcome =
      .ok ((placed offset l).foldl index .empty) :=
  foldlM_addSection_eq_ok_iff.2 ⟨h.noGates, h.single, rfl⟩

theorem addSection_of_gates {t offset : Nat} {payload : Bytes} (ht : t = 4 ∨ t = 5) :
    (addSection m ⟨.ofType t, offset, payload⟩).outcome =
      .error (.unsupported (.customGates t)) := by
  rcases ht with rfl | rfl
  · rfl
  · rfl

theorem addSection_of_repeat {t offset : Nat} {payload : Bytes} (ht : t = 1 ∨ t = 2)
    (hm : m.contains t) : (addSection m ⟨.ofType t, offset, payload⟩).outcome =
      .error (.format (.duplicateSection (.ofType t))) := by
  rcases ht with rfl | rfl
  · simp [addSection, SectionKind.ofType, SectionKind.type, hm]
  · simp [addSection, SectionKind.ofType, SectionKind.type, hm]

theorem payloads_append (t : Nat) (l l' : List (Nat × Bytes)) :
    payloads t (l ++ l') = payloads t l ++ payloads t l' := by
  rw [payloads, List.filter_append, List.map_append]
  rfl

theorem placed_append (offset : Nat) (l l' : List (Nat × Bytes)) :
    placed offset (l ++ l') = placed offset l ++ placed (offset + (l.flatMap frame).length) l' := by
  induction l generalizing offset with
  | nil => rfl
  | cons s l ih =>
    rw [List.cons_append, placed, ih, placed, List.flatMap_cons, List.length_append, length_frame,
      List.cons_append, ← Nat.add_assoc, ← Nat.add_assoc]

/-- A section that is refused behind clean ones decides the outcome. -/
theorem outcome_of_refused {before after : List (Nat × Bytes)} {s : Nat × Bytes}
    {error : ParseError} (hcount : (before ++ s :: after).length < 2 ^ 32)
    (hfits : ∀ x ∈ before ++ s :: after, Fits x) (hclean : Clean before)
    (hrefused : ∀ (m : SortedMap Nat Section) (offset : Nat),
      (∀ t, m.contains t = true ↔ payloads t before ≠ []) →
      (addSection m ⟨.ofType s.1, offset, s.2⟩).outcome = .error error) :
    (Circuit.parse (encode (before ++ s :: after))).outcome = .error error := by
  have hbefore := foldlM_addSection_of_clean hclean 12
  have hseen (t : Nat) : ((placed 12 before).foldl index .empty).contains t = true ↔
      payloads t before ≠ [] := by
    rw [SortedMap.contains, Option.isSome_iff_ne_none, Ne, get?_read_eq_none_iff]
  have hall : ((placed 12 (before ++ s :: after)).foldlM addSection .empty).outcome =
      .error error := by
    rw [Logged.outcome_foldlM] at hbefore ⊢
    rw [placed_append, List.foldlM_append]
    refine bind_eq_error_iff.2 (.inr ⟨_, hbefore, ?_⟩)
    rw [placed, List.foldlM_cons, hrefused _ _ hseen]
    rfl
  rw [outcome_parse_encode hcount hfits, hall]
  rfl

section Refused

variable {before after : List (Nat × Bytes)} {s : Nat × Bytes}
  (hcount : (before ++ s :: after).length < 2 ^ 32) (hfits : ∀ x ∈ before ++ s :: after, Fits x)
  (hclean : Clean before)

include hcount hfits hclean

theorem outcome_of_gates (hs : s.1 = 4 ∨ s.1 = 5) :
    (Circuit.parse (encode (before ++ s :: after))).outcome =
      .error (.unsupported (.customGates s.1)) :=
  outcome_of_refused hcount hfits hclean fun _ _ _ => addSection_of_gates hs

theorem outcome_of_repeat (hs : s.1 = 1 ∨ s.1 = 2) (hbefore : payloads s.1 before ≠ []) :
    (Circuit.parse (encode (before ++ s :: after))).outcome =
      .error (.format (.duplicateSection (.ofType s.1))) :=
  outcome_of_refused hcount hfits hclean fun _ _ hseen =>
    addSection_of_repeat hs ((hseen s.1).2 hbefore)

end Refused

/-- Sections are clean, or there is a first one that is refused. -/
theorem clean_or_exists_refused (l : List (Nat × Bytes)) : Clean l ∨
    ∃ before s after, l = before ++ s :: after ∧ Clean before ∧
      ((s.1 = 4 ∨ s.1 = 5) ∨ (s.1 = 1 ∨ s.1 = 2) ∧ payloads s.1 before ≠ []) := by
  induction l using List.reverseRecOn with
  | nil => exact .inl ⟨by simp, by simp [payloads]⟩
  | append_singleton l s ih =>
    rcases ih with hclean | ⟨before, x, after, rfl, hclean, hrefused⟩
    · by_cases hrefused : (s.1 = 4 ∨ s.1 = 5) ∨ (s.1 = 1 ∨ s.1 = 2) ∧ payloads s.1 l ≠ []
      · exact .inr ⟨l, s, [], rfl, hclean, hrefused⟩
      · obtain ⟨hgates, hrepeat⟩ := not_or.1 hrefused
        refine .inl ⟨?_, ?_⟩
        · intro x hx
          rcases List.mem_append.1 hx with hx | hx
          · exact hclean.noGates x hx
          · obtain rfl := List.mem_singleton.1 hx
            exact not_or.1 hgates
        · intro t ht
          rw [payloads_append, List.length_append, payloads_cons]
          split
          · rename_i heq
            have hnil : payloads t l = [] := by
              subst heq
              simpa [ht] using hrepeat
            rw [hnil]
            exact le_rfl
          · exact hclean.single t ht
    · exact .inr ⟨before, x, after ++ [s], by simp, hclean, hrefused⟩

/-- Clean sections with the same header and the same constraints come to the same, up to offsets. -/
theorem outcome_parse_congr {l' : List (Nat × Bytes)} (hcount : l.length < 2 ^ 32)
    (hfits : ∀ s ∈ l, Fits s) (hclean : Clean l) (hcount' : l'.length < 2 ^ 32)
    (hfits' : ∀ s ∈ l', Fits s) (hclean' : Clean l')
    (hsame : ∀ t, t = 1 ∨ t = 2 → payloads t l = payloads t l') :
    (Circuit.parse (encode l)).outcome.mapError ParseError.forgetOffset =
      (Circuit.parse (encode l')).outcome.mapError ParseError.forgetOffset := by
  rw [outcome_parse_encode hcount hfits, outcome_parse_encode hcount' hfits',
    foldlM_addSection_of_clean hclean, foldlM_addSection_of_clean hclean']
  apply SamePayloads.circuit
  intro t ht
  rw [map_payload_get?_read, map_payload_get?_read, hsame t ht]

/-- The header and the constraints, in this order. -/
def essential (l : List (Nat × Bytes)) : List (Nat × Bytes) :=
  l.filter (·.1 = 1) ++ l.filter (·.1 = 2)

theorem payloads_filter_self (t : Nat) (l : List (Nat × Bytes)) :
    payloads t (l.filter (·.1 = t)) = payloads t l := by
  rw [payloads, payloads, List.filter_filter]
  simp

theorem payloads_filter_of_ne {t u : Nat} (h : t ≠ u) (l : List (Nat × Bytes)) :
    payloads t (l.filter (·.1 = u)) = [] := by
  rw [payloads, List.filter_filter, List.map_eq_nil_iff, List.filter_eq_nil_iff]
  intro s _ hs
  simp only [Bool.and_eq_true, decide_eq_true_eq] at hs
  exact h (hs.1.symm.trans hs.2)

theorem payloads_essential {t : Nat} (ht : t = 1 ∨ t = 2) (l : List (Nat × Bytes)) :
    payloads t (essential l) = payloads t l := by
  rw [essential, payloads_append]
  rcases ht with rfl | rfl
  · rw [payloads_filter_self, payloads_filter_of_ne (by decide), List.append_nil]
  · rw [payloads_filter_self, payloads_filter_of_ne (by decide), List.nil_append]

theorem mem_essential {l : List (Nat × Bytes)} {s : Nat × Bytes} (h : s ∈ essential l) :
    s ∈ l ∧ (s.1 = 1 ∨ s.1 = 2) := by
  rcases List.mem_append.1 h with h | h
  · obtain ⟨hmem, ht⟩ := List.mem_filter.1 h
    exact ⟨hmem, .inl (by simpa using ht)⟩
  · obtain ⟨hmem, ht⟩ := List.mem_filter.1 h
    exact ⟨hmem, .inr (by simpa using ht)⟩

theorem Clean.essential (h : Clean l) : Clean (essential l) where
  noGates s hs := by
    have ht := (mem_essential hs).2
    omega
  single t ht := by
    rw [payloads_essential ht]
    exact h.single t ht

theorem Clean.length_essential_le (h : Clean l) : (Container.essential l).length ≤ 2 := by
  have h₁ := h.single 1 (.inl rfl)
  have h₂ := h.single 2 (.inr rfl)
  simp only [payloads, List.length_map] at h₁ h₂
  rw [Container.essential, List.length_append]
  exact Nat.add_le_add h₁ h₂

/-- A section that may stand anywhere and any number of times. -/
def Ignored (s : Nat × Bytes) : Prop := s.1 = 0 ∨ s.1 = 3 ∨ 5 < s.1

instance (s : Nat × Bytes) : Decidable (Ignored s) := inferInstanceAs (Decidable (_ ∨ _))

theorem payloads_filter_not_ignored {t : Nat} (ht : t = 1 ∨ t = 2) (l : List (Nat × Bytes)) :
    payloads t (l.filter (¬Ignored ·)) = payloads t l := by
  rw [payloads, payloads, List.filter_filter]
  congr 1
  apply List.filter_congr
  intro s _
  by_cases hs : s.1 = t
  · have hkept : ¬Ignored s := by
      rw [Ignored]
      omega
    simp [hs, hkept]
  · simp [hs]

/-- Only the order and the number of the other sections decides nothing. -/
theorem Clean.of_perm {l' : List (Nat × Bytes)} (h : Clean l)
    (hperm : (l.filter (¬Ignored ·)).Perm (l'.filter (¬Ignored ·))) :
    Clean l' ∧ ∀ t, t = 1 ∨ t = 2 → payloads t l = payloads t l' := by
  have hpayloads (t : Nat) (ht : t = 1 ∨ t = 2) : (payloads t l).Perm (payloads t l') := by
    rw [← payloads_filter_not_ignored ht l, ← payloads_filter_not_ignored ht l']
    exact (hperm.filter _).map _
  refine ⟨⟨?_, ?_⟩, ?_⟩
  · intro s hs
    by_cases hignored : Ignored s
    · rw [Ignored] at hignored
      omega
    · have hmem : s ∈ l.filter (¬Ignored ·) :=
        hperm.mem_iff.2 (List.mem_filter.2 ⟨hs, by simpa using hignored⟩)
      exact h.noGates s (List.mem_filter.1 hmem).1
  · intro t ht
    rw [← (hpayloads t ht).length_eq]
    exact h.single t ht
  · intro t ht
    have hsingle := h.single t ht
    have hsame := hpayloads t ht
    cases hp : payloads t l with
    | nil =>
      rw [hp, List.nil_perm] at hsame
      exact hsame.symm
    | cons payload rest =>
      obtain rfl : rest = [] := by simpa [hp] using hsingle
      rw [hp, List.singleton_perm] at hsame
      exact hsame

/-- Accepted sections are clean. -/
theorem clean_of_parse (hcount : l.length < 2 ^ 32) (hfits : ∀ s ∈ l, Fits s) {k : Circuit}
    (h : (Circuit.parse (encode l)).outcome = .ok k) : Clean l := by
  rcases clean_or_exists_refused l with hclean | ⟨before, s, after, rfl, hclean, hgates | hrepeat⟩
  · exact hclean
  · rw [outcome_of_gates hcount hfits hclean hgates] at h
    cases h
  · rw [outcome_of_repeat hcount hfits hclean hrepeat.1 hrepeat.2] at h
    cases h

theorem parse_of_perm {l' : List (Nat × Bytes)} (hcount : l.length < 2 ^ 32)
    (hfits : ∀ s ∈ l, Fits s) (hcount' : l'.length < 2 ^ 32) (hfits' : ∀ s ∈ l', Fits s)
    (hperm : (l.filter (¬Ignored ·)).Perm (l'.filter (¬Ignored ·))) {k : Circuit}
    (h : (Circuit.parse (encode l)).outcome = .ok k) :
    (Circuit.parse (encode l')).outcome = .ok k := by
  have hclean := clean_of_parse hcount hfits h
  obtain ⟨hclean', hsame⟩ := hclean.of_perm hperm
  have houtcome := outcome_parse_congr hcount hfits hclean hcount' hfits' hclean' hsame
  rw [h] at houtcome
  exact mapError_eq_ok_iff.1 houtcome.symm

/-- The outcome of reading a list of sections, by the first that is refused; without one the
outcome is that of the header and the constraints alone. -/
theorem parse_encode_sections {l : List (Nat × Bytes)} (hcount : l.length < 2 ^ 32)
    (hfits : ∀ s ∈ l, Fits s) :
    (∀ before s after, l = before ++ s :: after → Clean before →
      (s.1 = 4 ∨ s.1 = 5 → (Circuit.parse (encode l)).outcome =
        .error (.unsupported (.customGates s.1))) ∧
      (s.1 = 1 ∨ s.1 = 2 → payloads s.1 before ≠ [] → (Circuit.parse (encode l)).outcome =
        .error (.format (.duplicateSection (.ofType s.1))))) ∧
    (Clean l → (Circuit.parse (encode l)).outcome.mapError ParseError.forgetOffset =
      (Circuit.parse (encode (essential l))).outcome.mapError ParseError.forgetOffset) ∧
    (Clean l ∨ ∃ before s after, l = before ++ s :: after ∧ Clean before ∧
      ((s.1 = 4 ∨ s.1 = 5) ∨ (s.1 = 1 ∨ s.1 = 2) ∧ payloads s.1 before ≠ [])) ∧
    ∀ l' : List (Nat × Bytes), l'.length < 2 ^ 32 → (∀ s ∈ l', Fits s) →
      (l.filter (¬Ignored ·)).Perm (l'.filter (¬Ignored ·)) → ∀ k,
      (Circuit.parse (encode l)).outcome = .ok k ↔ (Circuit.parse (encode l')).outcome = .ok k := by
  refine ⟨?_, ?_, clean_or_exists_refused l, ?_⟩
  · rintro before s after rfl hclean
    exact ⟨outcome_of_gates hcount hfits hclean, outcome_of_repeat hcount hfits hclean⟩
  · intro hclean
    have hlength := hclean.length_essential_le
    apply outcome_parse_congr hcount hfits hclean (by omega)
    · exact fun s hs => hfits s (mem_essential hs).1
    · exact hclean.essential
    · exact fun t ht => (payloads_essential ht l).symm
  · intro l' hcount' hfits' hperm k
    constructor
    · exact parse_of_perm hcount hfits hcount' hfits' hperm
    · exact parse_of_perm hcount' hfits' hcount hfits hperm.symm

/-- The square of the constant wire. -/
def squaredOne : Circuit where
  fieldSize := 1
  prime := 97
  wireCount := 1
  outputCount := 0
  publicCount := 0
  privateCount := 0
  labelCount := 1
  constraints := [⟨.ofList [(0, 1)], .ofList [(0, 1)], .ofList [(0, 1)]⟩]

/-- Constraints in front of the header, among sections that are ignored; custom gates between two
headers; and custom gates behind two sections of constraints. -/
theorem parse_encode_sections_squaredOne :
    (Circuit.parse (encode [(3, []), (2, squaredOne.encodeConstraints), (7, [1, 2]),
      (1, squaredOne.encodeHeader), (3, [9])])).outcome = .ok squaredOne ∧
    (Circuit.parse (encode [(1, []), (5, [0]), (1, [])])).outcome =
      .error (.unsupported (.customGates 5)) ∧
    (Circuit.parse (encode [(2, []), (2, []), (4, [])])).outcome =
      .error (.format (.duplicateSection .constraints)) := by
  have hclean (t : Nat) (ht : t = 1 ∨ t = 2) : Clean [(t, [])] := by
    rcases ht with rfl | rfl
    · exact ⟨by decide, by simp [payloads]⟩
    · exact ⟨by decide, by simp [payloads]⟩
  refine ⟨?_, ?_, ?_⟩
  · obtain ⟨-, -, -, hreordered⟩ := parse_encode_sections
      (l := [(1, squaredOne.encodeHeader), (2, squaredOne.encodeConstraints)]) (by decide)
      (by decide +kernel)
    refine (hreordered _ (by decide) (by decide +kernel) ?_ squaredOne).1 ?_
    · exact List.Perm.swap _ _ []
    · decide +kernel
  · obtain ⟨hrefused, -⟩ := parse_encode_sections (l := [(1, []), (5, [0]), (1, [])]) (by decide)
      (by decide +kernel)
    exact (hrefused [(1, [])] (5, [0]) [(1, [])] rfl (hclean 1 (.inl rfl))).1 (.inr rfl)
  · obtain ⟨hrefused, -⟩ := parse_encode_sections (l := [(2, []), (2, []), (4, [])]) (by decide)
      (by decide +kernel)
    exact (hrefused [(2, [])] (2, []) [(4, [])] rfl (hclean 2 (.inr rfl))).2 (.inr rfl) (by decide)

end Container

end CircuitTrace
