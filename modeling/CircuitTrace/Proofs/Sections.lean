import CircuitTrace.Container.Encoding
import CircuitTrace.Proofs.Decoding
import CircuitTrace.Proofs.SortedMap

namespace CircuitTrace

namespace SectionKind

@[simp] theorem type_ofType (t : Nat) : (ofType t).type = t := by
  unfold ofType
  split <;> rfl

theorem ofType_of_ne {t : Nat} (h1 : t ≠ 1) (h2 : t ≠ 2) (h3 : t ≠ 3) (h4 : t ≠ 4) (h5 : t ≠ 5) :
    ofType t = .unknown t := by
  unfold ofType
  split <;> first | contradiction | rfl

end SectionKind

namespace Container

/-- A section as bytes: its type and its length, then its payload. -/
def frame (s : Nat × Bytes) : Bytes := Bytes.ofNat 4 s.1 ++ Bytes.ofNat 8 s.2.length ++ s.2

/-- A section whose type and length can be written. -/
def Fits (s : Nat × Bytes) : Prop := s.1 < 2 ^ 32 ∧ s.2.length < 2 ^ 63

instance (s : Nat × Bytes) : Decidable (Fits s) := inferInstanceAs (Decidable (_ ∧ _))

theorem encode_eq (sections : List (Nat × Bytes)) :
    encode sections = Bytes.ofNat 4 magic ++ Bytes.ofNat 4 version ++
      Bytes.ofNat 4 sections.length ++ sections.flatMap frame := rfl

theorem fitsInt_length {n : Nat} (h : n < 2 ^ 63) : Bytes.FitsInt 8 n := by
  rw [Bytes.FitsInt]
  norm_num
  omega

theorem ofInt_length {n : Nat} (h : n < 2 ^ 63) : Bytes.ofInt 8 n = Bytes.ofNat 8 n := by
  apply Bytes.ofInt_natCast
  norm_num
  omega

/-- A section that is read knows where its payload was found. -/
theorem readSection_run_eq_ok_iff {c c' : Cursor} {s : Section} :
    readSection.run c = .ok (s, c') ↔ ∃ t payload, Fits (t, payload) ∧
      s = ⟨.ofType t, c.offset + 12, payload⟩ ∧ c.Over (frame (t, payload)) c' := by
  constructor
  · intro h
    rw [readSection] at h
    obtain ⟨t, c₁, ht, h⟩ := Decoder.bind_run_eq_ok_iff.1 h
    obtain ⟨length, c₂, hlength, h⟩ := Decoder.bind_run_eq_ok_iff.1 h
    obtain ⟨hpos, h⟩ := Decoder.guard_run_eq_ok h
    obtain ⟨start, c₃, hget, h⟩ := Decoder.bind_run_eq_ok_iff.1 h
    cases hget
    obtain ⟨henough, h⟩ := Decoder.guard_run_eq_ok h
    cases h
    obtain ⟨_, ⟨htype, rfl⟩, hover₁⟩ := (Decoder.accepts_u32 _ _ _).1 ht
    obtain ⟨_, ⟨hfits, rfl⟩, hover₂⟩ := (Decoder.accepts_i64 _ _ _).1 hlength
    obtain ⟨n, rfl⟩ := Int.eq_ofNat_of_zero_le (not_lt.1 hpos)
    have hn : n < 2 ^ 63 := by
      have hhigh := hfits.2
      norm_num at hhigh
      omega
    have hlen : (c₂.rest.take n).length = n := by
      have := List.length_take_le n c₂.rest
      simp only [Int.toNat_natCast, not_lt] at henough
      omega
    have hoffset : c₂.offset = c.offset + 12 := by
      rw [hover₂.2, hover₁.2, Bytes.length_ofInt, Bytes.length_ofNat]
    refine ⟨t, c₂.rest.take n, ⟨htype, by rwa [hlen]⟩, by rw [hoffset, Int.toNat_natCast], ?_⟩
    rw [frame, hlen, ← ofInt_length hn]
    apply Cursor.over_append_iff.2
    refine ⟨c₂, Cursor.over_append_iff.2 ⟨c₁, hover₁, hover₂⟩, ?_, ?_⟩
    · rw [Int.toNat_natCast, List.take_append_drop]
    · rw [hlen, Int.toNat_natCast]
  · rintro ⟨t, payload, ⟨htype, hn⟩, rfl, hover⟩
    rw [frame, ← ofInt_length hn] at hover
    obtain ⟨c₂, hover, hrest, hoffset⟩ := Cursor.over_append_iff.1 hover
    obtain ⟨c₁, hover₁, hover₂⟩ := Cursor.over_append_iff.1 hover
    have hstart : c₂.offset = c.offset + 12 := by
      rw [hover₂.2, hover₁.2, Bytes.length_ofInt, Bytes.length_ofNat]
    have htake : c₂.rest.take payload.length = payload := by rw [hrest, List.take_left]
    have hdrop : c₂.rest.drop payload.length = c'.rest := by rw [hrest, List.drop_left]
    rw [readSection]
    apply Decoder.bind_run_eq_ok_iff.2
    refine ⟨t, c₁, (Decoder.accepts_u32 _ _ _).2 ⟨_, ⟨htype, rfl⟩, hover₁⟩, ?_⟩
    apply Decoder.bind_run_eq_ok_iff.2
    refine ⟨payload.length, c₂, (Decoder.accepts_i64 _ _ _).2
      ⟨_, ⟨fitsInt_length hn, rfl⟩, hover₂⟩, ?_⟩
    rw [if_neg (by omega)]
    apply Decoder.bind_run_eq_ok_iff.2
    refine ⟨c₂, c₂, rfl, ?_⟩
    rw [Int.toNat_natCast, htake, if_neg (lt_irrefl _), hdrop, hstart]
    rw [hstart] at hoffset
    rw [← hoffset]
    rfl

/-- Sections as they are found from an offset on. -/
def placed : Nat → List (Nat × Bytes) → List Section
  | _, [] => []
  | offset, s :: rest =>
    ⟨.ofType s.1, offset + 12, s.2⟩ :: placed (offset + 12 + s.2.length) rest

theorem length_frame (s : Nat × Bytes) : (frame s).length = 12 + s.2.length := by
  simp [frame]
  omega

/-- Sections are read one behind the other, each being added when it is read. -/
theorem readSections_eq_ok_iff {count : Nat} {c : Cursor} {m m' : SortedMap Nat Section} :
    (readSections count c m).outcome = .ok m' ↔ ∃ (l : List (Nat × Bytes)) (c' : Cursor),
      l.length = count ∧ (∀ s ∈ l, Fits s) ∧ c.Over (l.flatMap frame) c' ∧
        ((placed c.offset l).foldlM addSection m).outcome = .ok m' := by
  induction count generalizing c m with
  | zero =>
    constructor
    · intro h
      exact ⟨[], c, rfl, by simp, Cursor.over_nil_iff.2 rfl, h⟩
    · rintro ⟨l, c', hlen, -, -, h⟩
      rwa [List.eq_nil_of_length_eq_zero hlen] at h
  | succ count ih =>
    rw [readSections, Logged.outcome_bind_eq_ok_iff]
    constructor
    · rintro ⟨⟨s, c₁⟩, hread, hbind⟩
      obtain ⟨m₁, hadd, hrest⟩ := Logged.outcome_bind_eq_ok_iff.1 hbind
      have hread : readSection.run c = .ok (s, c₁) := mapError_eq_ok_iff.1 hread
      obtain ⟨t, payload, hfits, rfl, hover⟩ := readSection_run_eq_ok_iff.1 hread
      obtain ⟨l, c', rfl, hl, hover', hfold⟩ := ih.1 hrest
      have hoffset : c₁.offset = c.offset + 12 + payload.length := by
        rw [hover.2, length_frame, Nat.add_assoc]
      refine ⟨(t, payload) :: l, c', rfl, List.forall_mem_cons.2 ⟨hfits, hl⟩, ?_, ?_⟩
      · rw [List.flatMap_cons]
        exact Cursor.over_append_iff.2 ⟨c₁, hover, hover'⟩
      · rw [placed, List.foldlM_cons]
        rw [hoffset] at hfold
        exact Logged.outcome_bind_eq_ok_iff.2 ⟨m₁, hadd, hfold⟩
    · rintro ⟨l, c', hlen, hl, hover, hfold⟩
      obtain ⟨⟨t, payload⟩, l, rfl⟩ := List.exists_cons_of_length_eq_add_one hlen
      obtain ⟨hfits, hl⟩ := List.forall_mem_cons.1 hl
      rw [List.flatMap_cons] at hover
      obtain ⟨c₁, hover, hover'⟩ := Cursor.over_append_iff.1 hover
      rw [placed, List.foldlM_cons] at hfold
      obtain ⟨m₁, hadd, hfold⟩ := Logged.outcome_bind_eq_ok_iff.1 hfold
      have hoffset : c₁.offset = c.offset + 12 + payload.length := by
        rw [hover.2, length_frame, Nat.add_assoc]
      have hread := readSection_run_eq_ok_iff.2 ⟨t, payload, hfits, rfl, hover⟩
      refine ⟨(_, c₁), mapError_eq_ok_iff.2 hread, ?_⟩
      apply Logged.outcome_bind_eq_ok_iff.2
      refine ⟨m₁, hadd, ih.2 ⟨l, c', by simpa using hlen, hl, hover', ?_⟩⟩
      rwa [hoffset]

/-- Keeps the first section of each type. -/
def index (m : SortedMap Nat Section) (s : Section) : SortedMap Nat Section :=
  if m.contains s.kind.type then m else m.insert s.kind.type s

theorem addSection_eq_ok_iff {m m' : SortedMap Nat Section} {t offset : Nat} {payload : Bytes} :
    (addSection m ⟨.ofType t, offset, payload⟩).outcome = .ok m' ↔ (t ≠ 4 ∧ t ≠ 5) ∧
      (t = 1 ∨ t = 2 → m.contains t = false) ∧ m' = index m ⟨.ofType t, offset, payload⟩ := by
  by_cases h1 : t = 1
  · subst h1
    cases hm : m.contains 1 <;>
      simp [addSection, index, SectionKind.ofType, SectionKind.type, hm, eq_comm]
  by_cases h2 : t = 2
  · subst h2
    cases hm : m.contains 2 <;>
      simp [addSection, index, SectionKind.ofType, SectionKind.type, hm, eq_comm]
  by_cases h3 : t = 3
  · subst h3
    cases hm : m.contains 3 <;>
      simp [addSection, index, SectionKind.ofType, SectionKind.type, hm, eq_comm, Except.bind]
  by_cases h4 : t = 4
  · subst h4
    simp [addSection, SectionKind.ofType]
  by_cases h5 : t = 5
  · subst h5
    simp [addSection, SectionKind.ofType]
  rw [SectionKind.ofType_of_ne h1 h2 h3 h4 h5]
  cases hm : m.contains t <;>
    simp [addSection, index, SectionKind.type, hm, h1, h2, h4, h5, eq_comm, Except.bind]

theorem contains_index (m : SortedMap Nat Section) (s : Section) (t : Nat) :
    (index m s).contains t = true ↔ m.contains t = true ∨ t = s.kind.type := by
  rw [index]
  split
  · rename_i hm
    constructor
    · exact Or.inl
    · rintro (h | rfl)
      · exact h
      · exact hm
  · rw [SortedMap.contains, SortedMap.get?_insert, SortedMap.contains]
    split
    · rename_i ht
      simp [ht]
    · rename_i ht
      simp [ht]

/-- The payloads of the sections of one type, in order. -/
def payloads (t : Nat) (l : List (Nat × Bytes)) : List Bytes :=
  (l.filter (·.1 = t)).map Prod.snd

theorem payloads_cons (t : Nat) (s : Nat × Bytes) (l : List (Nat × Bytes)) :
    payloads t (s :: l) = if s.1 = t then s.2 :: payloads t l else payloads t l := by
  by_cases h : s.1 = t <;> simp [payloads, h]

/-- A second section of a type that has a meaning is refused, wherever the first was. -/
theorem foldlM_addSection_eq_ok_iff {m m' : SortedMap Nat Section} {offset : Nat}
    {l : List (Nat × Bytes)} :
    ((placed offset l).foldlM addSection m).outcome = .ok m' ↔ (∀ s ∈ l, s.1 ≠ 4 ∧ s.1 ≠ 5) ∧
      (∀ t, t = 1 ∨ t = 2 → (payloads t l).length ≤ if m.contains t then 0 else 1) ∧
        m' = (placed offset l).foldl index m := by
  induction l generalizing m offset with
  | nil =>
    constructor
    · intro h
      obtain rfl := Except.ok.inj h
      exact ⟨by simp, by simp [payloads], rfl⟩
    · rintro ⟨-, -, rfl⟩
      rfl
  | cons s l ih =>
    rw [placed, List.foldlM_cons, Logged.outcome_bind_eq_ok_iff, List.foldl_cons,
      List.forall_mem_cons]
    have hcount (t : Nat) (ht : t = 1 ∨ t = 2) :
        ((payloads t (s :: l)).length ≤ if m.contains t then 0 else 1) ↔
          ((s.1 = t → m.contains t = false) ∧ (payloads t l).length ≤
            if (index m ⟨.ofType s.1, offset + 12, s.2⟩).contains t then 0 else 1) := by
      have hindex := contains_index m ⟨.ofType s.1, offset + 12, s.2⟩ t
      rw [SectionKind.type_ofType] at hindex
      rw [payloads_cons]
      by_cases hs : s.1 = t
      · rw [hindex.2 (.inr hs.symm)]
        cases hm : m.contains t <;> simp [hs]
      · have hc : (index m ⟨.ofType s.1, offset + 12, s.2⟩).contains t = m.contains t := by
          rw [Bool.eq_iff_iff, hindex]
          exact or_iff_left (Ne.symm hs)
        simp [hs, hc]
    constructor
    · rintro ⟨m₁, hadd, h⟩
      obtain ⟨hgates, hnew, rfl⟩ := addSection_eq_ok_iff.1 hadd
      obtain ⟨hgates', hcounts, rfl⟩ := ih.1 h
      refine ⟨⟨hgates, hgates'⟩, ?_, rfl⟩
      intro t ht
      apply (hcount t ht).2
      exact ⟨fun hs => hs ▸ hnew (hs ▸ ht), hcounts t ht⟩
    · rintro ⟨⟨hgates, hgates'⟩, hcounts, rfl⟩
      refine ⟨_, addSection_eq_ok_iff.2 ⟨hgates, ?_, rfl⟩, ih.2 ⟨hgates', ?_, rfl⟩⟩
      · intro ht
        exact ((hcount s.1 ht).1 (hcounts s.1 ht)).1 rfl
      · intro t ht
        exact ((hcount t ht).1 (hcounts t ht)).2

/-- What is found under a type is the first section of the type. -/
theorem get?_foldl_index (l : List Section) (m : SortedMap Nat Section) (t : Nat) :
    (l.foldl index m).get? t = (m.get? t).or (l.find? (·.kind.type = t)) := by
  induction l generalizing m with
  | nil => simp
  | cons s l ih =>
    rw [List.foldl_cons, ih, List.find?_cons, index]
    by_cases hs : s.kind.type = t
    · subst hs
      cases hm : m.get? s.kind.type with
      | none => simp [SortedMap.contains, hm, SortedMap.get?_insert]
      | some d => simp [SortedMap.contains, hm]
    · cases hm : m.contains s.kind.type <;> simp [hs, SortedMap.get?_insert, Ne.symm hs]

theorem map_payload_find?_placed (t offset : Nat) (l : List (Nat × Bytes)) :
    ((placed offset l).find? (·.kind.type = t)).map Section.payload = (payloads t l).head? := by
  induction l generalizing offset with
  | nil => rfl
  | cons s l ih =>
    rw [placed, List.find?_cons, payloads_cons, SectionKind.type_ofType]
    by_cases hs : s.1 = t
    · simp [hs]
    · simpa [hs] using ih _

/-- A byte string starts with a magic number, a version, the number of sections and the sections.
What stands behind them is not looked at. -/
structure Frames (bytes : Bytes) (sections : List (Nat × Bytes)) : Prop where
  starts : encode sections <+: bytes
  count_lt : sections.length < 2 ^ 32
  fits : ∀ s ∈ sections, Fits s

theorem readPreamble_eq_ok_iff {c c' : Cursor} {count : Nat} :
    readPreamble c = .ok (count, c') ↔ count < 2 ^ 32 ∧ c.Over
      (Bytes.ofNat 4 magic ++ Bytes.ofNat 4 version ++ Bytes.ofNat 4 count) c' := by
  constructor
  · intro h
    rw [readPreamble] at h
    obtain ⟨⟨found, c₁⟩, h₁, h⟩ := bind_eq_ok_iff.1 h
    obtain ⟨-, ⟨-, rfl⟩, hover₁⟩ := (Decoder.accepts_u32 _ _ _).1 (mapError_eq_ok_iff.1 h₁)
    obtain ⟨hmagic, h⟩ := guard_eq_ok h
    obtain ⟨⟨found', c₂⟩, h₂, h⟩ := bind_eq_ok_iff.1 h
    obtain ⟨-, ⟨-, rfl⟩, hover₂⟩ := (Decoder.accepts_u32 _ _ _).1 (mapError_eq_ok_iff.1 h₂)
    obtain ⟨hversion, h⟩ := guard_eq_ok h
    obtain ⟨-, ⟨hcount, rfl⟩, hover₃⟩ := (Decoder.accepts_u32 _ _ _).1 (mapError_eq_ok_iff.1 h)
    simp only [ne_eq, not_not] at hmagic hversion
    subst hmagic hversion
    exact ⟨hcount, Cursor.over_append_iff.2 ⟨c₂, Cursor.over_append_iff.2 ⟨c₁, hover₁, hover₂⟩,
      hover₃⟩⟩
  · rintro ⟨hcount, hover⟩
    obtain ⟨c₂, hover, hover₃⟩ := Cursor.over_append_iff.1 hover
    obtain ⟨c₁, hover₁, hover₂⟩ := Cursor.over_append_iff.1 hover
    have h₁ := (Decoder.accepts_u32 c magic c₁).2 ⟨_, ⟨by decide, rfl⟩, hover₁⟩
    have h₂ := (Decoder.accepts_u32 c₁ version c₂).2 ⟨_, ⟨by decide, rfl⟩, hover₂⟩
    have h₃ := (Decoder.accepts_u32 c₂ count c').2 ⟨_, ⟨hcount, rfl⟩, hover₃⟩
    rw [readPreamble, h₁, Except.mapError]
    simp [h₂, h₃, Except.mapError, bind, Except.bind]

/-- A byte string is read as a container exactly when it starts with sections none of which holds
custom gates and among which at most one is a header and at most one holds constraints. -/
theorem read_eq_ok_iff {bytes : Bytes} {k : Container} :
    (read bytes).outcome = .ok k ↔ ∃ sections, Frames bytes sections ∧
      (∀ s ∈ sections, s.1 ≠ 4 ∧ s.1 ≠ 5) ∧
      (∀ t, t = 1 ∨ t = 2 → (payloads t sections).length ≤ 1) ∧
      k = ⟨(placed 12 sections).foldl index .empty⟩ := by
  rw [read, Logged.outcome_bind_eq_ok_iff]
  constructor
  · rintro ⟨⟨count, c⟩, hpreamble, hbind⟩
    obtain ⟨m, h, hk⟩ := Logged.outcome_bind_eq_ok_iff.1 hbind
    obtain rfl := Except.ok.inj hk
    obtain ⟨hcount, hover⟩ := readPreamble_eq_ok_iff.1 hpreamble
    obtain ⟨sections, c', rfl, hfits, hover', hfold⟩ := readSections_eq_ok_iff.1 h
    have hoffset : c.offset = 12 := by simpa using hover.2
    rw [hoffset] at hfold
    obtain ⟨hgates, hcounts, rfl⟩ := foldlM_addSection_eq_ok_iff.1 hfold
    have hstarts := (Cursor.over_append_iff.2 ⟨c, hover, hover'⟩).1
    exact ⟨sections, ⟨⟨c'.rest, hstarts.symm⟩, hcount, hfits⟩, hgates, hcounts, rfl⟩
  · rintro ⟨sections, ⟨⟨rest, hstarts⟩, hcount, hfits⟩, hgates, hcounts, rfl⟩
    have hover : (⟨0, bytes⟩ : Cursor).Over (encode sections)
        ⟨0 + (encode sections).length, rest⟩ := ⟨hstarts.symm, rfl⟩
    rw [encode_eq] at hover
    obtain ⟨c, hover, hover'⟩ := Cursor.over_append_iff.1 hover
    have hoffset : c.offset = 12 := by simpa using hover.2
    refine ⟨(sections.length, c), readPreamble_eq_ok_iff.2 ⟨hcount, hover⟩, ?_⟩
    apply Logged.outcome_bind_eq_ok_iff.2
    refine ⟨_, readSections_eq_ok_iff.2 ⟨sections, _, rfl, hfits, hover', ?_⟩, rfl⟩
    rw [hoffset]
    exact foldlM_addSection_eq_ok_iff.2 ⟨hgates, hcounts, rfl⟩

/-- A container that was read has the first payload of each type. -/
theorem map_payload_get?_read (sections : List (Nat × Bytes)) (t : Nat) :
    (((placed 12 sections).foldl index .empty).get? t).map Section.payload =
      (payloads t sections).head? := by
  rw [get?_foldl_index, SortedMap.get?_empty, Option.none_or, map_payload_find?_placed]

theorem get?_read_eq_none_iff {sections : List (Nat × Bytes)} {t : Nat} :
    ((placed 12 sections).foldl index .empty).get? t = none ↔ payloads t sections = [] := by
  rw [← Option.map_eq_none_iff, map_payload_get?_read, List.head?_eq_none_iff]

theorem exists_get?_read_iff {sections : List (Nat × Bytes)} {t : Nat} {P : Bytes → Prop}
    (h : (payloads t sections).length ≤ 1) :
    (∃ s, ((placed 12 sections).foldl index .empty).get? t = some s ∧ P s.payload) ↔
      ∃ payload, payloads t sections = [payload] ∧ P payload := by
  have hfirst := map_payload_get?_read sections t
  constructor
  · rintro ⟨s, hs, hP⟩
    refine ⟨s.payload, ?_, hP⟩
    cases hp : payloads t sections with
    | nil => simp [hs, hp] at hfirst
    | cons payload rest =>
      have hnil : rest = [] := by simpa [hp] using h
      have hhead : s.payload = payload := by simpa [hs, hp] using hfirst
      rw [hnil, hhead]
  · rintro ⟨payload, hp, hP⟩
    rw [hp, List.head?_cons] at hfirst
    obtain ⟨s, hs, rfl⟩ := Option.map_eq_some_iff.1 hfirst
    exact ⟨s, hs, hP⟩

end Container

end CircuitTrace
