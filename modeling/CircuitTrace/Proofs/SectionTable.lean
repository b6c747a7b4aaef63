import CircuitTrace.Proofs.Truncation

/-!
The sections of a container lie within its bytes. Main statement: whatever number of sections and
whatever lengths are declared, each section is looked for at an offset within the bytes, and if all
are found, those that are kept are the first ones of their types, lie within the bytes and do not
overlap. Each section takes twelve bytes at least, so a wrong number of them is found out soon.
-/
namespace CircuitTrace

namespace Cursor

variable {bytes b b' : Bytes} {c c' : Cursor}

/-- A cursor stands in a byte string, at its end at the latest, and what is left is what lies behind
its offset. -/
structure Within (bytes : Bytes) (c : Cursor) : Prop where
  offset_le : c.offset ≤ bytes.length
  rest_eq : c.rest = bytes.drop c.offset

theorem within_start (bytes : Bytes) : (⟨0, bytes⟩ : Cursor).Within bytes :=
  ⟨Nat.zero_le _, rfl⟩

theorem Within.offset_add_length (h : c.Within bytes) :
    c.offset + c.rest.length = bytes.length := by
  rw [h.rest_eq, List.length_drop, Nat.add_sub_cancel' h.offset_le]

theorem Within.over (h : c.Within bytes) (hover : c.Over b c') : c'.Within bytes := by
  have hlength : c'.offset + c'.rest.length = bytes.length :=
    hover.offset_add_length.trans h.offset_add_length
  constructor
  · rw [← hlength]
    exact Nat.le_add_right _ _
  · rw [hover.2, ← List.drop_drop, ← h.rest_eq, hover.1, List.drop_left]

/-- What was read behind a cursor is a stretch of the bytes. -/
theorem Within.take_drop (h : c.Within bytes) (hover : c.Over b c') :
    (bytes.drop c.offset).take b.length = b := by
  rw [← h.rest_eq, hover.1, List.take_left]

end Cursor

namespace Section

/-- The payload of a section is a stretch of the bytes. -/
structure Lies (bytes : Bytes) (s : Section) : Prop where
  end_le : s.offset + s.payload.length ≤ bytes.length
  payload_eq : (bytes.drop s.offset).take s.payload.length = s.payload

/-- A section ends in front of the type and the length of another. -/
def Before (s t : Section) : Prop := s.offset + s.payload.length + 12 ≤ t.offset

/-- Two sections that share no byte. -/
def Apart (s t : Section) : Prop := s.Before t ∨ t.Before s

instance : Std.Symm Apart := ⟨fun _ _ => Or.symm⟩

end Section

namespace Container

variable {bytes : Bytes}

theorem le_offset_of_mem_placed {offset : Nat} {l : List (Nat × Bytes)} {s : Section}
    (hs : s ∈ placed offset l) : offset + 12 ≤ s.offset := by
  induction l generalizing offset with
  | nil => cases hs
  | cons x l ih =>
    rcases List.mem_cons.1 hs with rfl | hs
    · exact le_rfl
    · have := ih hs
      omega

/-- Sections lie one behind the other. -/
theorem pairwise_placed (offset : Nat) (l : List (Nat × Bytes)) :
    (placed offset l).Pairwise Section.Before := by
  induction l generalizing offset with
  | nil => exact .nil
  | cons x l ih => exact .cons (fun s => le_offset_of_mem_placed) (ih _)

theorem lies_of_mem_placed {c c' : Cursor} (hc : c.Within bytes) {l : List (Nat × Bytes)}
    (hover : c.Over (l.flatMap frame) c') {s : Section} (hs : s ∈ placed c.offset l) :
    s.Lies bytes := by
  induction l generalizing c with
  | nil => cases hs
  | cons x l ih =>
    rw [List.flatMap_cons] at hover
    obtain ⟨d, hframe, hover⟩ := Cursor.over_append_iff.1 hover
    have hd := hc.over hframe
    rcases List.mem_cons.1 hs with rfl | hs
    · obtain ⟨start, hhead, hpayload⟩ := Cursor.over_append_iff.1 hframe
      have hoffset : start.offset = c.offset + 12 := by
        rw [hhead.2, List.length_append, Bytes.length_ofNat, Bytes.length_ofNat]
      have hend := hd.offset_le
      rw [hpayload.2] at hend
      rw [← hoffset]
      exact ⟨hend, (hc.over hhead).take_drop hpayload⟩
    · have hoffset : d.offset = c.offset + 12 + x.2.length := by
        rw [hframe.2, length_frame, Nat.add_assoc]
      rw [← hoffset] at hs
      exact ih hd hover hs

/-- Between two sections: what is left to read, and the sections that are kept. -/
structure Scan where
  cursor : Cursor
  sections : SortedMap Nat Section

namespace Scan

variable {s s' : Scan} {n : Nat}

/-- Reads one section. -/
def next (s : Scan) : Except ParseError Scan := do
  let (found, cursor) ← (readSection.run s.cursor).mapError .format
  let sections ← (addSection s.sections found).outcome
  return ⟨cursor, sections⟩

/-- Reads some sections. -/
def after : (n : Nat) → Scan → Except ParseError Scan
  | 0, s => .ok s
  | n + 1, s => s.next >>= after n

theorem outcome_readSections (n : Nat) (s : Scan) :
    (readSections n s.cursor s.sections).outcome = (s.after n).map Scan.sections := by
  induction n generalizing s with
  | zero => rfl
  | succ n ih =>
    rw [readSections, Logged.outcome_bind, Logged.outcome_monadLift, after, next]
    cases (readSection.run s.cursor).mapError ParseError.format with
    | error e => rfl
    | ok r =>
      change ((addSection s.sections r.1 >>= fun m => readSections n r.2 m) :
        Logged _ _).outcome = _
      rw [Logged.outcome_bind]
      cases hadd : (addSection s.sections r.1).outcome with
      | error e => simp [hadd, bind, Except.bind, Except.map]
      | ok m =>
        have := ih ⟨r.2, m⟩
        simpa [hadd, bind, Except.bind, pure, Except.pure] using this

/-- A section that was read takes its type, its length and its payload. -/
theorem next_spec (h : s.next = .ok s') (hs : s.cursor.Within bytes) :
    s'.cursor.Within bytes ∧ s.cursor.offset + 12 ≤ s'.cursor.offset := by
  obtain ⟨⟨found, cursor⟩, hread, h⟩ := bind_eq_ok_iff.1 h
  obtain ⟨sections, -, h⟩ := bind_eq_ok_iff.1 h
  obtain rfl := Except.ok.inj h
  obtain ⟨t, payload, -, -, hover⟩ := readSection_run_eq_ok_iff.1 (mapError_eq_ok_iff.1 hread)
  refine ⟨hs.over hover, ?_⟩
  rw [hover.2, length_frame]
  omega

theorem after_spec (h : s.after n = .ok s') (hs : s.cursor.Within bytes) :
    s'.cursor.Within bytes ∧ s.cursor.offset + 12 * n ≤ s'.cursor.offset := by
  induction n generalizing s with
  | zero =>
    obtain rfl := Except.ok.inj h
    exact ⟨hs, le_rfl⟩
  | succ n ih =>
    obtain ⟨d, hnext, h⟩ := bind_eq_ok_iff.1 h
    obtain ⟨hd, hstep⟩ := next_spec hnext hs
    obtain ⟨hs', hrun⟩ := ih h hd
    exact ⟨hs', by omega⟩

/-- Sections that cannot all be read are read up to one that fails. -/
theorem exists_of_after_eq_error {e : ParseError} (h : s.after n = .error e) :
    ∃ m < n, ∃ s', s.after m = .ok s' ∧ s'.next = .error e := by
  induction n generalizing s with
  | zero => cases h
  | succ n ih =>
    rcases bind_eq_error_iff.1 h with hnext | ⟨d, hnext, h⟩
    · exact ⟨0, Nat.succ_pos n, s, rfl, hnext⟩
    · obtain ⟨m, hm, s', hs', herror⟩ := ih h
      exact ⟨m + 1, Nat.succ_lt_succ hm, s', bind_eq_ok_iff.2 ⟨d, hnext, hs'⟩, herror⟩

/-- The type and the length of a section are read within the bytes. -/
theorem within_header (hs : s.cursor.Within bytes) {t : Nat} {length : Int} {c₁ c₂ : Cursor}
    (ht : Decoder.u32.run s.cursor = .ok (t, c₁))
    (hlength : Decoder.i64.run c₁ = .ok (length, c₂)) :
    c₁.Within bytes ∧ c₂.Within bytes ∧ c₂.offset = s.cursor.offset + 12 := by
  obtain ⟨_, ⟨-, rfl⟩, hover₁⟩ := (Decoder.accepts_u32 _ _ _).1 ht
  obtain ⟨_, ⟨-, rfl⟩, hover₂⟩ := (Decoder.accepts_i64 _ _ _).1 hlength
  refine ⟨hs.over hover₁, (hs.over hover₁).over hover₂, ?_⟩
  rw [hover₂.2, hover₁.2, Bytes.length_ofInt, Bytes.length_ofNat]

end Scan

/-- What is kept under a type is the first section of the type. -/
theorem get?_of_read {k : Container} (h : (read bytes).outcome = .ok k) :
    ∃ l, Frames bytes l ∧ (∀ s ∈ placed 12 l, s.Lies bytes) ∧
      ∀ t, k.sections.get? t = (placed 12 l).find? (·.kind.type = t) := by
  obtain ⟨l, hframes, -, -, rfl⟩ := read_eq_ok_iff.1 h
  obtain ⟨rest, hstarts⟩ := hframes.starts
  refine ⟨l, hframes, ?_, ?_⟩
  · have hover : (⟨0, bytes⟩ : Cursor).Over (preamble l.length ++ l.flatMap frame)
        ⟨0 + (encode l).length, rest⟩ := ⟨hstarts.symm, rfl⟩
    obtain ⟨c, hpreamble, hover⟩ := Cursor.over_append_iff.1 hover
    have hoffset : c.offset = 12 := by rw [hpreamble.2, length_preamble, Nat.zero_add]
    intro s hs
    rw [← hoffset] at hs
    exact lies_of_mem_placed ((Cursor.within_start bytes).over hpreamble) hover hs
  · intro t
    rw [get?_foldl_index, SortedMap.get?_empty, Option.none_or]

theorem apart_of_find? {offset t t' : Nat} {l : List (Nat × Bytes)} {s s' : Section}
    (hne : t ≠ t') (hs : (placed offset l).find? (·.kind.type = t) = some s)
    (hs' : (placed offset l).find? (·.kind.type = t') = some s') : s.Apart s' := by
  have htype : s.kind.type = t := by simpa using List.find?_some hs
  have htype' : s'.kind.type = t' := by simpa using List.find?_some hs'
  have hdiffer : s ≠ s' := by
    rintro rfl
    exact hne (htype.symm.trans htype')
  have hapart : (placed offset l).Pairwise Section.Apart := (pairwise_placed offset l).imp .inl
  exact hapart.forall (List.mem_of_find?_eq_some hs) (List.mem_of_find?_eq_some hs') hdiffer

/-- Reading a container is looking for as many sections as are declared, one behind the other. -/
theorem outcome_read {count : Nat} {c : Cursor} (h : readPreamble ⟨0, bytes⟩ = .ok (count, c)) :
    (read bytes).outcome = (Scan.after count ⟨c, .empty⟩).map fun s => ⟨s.sections⟩ := by
  have hsections := Scan.outcome_readSections count ⟨c, .empty⟩
  rw [read, Logged.outcome_bind, Logged.outcome_monadLift, h]
  dsimp only [Except.bind]
  rw [Logged.outcome_bind, hsections]
  cases Scan.after count ⟨c, .empty⟩ <;> rfl

theorem within_of_readPreamble {count : Nat} {c : Cursor}
    (h : readPreamble ⟨0, bytes⟩ = .ok (count, c)) : c.Within bytes ∧ c.offset = 12 := by
  obtain ⟨-, hover⟩ := readPreamble_eq_ok_iff.1 h
  refine ⟨(Cursor.within_start bytes).over hover, ?_⟩
  rw [hover.2]
  simp

/-- Wherever the search for the sections is, it is within the bytes, and it has come twelve bytes
further with each section. If more sections are declared than there is room for, it fails, and it
fails at one of the sections that there is room for. If it does not, the sections that are kept are
the first ones of their types; they lie within the bytes and share none of them. -/
theorem sections_within (bytes : Bytes) :
    (∀ count c, readPreamble ⟨0, bytes⟩ = .ok (count, c) →
      (read bytes).outcome = (Scan.after count ⟨c, .empty⟩).map (fun s => ⟨s.sections⟩) ∧
      (∀ n s, Scan.after n ⟨c, .empty⟩ = .ok s →
        s.cursor.Within bytes ∧ 12 * (n + 1) ≤ s.cursor.offset ∧
        ∀ t length c₁ c₂, Decoder.u32.run s.cursor = .ok (t, c₁) →
          Decoder.i64.run c₁ = .ok (length, c₂) →
          c₁.Within bytes ∧ c₂.Within bytes ∧ c₂.offset = s.cursor.offset + 12) ∧
      (bytes.length < 12 * (count + 1) → ∃ e, (read bytes).outcome = .error e) ∧
      ∀ e, (read bytes).outcome = .error e → ∃ n < count, n + 1 ≤ bytes.length / 12 ∧
        ∃ s, Scan.after n ⟨c, .empty⟩ = .ok s ∧ s.next = .error e) ∧
    ∀ k, (read bytes).outcome = .ok k → ∃ l, Frames bytes l ∧
      (∀ t, k.sections.get? t = (placed 12 l).find? (·.kind.type = t)) ∧
      (∀ t s, k.sections.get? t = some s → s.Lies bytes) ∧
      ∀ t t' s s', t ≠ t' → k.sections.get? t = some s → k.sections.get? t' = some s' →
        s.Apart s' := by
  constructor
  · intro count c hpreamble
    obtain ⟨hc, hoffset⟩ := within_of_readPreamble hpreamble
    have hread := outcome_read hpreamble
    have hscan (n : Nat) (s : Scan) (hs : Scan.after n ⟨c, .empty⟩ = .ok s) :
        s.cursor.Within bytes ∧ 12 * (n + 1) ≤ s.cursor.offset := by
      obtain ⟨hwithin, hle⟩ := Scan.after_spec hs hc
      simp only [hoffset] at hle
      exact ⟨hwithin, by omega⟩
    refine ⟨hread, ?_, ?_, ?_⟩
    · intro n s hs
      obtain ⟨hwithin, hle⟩ := hscan n s hs
      exact ⟨hwithin, hle, fun t length c₁ c₂ => Scan.within_header hwithin⟩
    · intro hshort
      rw [hread]
      cases hafter : Scan.after count ⟨c, .empty⟩ with
      | error e => exact ⟨e, rfl⟩
      | ok s =>
        obtain ⟨hwithin, hle⟩ := hscan count s hafter
        have := hwithin.offset_le
        omega
    · intro e he
      rw [hread, map_eq_error_iff] at he
      obtain ⟨n, hn, s, hs, hnext⟩ := Scan.exists_of_after_eq_error he
      obtain ⟨hwithin, hle⟩ := hscan n s hs
      have := hwithin.offset_le
      exact ⟨n, hn, by omega, s, hs, hnext⟩
  · intro k hk
    obtain ⟨l, hframes, hlies, hget⟩ := get?_of_read hk
    refine ⟨l, hframes, hget, ?_, ?_⟩
    · intro t s hs
      rw [hget] at hs
      exact hlies s (List.mem_of_find?_eq_some hs)
    · intro t t' s s' hne hs hs'
      rw [hget] at hs hs'
      exact apart_of_find? hne hs hs'

/-- Sections of which the first is empty and the second has its type. -/
def repeatedSections : List (Nat × Bytes) := [(9, []), (9, [1, 2]), (1, [7])]

/-- The empty section is kept and the other of its type is not. With one section more declared the
bytes are too few. -/
theorem sections_within_repeated :
    (∃ k s s', (read (encode repeatedSections)).outcome = .ok k ∧
      k.sections.get? 9 = some s ∧ k.sections.get? 1 = some s' ∧ s.offset = 24 ∧ s'.offset = 50 ∧
      s.Lies (encode repeatedSections) ∧ s.Apart s') ∧
    ∃ c e n s, readPreamble ⟨0, preamble 4 ++ repeatedSections.flatMap frame⟩ = .ok (4, c) ∧
      (read (preamble 4 ++ repeatedSections.flatMap frame)).outcome = .error e ∧
      n < 4 ∧ n + 1 ≤ 4 ∧ Scan.after n ⟨c, .empty⟩ = .ok s ∧ s.next = .error e ∧
      s.cursor.offset ≤ 51 := by
  constructor
  · obtain ⟨k, hread, hnine, hone⟩ : ∃ k, (read (encode repeatedSections)).outcome = .ok k ∧
        k.sections.get? 9 = some ⟨.unknown 9, 24, []⟩ ∧
        k.sections.get? 1 = some ⟨.header, 50, [7]⟩ := by
      decide +kernel
    obtain ⟨l, -, -, hlies, hapart⟩ := (sections_within _).2 k hread
    exact ⟨k, _, _, hread, hnine, hone, rfl, rfl, hlies 9 _ hnine,
      hapart 9 1 _ _ (by decide) hnine hone⟩
  · obtain ⟨⟨_, c⟩, hpreamble, rfl⟩ : ∃ r, readPreamble
        ⟨0, preamble 4 ++ repeatedSections.flatMap frame⟩ = .ok r ∧ r.1 = 4 := by
      decide +kernel
    obtain ⟨-, hwithin, hshort, hfails⟩ := (sections_within _).1 4 c hpreamble
    have hlength : (preamble 4 ++ repeatedSections.flatMap frame).length = 51 := by decide +kernel
    obtain ⟨e, he⟩ := hshort (by rw [hlength]; decide)
    obtain ⟨n, hn, hle, s, hs, hnext⟩ := hfails e he
    rw [hlength] at hle
    refine ⟨c, e, n, s, hpreamble, he, hn, hle, hs, hnext, ?_⟩
    rw [← hlength]
    exact (hwithin n s hs).1.offset_le

end Container

end CircuitTrace
