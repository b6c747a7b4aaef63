import CircuitTrace.Proofs.RoundTrip
import CircuitTrace.Proofs.SectionOrder

/-!
Containers that are cut off or carry more bytes. The sections that a container declares fix its
length. Cut before that, reading runs out of bytes before it meets anything else; and the bytes
behind it are never looked at.
-/
namespace CircuitTrace

theorem Cursor.Over.offset_add_length {c c' : Cursor} {b : Bytes} (h : c.Over b c') :
    c'.offset + c'.rest.length = c.offset + c.rest.length := by
  rw [h.1, h.2, List.length_append, Nat.add_assoc]

/-- What stands in front of a cut is all of a first part, and a cut of the second, or it is a cut of
the first part. -/
theorem Bytes.cut_append {cut b b' : Bytes} (h : cut <+: b ++ b') :
    cut <+: b ∧ cut.length < b.length ∨ ∃ cut', cut = b ++ cut' ∧ cut' <+: b' := by
  by_cases hlt : cut.length < b.length
  · exact .inl ⟨List.prefix_of_prefix_length_le h (List.prefix_append b b') hlt.le, hlt⟩
  · obtain ⟨cut', rfl⟩ :=
      List.prefix_of_prefix_length_le (List.prefix_append b b') h (Nat.le_of_not_lt hlt)
    exact .inr ⟨cut', rfl, (List.prefix_append_right_inj b).1 h⟩

/-- The error where bytes are missing. It does not point behind the last byte, and asks for some
bytes but for no more than are missing. -/
inductive FormatError.Lacks (missing : Nat) (c : Cursor) : FormatError → Prop
  | truncated {offset needed : Nat} (hoffset : offset ≤ c.offset + c.rest.length)
    (hpos : 0 < needed) (hneeded : needed ≤ missing) : Lacks missing c (.truncated offset needed)

theorem FormatError.Lacks.mono {missing more : Nat} {c : Cursor} {e : FormatError}
    (h : e.Lacks missing c) (hle : missing ≤ more) : e.Lacks more c := by
  obtain ⟨hoffset, hpos, hneeded⟩ := h
  exact .truncated hoffset hpos (hneeded.trans hle)

/-- What is missing behind a part is missing behind what stands in front of it. -/
theorem FormatError.Lacks.of_over {missing : Nat} {c c' : Cursor} {b : Bytes} {e : FormatError}
    (h : e.Lacks missing c') (hover : c.Over b c') : e.Lacks missing c := by
  obtain ⟨hoffset, hpos, hneeded⟩ := h
  exact .truncated (hover.offset_add_length ▸ hoffset) hpos hneeded

/-- Reading fails because bytes are missing. The error is reported in some form. -/
def RunsOut {ε α : Type} (report : FormatError → ε) (missing : Nat) (c : Cursor)
    (x : Except ε α) : Prop :=
  ∃ e : FormatError, x = .error (report e) ∧ e.Lacks missing c

section RunsOut

variable {ε α β : Type} {report : FormatError → ε} {missing : Nat} {c : Cursor}

theorem RunsOut.mono {x : Except ε α} {more : Nat} (h : RunsOut report missing c x)
    (hle : missing ≤ more) : RunsOut report more c x := by
  obtain ⟨e, hx, hlacks⟩ := h
  exact ⟨e, hx, hlacks.mono hle⟩

theorem RunsOut.mapError {x : Except FormatError α} (h : RunsOut id missing c x) :
    RunsOut report missing c (x.mapError report) := by
  obtain ⟨e, rfl, hlacks⟩ := h
  exact ⟨e, rfl, hlacks⟩

theorem RunsOut.bind {x : Except ε α} (h : RunsOut report missing c x) (f : α → Except ε β) :
    RunsOut report missing c (x >>= f) := by
  obtain ⟨e, rfl, hlacks⟩ := h
  exact ⟨e, rfl, hlacks⟩

/-- Bytes that run out behind a part that was read run out. -/
theorem RunsOut.bind_of_over {x : Except ε α} {a : α} {f : α → Except ε β} {b : Bytes}
    {c' : Cursor} (hx : x = .ok a) (hover : c.Over b c') (h : RunsOut report missing c' (f a)) :
    RunsOut report missing c (x >>= f) := by
  obtain ⟨e, hf, hlacks⟩ := h
  subst hx
  exact ⟨e, hf, hlacks.of_over hover⟩

/-- A part is read, and then what stands behind it. Such bytes are cut within the part or behind it,
and what is missing for the one or the other is missing for both. -/
theorem RunsOut.of_cut {x : Cursor → Except ε (α × Cursor)} {f : α × Cursor → Except ε β} {a : α}
    {b b' cut : Bytes} {offset : Nat} (hcut : cut <+: b ++ b') (hlt : cut.length < (b ++ b').length)
    (hshort : cut <+: b → cut.length < b.length →
      RunsOut report (b.length - cut.length) ⟨offset, cut⟩ (x ⟨offset, cut⟩))
    (hwhole : ∀ {c c' : Cursor}, c.offset = offset → c.Over b c' → x c = .ok (a, c'))
    (hbehind : ∀ behind, behind <+: b' → behind.length < b'.length →
      RunsOut report (b'.length - behind.length) ⟨offset + b.length, behind⟩
        (f (a, ⟨offset + b.length, behind⟩))) :
    RunsOut report ((b ++ b').length - cut.length) ⟨offset, cut⟩ (x ⟨offset, cut⟩ >>= f) := by
  rw [List.length_append] at hlt ⊢
  rcases Bytes.cut_append hcut with ⟨hwithin, hless⟩ | ⟨behind, rfl, hrest⟩
  · exact ((hshort hwithin hless).mono (by omega)).bind f
  · have hover : (⟨offset, b ++ behind⟩ : Cursor).Over b ⟨offset + b.length, behind⟩ := ⟨rfl, rfl⟩
    rw [List.length_append] at hlt ⊢
    rw [Nat.add_sub_add_left]
    exact RunsOut.bind_of_over (hwhole rfl hover) hover (hbehind behind hrest (by omega))

theorem runsOut_bytes {n offset : Nat} {cut : Bytes} (h : cut.length < n) :
    RunsOut id (n - cut.length) ⟨offset, cut⟩ ((Decoder.bytes n).run ⟨offset, cut⟩) := by
  have htake : cut.take n = cut := List.take_of_length_le h.le
  have hrun : (Decoder.bytes n).run ⟨offset, cut⟩ = if (cut.take n).length < n then
      .error (.truncated offset (n - (cut.take n).length))
      else .ok (cut.take n, ⟨offset + n, cut.drop n⟩) := rfl
  rw [hrun, htake, if_pos h]
  exact ⟨_, rfl, .truncated (Nat.le_add_right _ _) (by omega) le_rfl⟩

theorem runsOut_u32 {v offset : Nat} {cut : Bytes} (h : cut.length < (Bytes.ofNat 4 v).length) :
    RunsOut id ((Bytes.ofNat 4 v).length - cut.length) ⟨offset, cut⟩
      (Decoder.u32.run ⟨offset, cut⟩) := by
  rw [Bytes.length_ofNat] at h ⊢
  exact (runsOut_bytes h).bind _

theorem runsOut_i64 {v offset : Nat} {cut : Bytes} (h : cut.length < (Bytes.ofNat 8 v).length) :
    RunsOut id ((Bytes.ofNat 8 v).length - cut.length) ⟨offset, cut⟩
      (Decoder.i64.run ⟨offset, cut⟩) := by
  rw [Bytes.length_ofNat] at h ⊢
  exact (runsOut_bytes h).bind _

end RunsOut

namespace Container

theorem runsOut_readSection {s : Nat × Bytes} (hs : Fits s) {cut : Bytes} (hcut : cut <+: frame s)
    (hlt : cut.length < (frame s).length) (offset : Nat) :
    RunsOut id ((frame s).length - cut.length) ⟨offset, cut⟩
      (readSection.run ⟨offset, cut⟩) := by
  rw [frame, List.append_assoc] at hcut hlt ⊢
  rw [readSection, StateT.run_bind]
  refine RunsOut.of_cut (x := Decoder.u32.run) hcut hlt (fun _ => runsOut_u32)
    (fun _ hover => (Decoder.accepts_u32 _ _ _).2 ⟨_, ⟨hs.1, rfl⟩, hover⟩) ?_
  intro cut hcut hlt
  rw [StateT.run_bind]
  refine RunsOut.of_cut (x := Decoder.i64.run) hcut hlt (fun _ => runsOut_i64)
    (fun _ hover => (Decoder.accepts_i64 _ _ _).2
      ⟨_, ⟨fitsInt_length hs.2, (ofInt_length hs.2).symm⟩, hover⟩) ?_
  intro cut _ hlt
  -- The payload is all that is left, which is too short.
  have htake : cut.take s.2.length = cut := List.take_of_length_le hlt.le
  rw [if_neg (by omega)]
  dsimp only
  rw [StateT.run_bind, StateT.run_get, pure_bind]
  dsimp only
  rw [Int.toNat_natCast, htake, if_pos hlt]
  exact ⟨_, rfl, .truncated le_rfl (by omega) le_rfl⟩

/-- The bytes in front of the sections. -/
def preamble (count : Nat) : Bytes :=
  Bytes.ofNat 4 magic ++ Bytes.ofNat 4 version ++ Bytes.ofNat 4 count

theorem length_preamble (count : Nat) : (preamble count).length = 12 := by simp [preamble]

theorem runsOut_readPreamble {count offset : Nat} {cut : Bytes} (hcut : cut <+: preamble count)
    (hlt : cut.length < (preamble count).length) :
    RunsOut .format ((preamble count).length - cut.length) ⟨offset, cut⟩
      (readPreamble ⟨offset, cut⟩) := by
  have hnumber {v : Nat} (hv : v < 2 ^ 32) {c c' : Cursor} (hover : c.Over (Bytes.ofNat 4 v) c') :
      (Decoder.u32.run c).mapError ParseError.format = .ok (v, c') :=
    mapError_eq_ok_iff.2 ((Decoder.accepts_u32 _ _ _).2 ⟨_, ⟨hv, rfl⟩, hover⟩)
  rw [preamble, List.append_assoc] at hcut hlt ⊢
  rw [readPreamble]
  refine RunsOut.of_cut (x := fun c => (Decoder.u32.run c).mapError ParseError.format) hcut hlt
    (fun _ hshort => (runsOut_u32 hshort).mapError) (fun _ => hnumber (by norm_num [magic])) ?_
  intro cut hcut hlt
  dsimp only
  rw [if_neg (not_not.2 rfl)]
  refine RunsOut.of_cut (x := fun c => (Decoder.u32.run c).mapError ParseError.format) hcut hlt
    (fun _ hshort => (runsOut_u32 hshort).mapError) (fun _ => hnumber (by norm_num [version])) ?_
  intro cut _ hlt
  dsimp only
  rw [if_neg (not_not.2 rfl)]
  exact (runsOut_u32 hlt).mapError

theorem runsOut_readSections {l : List (Nat × Bytes)} (hfits : ∀ s ∈ l, Fits s)
    {m m' : SortedMap Nat Section} {offset : Nat}
    (hadd : ((placed offset l).foldlM addSection m).outcome = .ok m') {cut : Bytes}
    (hcut : cut <+: l.flatMap frame) (hlt : cut.length < (l.flatMap frame).length) :
    RunsOut .format ((l.flatMap frame).length - cut.length) ⟨offset, cut⟩
      (readSections l.length ⟨offset, cut⟩ m).outcome := by
  induction l generalizing offset m cut with
  | nil => simp at hlt
  | cons s l ih =>
    obtain ⟨hs, hl⟩ := List.forall_mem_cons.1 hfits
    rw [placed, List.foldlM_cons] at hadd
    obtain ⟨m₁, hfirst, hadd⟩ := Logged.outcome_bind_eq_ok_iff.1 hadd
    rw [List.flatMap_cons] at hcut hlt ⊢
    rw [List.length_cons, readSections, Logged.outcome_bind, Logged.outcome_monadLift]
    refine RunsOut.of_cut (x := fun c => (readSection.run c).mapError ParseError.format)
      (a := ⟨.ofType s.1, offset + 12, s.2⟩) hcut hlt
      (fun hcut hshort => (runsOut_readSection hs hcut hshort offset).mapError) ?_ ?_
    · intro c c' hoffset hover
      apply mapError_eq_ok_iff.2
      exact readSection_run_eq_ok_iff.2 ⟨s.1, s.2, hs, by rw [hoffset], hover⟩
    · intro behind hcut hlt
      dsimp only
      rw [Logged.outcome_bind, hfirst, length_frame, ← Nat.add_assoc]
      exact ih hl hadd hcut hlt

/-- Bytes up to the end of the last section. -/
def declaredLength (l : List (Nat × Bytes)) : Nat := 12 + (l.map fun s => 12 + s.2.length).sum

theorem length_encode (l : List (Nat × Bytes)) : (encode l).length = declaredLength l := by
  have hframes : l.map (fun s => (frame s).length) = l.map fun s => 12 + s.2.length :=
    List.map_congr_left fun s _ => length_frame s
  rw [encode_eq, List.length_append, List.length_flatMap, hframes, declaredLength]
  simp

/-- Whatever sections hold, a container that ends within them is refused for its length. -/
theorem runsOut_parse {l : List (Nat × Bytes)} (hcount : l.length < 2 ^ 32)
    (hfits : ∀ s ∈ l, Fits s) {m : SortedMap Nat Section}
    (hadd : ((placed 12 l).foldlM addSection .empty).outcome = .ok m) {cut : Bytes}
    (hcut : cut <+: encode l) (hlt : cut.length < declaredLength l) :
    RunsOut .format (declaredLength l - cut.length) ⟨0, cut⟩ (Circuit.parse cut).outcome := by
  rw [← length_encode] at hlt ⊢
  rw [Circuit.parse, Logged.outcome_bind, read, Logged.outcome_bind, Logged.outcome_monadLift]
  refine RunsOut.bind ?_ _
  refine RunsOut.of_cut (x := readPreamble) (b := preamble l.length) hcut hlt runsOut_readPreamble
    (fun _ hover => readPreamble_eq_ok_iff.2 ⟨hcount, hover⟩) ?_
  intro behind hbehind hless
  rw [length_preamble]
  dsimp only
  rw [Logged.outcome_bind]
  exact (runsOut_readSections hfits hadd hbehind hless).bind _

namespace Frames

variable {bytes : Bytes} {l : List (Nat × Bytes)} (h : Frames bytes l)
include h

theorem declaredLength_le : declaredLength l ≤ bytes.length := by
  rw [← length_encode]
  exact h.starts.length_le

theorem take_declaredLength : bytes.take (declaredLength l) = encode l := by
  rw [← length_encode]
  exact (List.prefix_iff_eq_take.1 h.starts).symm

/-- What stands behind the sections makes no difference. -/
theorem parse_take_append (rest : Bytes) :
    Circuit.parse (bytes.take (declaredLength l) ++ rest) = Circuit.parse bytes := by
  rw [h.take_declaredLength, h.parse_eq]
  exact parse_eq ⟨List.prefix_append _ _, h.count_lt, h.fits⟩

theorem parse_take {m : SortedMap Nat Section}
    (hadd : ((placed 12 l).foldlM addSection .empty).outcome = .ok m) {n : Nat}
    (hn : n < declaredLength l) : ∃ offset needed,
      (Circuit.parse (bytes.take n)).outcome = .error (.format (.truncated offset needed)) ∧
        offset ≤ n ∧ 0 < needed ∧ n + needed ≤ declaredLength l := by
  have hlength : (bytes.take n).length = n :=
    List.length_take_of_le (hn.le.trans h.declaredLength_le)
  have hcut : bytes.take n <+: encode l := by
    rw [← h.take_declaredLength]
    exact List.take_prefix_take_left hn.le
  obtain ⟨e, hparse, hoffset, hpos, hneeded⟩ :=
    runsOut_parse h.count_lt h.fits hadd hcut (hlength.symm ▸ hn)
  simp only [hlength, Nat.zero_add] at hoffset hneeded
  exact ⟨_, _, hparse, hoffset, hpos, by omega⟩

end Frames

/-- A container that was read is its sections: cut before the last of them ends, it is refused
because bytes are missing, and what stands behind them makes no difference. So no proper prefix of
an encoded circuit is read as a circuit. -/
theorem parse_take_and_append :
    (∀ (bytes : Bytes) (container : Container), (read bytes).outcome = .ok container →
      ∃ sections, Frames bytes sections ∧ declaredLength sections ≤ bytes.length ∧
        (∀ n < declaredLength sections, ∃ offset needed,
          (Circuit.parse (bytes.take n)).outcome = .error (.format (.truncated offset needed)) ∧
            offset ≤ n ∧ 0 < needed ∧ n + needed ≤ declaredLength sections) ∧
        ∀ rest, Circuit.parse (bytes.take (declaredLength sections) ++ rest) =
          Circuit.parse bytes) ∧
    ∀ k : Circuit, k.Storable → ∀ n < k.encode.length, ∃ offset needed,
      (Circuit.parse (k.encode.take n)).outcome = .error (.format (.truncated offset needed)) := by
  constructor
  · intro bytes container hread
    obtain ⟨sections, hframes, hgates, hsingle, -⟩ := read_eq_ok_iff.1 hread
    have hadd := foldlM_addSection_of_clean ⟨hgates, hsingle⟩ 12
    exact ⟨sections, hframes, hframes.declaredLength_le, fun n => hframes.parse_take hadd,
      hframes.parse_take_append⟩
  · intro k hk n hn
    have hclean : Clean k.sections :=
      ⟨by simp [Circuit.sections], by simp [Circuit.sections, payloads]⟩
    rw [k.encode_eq, length_encode] at hn
    obtain ⟨offset, needed, hparse, -⟩ :=
      (Circuit.frames_encode hk).parse_take (foldlM_addSection_of_clean hclean 12) hn
    exact ⟨offset, needed, hparse⟩

/-- A circuit that is cut within its constraints, and a container whose sections are followed by
other bytes than before. -/
theorem parse_take_and_append_tripled :
    (∃ offset needed, (Circuit.parse (Circuit.tripled.encode.take 75)).outcome =
      .error (.format (.truncated offset needed))) ∧
    ∃ bytes sections, bytes = encode (Circuit.tripledSections [(2, 3), (0, 1)]) ++ [1, 2] ∧
      Frames bytes sections ∧
      Circuit.parse (bytes.take (declaredLength sections) ++ [3]) = Circuit.parse bytes := by
  obtain ⟨hwhole, hcut⟩ := parse_take_and_append
  have hparse : (Circuit.parse (encode (Circuit.tripledSections [(2, 3), (0, 1)]) ++
      [1, 2])).outcome = .ok Circuit.tripled := by
    decide +kernel
  have hstorable := Circuit.storable_of_parse hparse
  obtain ⟨container, hread, -⟩ := Logged.outcome_bind_eq_ok_iff.1 hparse
  obtain ⟨sections, hframes, -, -, hbehind⟩ := hwhole _ container hread
  exact ⟨hcut _ hstorable 75 (by decide +kernel), _, sections, rfl, hframes, hbehind [3]⟩

end Container

end CircuitTrace
