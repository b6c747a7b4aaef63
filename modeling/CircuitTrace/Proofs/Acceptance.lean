import CircuitTrace.Proofs.Format
import CircuitTrace.Proofs.Sections
import CircuitTrace.Proofs.SelfDelimiting

/-!
Which byte strings are circuits. The format is stated as a relation between sections and circuits;
reading accepts exactly the byte strings that start with such sections, and gives the circuit that
they describe. The order in which the terms of a linear combination are listed plays no part.
-/
namespace CircuitTrace

open LinearCombination (encodeTerm encodeTerms)

/-- What a header says of a circuit. -/
def Circuit.header (k : Circuit) : Header where
  fieldSize := k.fieldSize
  prime := k.prime
  wireCount := k.wireCount
  outputCount := k.outputCount
  publicCount := k.publicCount
  privateCount := k.privateCount
  labelCount := k.labelCount
  constraintCount := k.constraints.length

/-- A payload starts with three lists of terms for each constraint. -/
def Header.Stores (h : Header) (cs : List Constraint) (payload : Bytes) : Prop :=
  ∃ lists, List.Forall₂ h.Lists lists (cs.flatMap Constraint.parts) ∧
    lists.flatMap (encodeTerms h.fieldSize) <+: payload

theorem Header.admits_of_stores {h : Header} {cs : List Constraint} {payload : Bytes}
    (hstores : h.Stores cs payload) : ∀ c ∈ cs, ∀ l ∈ c.parts, h.Admits l := by
  obtain ⟨lists, hlists, -⟩ := hstores
  have hall : ∀ l ∈ cs.flatMap Constraint.parts, h.Admits l := by
    generalize cs.flatMap Constraint.parts = parts at hlists
    induction hlists with
    | nil => simp
    | cons hl _ ih => exact List.forall_mem_cons.2 ⟨hl.admits, ih⟩
  intro c hc l hl
  exact hall l (List.mem_flatMap.2 ⟨c, hc, hl⟩)

namespace Container

/-- The sections describe a circuit: none holds custom gates, the single header section starts with
the numbers of the circuit, and the section of the constraints, which may be missing when there are
none, starts with their terms. -/
structure Describes (sections : List (Nat × Bytes)) (k : Circuit) : Prop where
  noGates : ∀ s ∈ sections, s.1 ≠ 4 ∧ s.1 ≠ 5
  valid : k.header.Valid
  header : ∃ payload, payloads 1 sections = [payload] ∧ k.header.encode <+: payload
  constraints : (payloads 2 sections = [] ∧ k.constraints = []) ∨
    ∃ payload, payloads 2 sections = [payload] ∧ k.header.Stores k.constraints payload

theorem Describes.admits {sections : List (Nat × Bytes)} {k : Circuit} (h : Describes sections k) :
    ∀ c ∈ k.constraints, ∀ l ∈ c.parts, k.header.Admits l := by
  rcases h.constraints with ⟨-, hnone⟩ | ⟨payload, -, hstores⟩
  · simp [hnone]
  · exact Header.admits_of_stores hstores

theorem header_eq_ok_iff {k : Container} {h : Header} : k.header = .ok h ↔
    h.Valid ∧ ∃ s, k.sections.get? 1 = some s ∧ h.encode <+: s.payload := by
  have hget : k.sections.get? SectionKind.header.type = k.sections.get? 1 := rfl
  rw [header, hget]
  cases k.sections.get? 1 with
  | none => simp
  | some s =>
    have hrun := Header.accepts_decode.exists_run_iff s.offset s.payload h
    simp only [mapError_eq_ok_iff, map_eq_ok_iff, Prod.exists, exists_and_right, exists_eq_right,
      Option.some.injEq, exists_eq_left']
    rw [hrun]
    constructor
    · rintro ⟨b, ⟨hv, rfl⟩, hstart⟩
      exact ⟨hv, hstart⟩
    · rintro ⟨hv, hstart⟩
      exact ⟨h.encode, ⟨hv, rfl⟩, hstart⟩

theorem constraints_eq_ok_iff {k : Container} {h : Header} (hv : h.Valid) {cs : List Constraint} :
    (k.constraints h).outcome = .ok cs ↔ cs.length = h.constraintCount ∧
      ((k.sections.get? 2 = none ∧ cs = []) ∨
        ∃ s, k.sections.get? 2 = some s ∧ h.Stores cs s.payload) := by
  have hget : k.sections.get? SectionKind.constraints.type = k.sections.get? 2 := rfl
  rw [constraints, hget]
  cases k.sections.get? 2 with
  | none =>
    by_cases hzero : h.constraintCount = 0
    · simp only [hzero, if_true, Logged.outcome_pure]
      constructor
      · intro h
        obtain rfl := Except.ok.inj h
        exact ⟨rfl, .inl ⟨trivial, rfl⟩⟩
      · rintro ⟨hlen, -⟩
        rw [List.eq_nil_of_length_eq_zero hlen]
    · simp only [hzero, if_false, Logged.outcome_ofExcept]
      constructor
      · intro h
        cases h
      · rintro ⟨hlen, ⟨-, rfl⟩ | ⟨s, hs, -⟩⟩
        · exact absurd hlen.symm hzero
        · cases hs
  | some s =>
    have hrun := (Header.accepts_decodeConstraints hv 0 h.constraintCount).exists_run_iff
      s.offset s.payload cs
    constructor
    · intro hk
      obtain ⟨⟨list, cursor⟩, hlist, hk⟩ := Logged.outcome_bind_eq_ok_iff.1 hk
      have hlist := mapError_eq_ok_iff.1 hlist
      -- The report of bytes that are left over changes nothing.
      have heq : list = cs := by
        by_cases hrest : cursor.rest.length = 0
        · simpa [hrest] using hk
        · simpa [hrest, Except.bind] using hk
      rw [heq] at hlist
      obtain ⟨b, ⟨hlen, lists, hlists, rfl⟩, hstart⟩ := hrun.1 ⟨cursor, hlist⟩
      exact ⟨hlen, .inr ⟨s, rfl, lists, hlists, hstart⟩⟩
    · rintro ⟨hlen, ⟨hnone, -⟩ | ⟨s', hs, lists, hlists, hstart⟩⟩
      · cases hnone
      · obtain rfl := Option.some.inj hs
        obtain ⟨cursor, hlist⟩ := hrun.2 ⟨_, ⟨hlen, lists, hlists, rfl⟩, hstart⟩
        apply Logged.outcome_bind_eq_ok_iff.2
        refine ⟨(cs, cursor), mapError_eq_ok_iff.2 hlist, ?_⟩
        by_cases hrest : cursor.rest.length = 0
        · simp [hrest]
        · simp [hrest, Except.bind]

theorem circuit_eq_ok_iff {k : Container} {circuit : Circuit} :
    k.circuit.outcome = .ok circuit ↔ circuit.header.Valid ∧
      (∃ s, k.sections.get? 1 = some s ∧ circuit.header.encode <+: s.payload) ∧
      ((k.sections.get? 2 = none ∧ circuit.constraints = []) ∨
        ∃ s, k.sections.get? 2 = some s ∧ circuit.header.Stores circuit.constraints s.payload) := by
  rw [Container.circuit]
  constructor
  · intro hk
    obtain ⟨h, hheader, hk⟩ := Logged.outcome_bind_eq_ok_iff.1 hk
    obtain ⟨cs, hconstraints, hk⟩ := Logged.outcome_bind_eq_ok_iff.1 hk
    obtain ⟨hv, hfirst⟩ := header_eq_ok_iff.1 hheader
    obtain ⟨hlen, hsecond⟩ := (constraints_eq_ok_iff hv).1 hconstraints
    obtain rfl := Except.ok.inj hk
    have hheader' : h = ⟨h.fieldSize, h.prime, h.wireCount, h.outputCount, h.publicCount,
        h.privateCount, h.labelCount, cs.length⟩ := by rw [hlen]
    rw [hheader'] at hv hfirst hsecond
    exact ⟨hv, hfirst, hsecond⟩
  · rintro ⟨hv, hfirst, hsecond⟩
    apply Logged.outcome_bind_eq_ok_iff.2
    refine ⟨circuit.header, header_eq_ok_iff.2 ⟨hv, hfirst⟩, ?_⟩
    apply Logged.outcome_bind_eq_ok_iff.2
    exact ⟨circuit.constraints, (constraints_eq_ok_iff hv).2 ⟨rfl, hsecond⟩, rfl⟩

/-- A circuit is read exactly from the byte strings that start with sections that describe it. -/
theorem parse_eq_ok_iff_describes {bytes : Bytes} {k : Circuit} :
    (Circuit.parse bytes).outcome = .ok k ↔
      ∃ sections, Frames bytes sections ∧ Describes sections k := by
  rw [Circuit.parse, Logged.outcome_bind_eq_ok_iff]
  constructor
  · rintro ⟨container, hread, hcircuit⟩
    obtain ⟨sections, hframes, hgates, hcounts, rfl⟩ := read_eq_ok_iff.1 hread
    obtain ⟨hv, hfirst, hsecond⟩ := circuit_eq_ok_iff.1 hcircuit
    rw [get?_read_eq_none_iff, exists_get?_read_iff (hcounts 2 (.inr rfl))] at hsecond
    exact ⟨sections, hframes, hgates, hv, (exists_get?_read_iff (hcounts 1 (.inl rfl))).1 hfirst,
      hsecond⟩
  · rintro ⟨sections, hframes, hgates, hv, hfirst, hsecond⟩
    have hcount1 : (payloads 1 sections).length ≤ 1 := by
      obtain ⟨payload, hp, -⟩ := hfirst
      simp [hp]
    have hcount2 : (payloads 2 sections).length ≤ 1 := by
      rcases hsecond with ⟨hp, -⟩ | ⟨payload, hp, -⟩
      · simp [hp]
      · simp [hp]
    refine ⟨_, read_eq_ok_iff.2 ⟨sections, hframes, hgates, ?_, rfl⟩, ?_⟩
    · rintro t (rfl | rfl)
      · exact hcount1
      · exact hcount2
    · rw [circuit_eq_ok_iff, get?_read_eq_none_iff, exists_get?_read_iff hcount1,
        exists_get?_read_iff hcount2]
      exact ⟨hv, hfirst, hsecond⟩

theorem selfDelimiting_frame : SelfDelimiting Fits frame := by
  have hframe : frame = fun s : Nat × Bytes => Bytes.ofNat 4 s.1 ++ Bytes.withLength s.2 := by
    funext s
    rw [frame, List.append_assoc, Bytes.withLength]
  rw [hframe]
  refine ((Bytes.selfDelimiting_ofNat 4).append Bytes.selfDelimiting_withLength).mono ?_
  intro s hs
  exact ⟨hs.1, hs.2.trans (by norm_num)⟩

/-- A byte string starts with the sections of one list only. -/
theorem Frames.unique {bytes : Bytes} {l l' : List (Nat × Bytes)} (h : Frames bytes l)
    (h' : Frames bytes l') : l = l' := by
  obtain ⟨r, hr⟩ := h.starts
  obtain ⟨r', hr'⟩ := h'.starts
  have heq := hr.trans hr'.symm
  simp only [encode_eq, List.append_assoc] at heq
  obtain ⟨-, heq⟩ := Bytes.ofNat_append_inj (by decide) (by decide) heq
  obtain ⟨-, heq⟩ := Bytes.ofNat_append_inj (by decide) (by decide) heq
  obtain ⟨hlen, heq⟩ := Bytes.ofNat_append_inj h.count_lt h'.count_lt heq
  exact (selfDelimiting_frame.flatMap l'.length ⟨hlen, h.fits⟩ ⟨rfl, h'.fits⟩ heq).1

/-- A list of terms that can be written with coefficients of a given width. -/
def FitsTerms (fieldSize : Nat) (terms : List (Nat × Nat)) : Prop :=
  terms.length < 2 ^ 32 ∧ ∀ e ∈ terms, e.1 < 2 ^ 32 ∧ e.2 < 256 ^ fieldSize

instance (f : Nat) (terms : List (Nat × Nat)) : Decidable (FitsTerms f terms) :=
  inferInstanceAs (Decidable (_ ∧ _))

theorem selfDelimiting_encodeTerms (f : Nat) : SelfDelimiting (FitsTerms f) (encodeTerms f) :=
  Bytes.selfDelimiting_counted 4
    ((Bytes.selfDelimiting_ofNat 4).append (Bytes.selfDelimiting_ofNat f))

theorem fitsTerms_of_lists {h : Header} (hv : h.Valid) {terms : List (Nat × Nat)}
    {l : LinearCombination} (hl : h.Lists terms l) : FitsTerms h.fieldSize terms := by
  refine ⟨hl.length_le.trans_lt hv.wireCount_lt, ?_⟩
  intro e he
  obtain ⟨hwire, hcoefficient⟩ := hl.inRange e he
  exact ⟨hwire.trans hv.wireCount_lt, hcoefficient.trans hv.prime_lt⟩

theorem FitsTerms.perm {f : Nat} {terms terms' : List (Nat × Nat)} (ht : FitsTerms f terms)
    (hperm : terms.Perm terms') : FitsTerms f terms' :=
  ⟨hperm.length_eq ▸ ht.1, fun e he => ht.2 e (hperm.mem_iff.2 he)⟩

/-- Two payloads that hold the same lists of terms, up to the order within the lists. -/
def SameTerms (fieldSize : Nat) (b b' : Bytes) : Prop :=
  ∃ lists lists' : List (List (Nat × Nat)), ∃ tail, List.Forall₂ List.Perm lists lists' ∧
    (∀ terms ∈ lists, FitsTerms fieldSize terms) ∧
    b = lists.flatMap (encodeTerms fieldSize) ++ tail ∧
    b' = lists'.flatMap (encodeTerms fieldSize) ++ tail

/-- Two sections that are equal, or both hold constraints and differ only in the order of terms. -/
def SameSection (fieldSize : Nat) (s s' : Nat × Bytes) : Prop :=
  s = s' ∨ s.1 = 2 ∧ s'.1 = 2 ∧ SameTerms fieldSize s.2 s'.2

theorem fits_of_forall₂_perm {f : Nat} {lists lists' : List (List (Nat × Nat))}
    (hperm : List.Forall₂ List.Perm lists lists') (h : ∀ terms ∈ lists, FitsTerms f terms) :
    ∀ terms ∈ lists', FitsTerms f terms := by
  induction hperm with
  | nil => exact h
  | cons hp _ ih =>
    obtain ⟨ht, h⟩ := List.forall_mem_cons.1 h
    exact List.forall_mem_cons.2 ⟨ht.perm hp, ih h⟩

theorem SameTerms.symm {f : Nat} {b b' : Bytes} (h : SameTerms f b b') : SameTerms f b' b := by
  obtain ⟨lists, lists', tail, hperm, hfits, hb, hb'⟩ := h
  have hperm' : List.Forall₂ List.Perm lists' lists := (hperm.imp fun _ _ hp => hp.symm).flip
  exact ⟨lists', lists, tail, hperm', fits_of_forall₂_perm hperm hfits, hb', hb⟩

theorem SameSection.symm {f : Nat} {s s' : Nat × Bytes} (h : SameSection f s s') :
    SameSection f s' s := by
  rcases h with rfl | ⟨hs, hs', hterms⟩
  · exact .inl rfl
  · exact .inr ⟨hs', hs, hterms.symm⟩

/-- Reordering the lists at the front of a payload reorders whatever lists are read from it. -/
theorem exists_reordered {f : Nat} {lists lists' read : List (List (Nat × Nat))}
    {tail tail' : Bytes} (hperm : List.Forall₂ List.Perm lists lists')
    (hfits : ∀ terms ∈ lists, FitsTerms f terms) (hread : ∀ terms ∈ read, FitsTerms f terms)
    (h : lists.flatMap (encodeTerms f) ++ tail = read.flatMap (encodeTerms f) ++ tail') :
    ∃ read', List.Forall₂ List.Perm read read' ∧
      read'.flatMap (encodeTerms f) <+: lists'.flatMap (encodeTerms f) ++ tail := by
  induction read generalizing lists lists' with
  | nil => exact ⟨[], .nil, List.nil_prefix⟩
  | cons terms read ih =>
    cases hperm with
    | nil =>
      have hrefl : List.Forall₂ List.Perm (terms :: read) (terms :: read) :=
        List.forall₂_same.2 fun _ _ => .rfl
      exact ⟨terms :: read, hrefl, tail', h.symm⟩
    | cons hp hperm =>
      obtain ⟨hfit, hfits⟩ := List.forall_mem_cons.1 hfits
      obtain ⟨hterms, hreads⟩ := List.forall_mem_cons.1 hread
      rw [List.flatMap_cons, List.flatMap_cons, List.append_assoc, List.append_assoc] at h
      obtain ⟨rfl, hrest⟩ := selfDelimiting_encodeTerms f hfit hterms h
      obtain ⟨read', hread', hstart⟩ := ih hperm hfits hreads hrest
      refine ⟨_ :: read', .cons hp hread', ?_⟩
      rw [List.flatMap_cons, List.flatMap_cons, List.append_assoc]
      exact (List.prefix_append_right_inj _).2 hstart

theorem forall₂_lists_perm {h : Header} {lists lists' : List (List (Nat × Nat))}
    {parts : List LinearCombination} (hperm : List.Forall₂ List.Perm lists lists')
    (hlists : List.Forall₂ h.Lists lists parts) : List.Forall₂ h.Lists lists' parts := by
  induction hperm generalizing parts with
  | nil => exact hlists
  | cons hp _ ih =>
    cases hlists with
    | cons hl hlists => exact .cons (hl.perm hp) (ih hlists)

theorem stores_of_sameTerms {h : Header} (hv : h.Valid) {cs : List Constraint} {b b' : Bytes}
    (hsame : SameTerms h.fieldSize b b') (hb : h.Stores cs b) : h.Stores cs b' := by
  obtain ⟨lists, lists', tail, hperm, hfits, rfl, rfl⟩ := hsame
  obtain ⟨read, hread, tail', hstart⟩ := hb
  have hfits' : ∀ terms ∈ read, FitsTerms h.fieldSize terms :=
    ((List.forall₂_and_left _ _).1 (hread.imp fun _ _ hl => ⟨fitsTerms_of_lists hv hl, hl⟩)).1
  obtain ⟨read', hperm', hstart'⟩ := exists_reordered hperm hfits hfits' hstart.symm
  exact ⟨read', forall₂_lists_perm hperm' hread, hstart'⟩

theorem forall₂_payloads {f t : Nat} {l l' : List (Nat × Bytes)}
    (h : List.Forall₂ (SameSection f) l l') :
    List.Forall₂ (fun b b' => b = b' ∨ t = 2 ∧ SameTerms f b b') (payloads t l)
      (payloads t l') := by
  induction h with
  | nil => exact .nil
  | @cons s s' l l' hs _ ih =>
    rw [payloads_cons, payloads_cons]
    have htype : s.1 = s'.1 := by
      rcases hs with rfl | ⟨hs, hs', -⟩
      · rfl
      · rw [hs, hs']
    rw [← htype]
    split
    · rename_i ht
      refine .cons ?_ ih
      rcases hs with rfl | ⟨hs, -, hterms⟩
      · exact .inl rfl
      · exact .inr ⟨ht.symm.trans hs, hterms⟩
    · exact ih

/-- Only the payload of the constraints can differ, and only in what is not read from it. -/
theorem Describes.of_same {k : Circuit} {l l' : List (Nat × Bytes)}
    (hsame : List.Forall₂ (SameSection k.fieldSize) l l') (hl : Describes l k) :
    Describes l' k where
  noGates := by
    have htypes : List.Forall₂ (fun s s' => s.1 = s'.1) l l' := by
      refine hsame.imp ?_
      rintro s s' (rfl | ⟨hs, hs', -⟩)
      · rfl
      · rw [hs, hs']
    have hmap : l.map Prod.fst = l'.map Prod.fst := by
      rwa [← List.forall₂_eq_eq_eq, List.forall₂_map_left_iff, List.forall₂_map_right_iff]
    intro s hs
    obtain ⟨s', hs', heq⟩ := List.mem_map.1 (hmap ▸ List.mem_map_of_mem hs)
    exact heq ▸ hl.noGates s' hs'
  valid := hl.valid
  header := by
    obtain ⟨payload, hpayload, hstart⟩ := hl.header
    have h := forall₂_payloads (t := 1) hsame
    rw [hpayload] at h
    obtain ⟨payload', rest, hb, hrest, hpayload'⟩ := List.forall₂_cons_left_iff.1 h
    rw [List.forall₂_nil_left_iff.1 hrest] at hpayload'
    rcases hb with rfl | ⟨ht, -⟩
    · exact ⟨payload, hpayload', hstart⟩
    · exact absurd ht (by decide)
  constraints := by
    have h := forall₂_payloads (t := 2) hsame
    rcases hl.constraints with ⟨hpayload, hcs⟩ | ⟨payload, hpayload, hstores⟩
    · rw [hpayload] at h
      exact .inl ⟨List.forall₂_nil_left_iff.1 h, hcs⟩
    · rw [hpayload] at h
      obtain ⟨payload', rest, hb, hrest, hpayload'⟩ := List.forall₂_cons_left_iff.1 h
      rw [List.forall₂_nil_left_iff.1 hrest] at hpayload'
      refine .inr ⟨payload', hpayload', ?_⟩
      rcases hb with rfl | ⟨-, hterms⟩
      · exact hstores
      · exact stores_of_sameTerms hl.valid hterms hstores

/-- The order of the terms plays no part in what is read. -/
theorem parse_iff_of_same {bytes bytes' : Bytes} {l l' : List (Nat × Bytes)} {k : Circuit}
    (hl : Frames bytes l) (hl' : Frames bytes' l')
    (hsame : List.Forall₂ (SameSection k.fieldSize) l l') :
    (Circuit.parse bytes).outcome = .ok k ↔ (Circuit.parse bytes').outcome = .ok k := by
  have hsame' : List.Forall₂ (SameSection k.fieldSize) l' l :=
    (hsame.imp fun _ _ hs => hs.symm).flip
  rw [parse_eq_ok_iff_describes, parse_eq_ok_iff_describes]
  constructor
  · rintro ⟨sections, hframes, hdescribes⟩
    rw [hframes.unique hl] at hdescribes
    exact ⟨l', hl', hdescribes.of_same hsame⟩
  · rintro ⟨sections, hframes, hdescribes⟩
    rw [hframes.unique hl'] at hdescribes
    exact ⟨l, hl, hdescribes.of_same hsame'⟩

end Container

namespace Circuit

open Container (Frames Describes SameSection frame)

/-- Reading gives a circuit exactly from the byte strings that start with sections that describe it,
and listing the terms of the linear combinations in another order never changes what is read. -/
theorem parse_eq_ok_iff (bytes : Bytes) (k : Circuit) :
    ((parse bytes).outcome = .ok k ↔ ∃ sections, Frames bytes sections ∧ Describes sections k) ∧
      ∀ bytes' sections sections', Frames bytes sections → Frames bytes' sections' →
        List.Forall₂ (SameSection k.fieldSize) sections sections' →
        ((parse bytes).outcome = .ok k ↔ (parse bytes').outcome = .ok k) :=
  ⟨Container.parse_eq_ok_iff_describes, fun _ _ _ => Container.parse_iff_of_same⟩

/-- Three times wire 2 plus one, and nothing of wire 1, whose product is five times wire 1. -/
def tripled : Circuit where
  fieldSize := 1
  prime := 7
  wireCount := 3
  outputCount := 1
  publicCount := 1
  privateCount := 0
  labelCount := -1
  constraints := [⟨.ofList [(0, 1), (2, 3)], .ofList [(1, 0)], .ofList [(1, 5)]⟩]

/-- The sections of `tripled` with the constraints in front, a label section that is not read and
bytes behind every part. -/
def tripledSections (terms : List (Nat × Nat)) : List (Nat × Bytes) :=
  [(2, encodeTerms 1 terms ++ (encodeTerms 1 [(1, 0)] ++ encodeTerms 1 [(1, 5)] ++ [9, 9])),
    (3, []), (1, tripled.header.encode ++ [7]), (3, [1])]

/-- The same terms in two orders, with other bytes behind the sections. -/
theorem parse_eq_ok_iff_tripled : ∃ bytes bytes' : Bytes,
    bytes = Container.encode (tripledSections [(0, 1), (2, 3)]) ++ [1, 2] ∧
      bytes' = Container.encode (tripledSections [(2, 3), (0, 1)]) ∧
      (parse bytes).outcome = .ok tripled ∧ (parse bytes').outcome = .ok tripled := by
  have hframes (terms : List (Nat × Nat)) (rest : Bytes)
      (h : ∀ s ∈ tripledSections terms, s.1 < 2 ^ 32 ∧ s.2.length < 2 ^ 63) :
      Frames (Container.encode (tripledSections terms) ++ rest) (tripledSections terms) :=
    ⟨List.prefix_append _ _, by simp [tripledSections], h⟩
  have hsame : List.Forall₂ (SameSection tripled.fieldSize) (tripledSections [(0, 1), (2, 3)])
      (tripledSections [(2, 3), (0, 1)]) := by
    refine .cons (.inr ⟨rfl, rfl, [[(0, 1), (2, 3)]], [[(2, 3), (0, 1)]], _, ?_, ?_, ?_, rfl⟩)
      (List.forall₂_same.2 fun s _ => .inl rfl)
    · exact .cons (List.Perm.swap _ _ _) .nil
    · decide +kernel
    · rfl
  obtain ⟨-, hpermute⟩ := parse_eq_ok_iff
    (Container.encode (tripledSections [(0, 1), (2, 3)]) ++ [1, 2]) tripled
  have hparse : (parse (Container.encode (tripledSections [(0, 1), (2, 3)]) ++ [1, 2])).outcome =
      .ok tripled := by
    decide +kernel
  have hiff := hpermute (Container.encode (tripledSections [(2, 3), (0, 1)]) ++ []) _ _
    (hframes _ _ (by decide +kernel)) (hframes _ _ (by decide +kernel)) hsame
  rw [List.append_nil] at hiff
  exact ⟨_, _, rfl, rfl, hparse, hiff.1 hparse⟩

end Circuit

end CircuitTrace
