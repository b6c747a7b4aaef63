import CircuitTrace.Container.Encoding
import CircuitTrace.Proofs.Decoding
import CircuitTrace.Proofs.SortedMap

/-!
The format of the two payloads that a circuit is read from. A header is read exactly from its own
bytes. A linear combination is read from any list of its terms, so the constraints have a payload
for each order of their terms.
-/
namespace CircuitTrace

open Decoder (Accepts)

namespace Header

/-- The numbers of a header that can be written and are accepted. -/
structure Valid (h : Header) : Prop where
  fieldSize_pos : 1 ≤ h.fieldSize
  fieldSize_lt : h.fieldSize < 2 ^ 32
  isModulus : Residue.IsModulus h.prime
  prime_lt : h.prime < 256 ^ h.fieldSize
  roles : h.requiredWires ≤ h.wireCount
  wireCount_lt : h.wireCount < 2 ^ 32
  labelCount_ge : -2 ^ 63 ≤ h.labelCount
  labelCount_lt : h.labelCount < 2 ^ 63
  constraintCount_lt : h.constraintCount < 2 ^ 32

/-- The bytes that stand for a header. -/
def encode (h : Header) : Bytes :=
  Bytes.ofNat 4 h.fieldSize ++ Bytes.ofNat h.fieldSize h.prime ++
    [h.wireCount, h.outputCount, h.publicCount, h.privateCount].flatMap (Bytes.ofNat 4) ++
    Bytes.ofInt 8 h.labelCount ++ Bytes.ofNat 4 h.constraintCount

variable {h : Header}

theorem Valid.prime_pos (hv : h.Valid) : 0 < h.prime := lt_of_lt_of_le Nat.zero_lt_two hv.isModulus

theorem fitsInt_eight_iff {i : Int} : Bytes.FitsInt 8 i ↔ -2 ^ 63 ≤ i ∧ i < 2 ^ 63 := by
  rw [Bytes.FitsInt]
  norm_num
  omega

theorem accepts_decode : decode.Accepts fun b h => h.Valid ∧ b = h.encode := by
  apply Accepts.congr
  · dsimp only [decode]
    apply Decoder.accepts_u32.bind_encoding; intro fieldSize
    apply (Decoder.accepts_nat fieldSize).bind_encoding; intro prime
    apply Accepts.guard
    apply Decoder.accepts_u32.bind_encoding; intro wireCount
    apply Decoder.accepts_u32.bind_encoding; intro outputCount
    apply Decoder.accepts_u32.bind_encoding; intro publicCount
    apply Decoder.accepts_u32.bind_encoding; intro privateCount
    apply Decoder.accepts_i64.bind_encoding; intro labelCount
    apply Decoder.accepts_u32.bind_encoding; intro constraintCount
    apply Accepts.guard
    exact Decoder.accepts_pure _
  intro b h
  constructor
  · rintro ⟨fieldSize, _, hsize, ⟨prime, _, hprime, ⟨hfield, wireCount, _, hwires,
      ⟨outputCount, _, -, ⟨publicCount, _, -, ⟨privateCount, _, -,
      ⟨labelCount, _, hlabels, ⟨constraintCount, _, hcount,
      ⟨hroles, rfl, rfl⟩, rfl⟩, rfl⟩, rfl⟩, rfl⟩, rfl⟩, rfl⟩, rfl⟩, rfl⟩
    obtain ⟨hlow, hhigh⟩ := fitsInt_eight_iff.1 hlabels
    obtain ⟨hpos, hmodulus⟩ := not_or.1 hfield
    refine ⟨⟨?_, hsize, not_not.1 hmodulus, hprime, ?_, hwires, hlow, hhigh, hcount⟩, ?_⟩
    · exact Nat.one_le_iff_ne_zero.2 hpos
    · exact Nat.le_of_not_lt hroles
    · simp [encode]
  · rintro ⟨hv, rfl⟩
    have hwires := hv.wireCount_lt
    have hsum : 1 + h.outputCount + h.publicCount + h.privateCount ≤ h.wireCount := hv.roles
    have hlabels := fitsInt_eight_iff.2 ⟨hv.labelCount_ge, hv.labelCount_lt⟩
    have hfield : ¬(h.fieldSize = 0 ∨ ¬Residue.IsModulus h.prime) := by
      have hpos := hv.fieldSize_pos
      simp only [hv.isModulus, not_true_eq_false, or_false]
      omega
    refine ⟨h.fieldSize, _, hv.fieldSize_lt, ⟨h.prime, _, hv.prime_lt,
      ⟨hfield, h.wireCount, _, hwires,
      ⟨h.outputCount, _, by omega, ⟨h.publicCount, _, by omega, ⟨h.privateCount, _, by omega,
      ⟨h.labelCount, _, hlabels, ⟨h.constraintCount, _, hv.constraintCount_lt,
      ⟨hv.roles.not_gt, rfl, rfl⟩, rfl⟩, rfl⟩, rfl⟩, rfl⟩, rfl⟩, rfl⟩, rfl⟩, ?_⟩
    simp [encode]

end Header

namespace LinearCombination

/-- One term as bytes. -/
def encodeTerm (fieldSize : Nat) (e : Nat × Nat) : Bytes :=
  Bytes.ofNat 4 e.1 ++ Bytes.ofNat fieldSize e.2

/-- A list of terms as bytes, behind its length. -/
def encodeTerms (fieldSize : Nat) (terms : List (Nat × Nat)) : Bytes :=
  Bytes.ofNat 4 terms.length ++ terms.flatMap (encodeTerm fieldSize)

end LinearCombination

open LinearCombination (encodeTerm encodeTerms)

namespace Header

variable {h : Header}

/-- A list of terms, in any order, that a header admits and that holds the terms of a linear
combination. -/
structure Lists (h : Header) (terms : List (Nat × Nat)) (l : LinearCombination) : Prop where
  distinct : (terms.map Prod.fst).Nodup
  inRange : ∀ e ∈ terms, e.1 < h.wireCount ∧ e.2 < h.prime
  holds : ∀ wire coefficient, l.get? wire = some coefficient ↔ (wire, coefficient) ∈ terms

theorem lists_iff {terms : List (Nat × Nat)} {l : LinearCombination} :
    h.Lists terms l ↔ (terms.map Prod.fst).Nodup ∧
      (∀ e ∈ terms, e.1 < h.wireCount ∧ e.2 < h.prime) ∧ l = SortedMap.ofList terms := by
  constructor
  · intro hl
    refine ⟨hl.distinct, hl.inRange, SortedMap.ext_get? fun wire => Option.ext fun c => ?_⟩
    rw [hl.holds, SortedMap.get?_ofList hl.distinct]
  · rintro ⟨hdistinct, hrange, rfl⟩
    exact ⟨hdistinct, hrange, SortedMap.get?_ofList hdistinct⟩

theorem Lists.length_le {terms : List (Nat × Nat)} {l : LinearCombination} (hl : h.Lists terms l) :
    terms.length ≤ h.wireCount := by
  have hsubset : terms.map Prod.fst ⊆ List.range h.wireCount := by
    intro wire hwire
    obtain ⟨e, he, rfl⟩ := List.mem_map.1 hwire
    exact List.mem_range.2 (hl.inRange e he).1
  simpa using (List.subperm_of_subset hl.distinct hsubset).length_le

theorem Lists.perm {terms terms' : List (Nat × Nat)} {l : LinearCombination} (hl : h.Lists terms l)
    (hperm : terms.Perm terms') : h.Lists terms' l where
  distinct := (hperm.map Prod.fst).nodup_iff.1 hl.distinct
  inRange e he := hl.inRange e (hperm.mem_iff.2 he)
  holds wire c := (hl.holds wire c).trans hperm.mem_iff

/-- The terms of a combination are in range for a header. -/
def Admits (h : Header) (l : LinearCombination) : Prop :=
  ∀ e ∈ l.entries, e.1 < h.wireCount ∧ e.2 < h.prime

/-- The entries of a linear combination in range are a list of its terms. -/
theorem lists_entries {l : LinearCombination} (hl : h.Admits l) : h.Lists l.entries l where
  distinct := l.keys_nodup
  inRange := hl
  holds := SortedMap.get?_eq_some_iff l

/-- The terms that are read are the entries, in some order. -/
theorem Lists.perm_entries {terms : List (Nat × Nat)} {l : LinearCombination}
    (hl : h.Lists terms l) : terms.Perm l.entries := by
  rw [List.perm_ext_iff_of_nodup hl.distinct.of_map l.entries_nodup]
  intro e
  rw [← hl.holds, SortedMap.get?_eq_some_iff]

theorem Lists.admits {terms : List (Nat × Nat)} {l : LinearCombination} (hl : h.Lists terms l) :
    h.Admits l := fun e he => hl.inRange e (hl.perm_entries.mem_iff.2 he)

/-- Behind terms that were read come terms with other wires. -/
theorem accepts_decodeTerms (hv : h.Valid) (constraint count : Nat) (l : LinearCombination) :
    (h.decodeTerms constraint count l).Accepts fun b l' => ∃ terms : List (Nat × Nat),
      (terms.length = count ∧ (terms.map Prod.fst).Nodup ∧
        (∀ e ∈ terms, e.1 < h.wireCount ∧ e.2 < h.prime) ∧ ∀ e ∈ terms, l.get? e.1 = none) ∧
      b = terms.flatMap (encodeTerm h.fieldSize) ∧
      l' = terms.foldl (fun l e => l.insert e.1 e.2) l := by
  induction count generalizing l with
  | zero =>
    refine (Decoder.accepts_pure l).congr ?_
    intro b l'
    constructor
    · rintro ⟨rfl, rfl⟩
      exact ⟨[], by simp, rfl, rfl⟩
    · rintro ⟨terms, ⟨hlen, -⟩, rfl, rfl⟩
      simp [List.eq_nil_of_length_eq_zero hlen]
  | succ count ih =>
    refine (Decoder.accepts_u32.bind_encoding fun wire =>
      (Decoder.accepts_nat h.fieldSize).bind_encoding fun coefficient =>
      Accepts.guard (Accepts.guard (Accepts.guard (ih (l.insert wire coefficient))))).congr ?_
    intro b l'
    have hwires := hv.wireCount_lt
    have hprime := hv.prime_lt
    constructor
    · rintro ⟨wire, _, -, ⟨coefficient, _, -, ⟨hwire, hcoefficient, hnew, terms,
        ⟨rfl, hdistinct, hrange, hfresh⟩, rfl, rfl⟩, rfl⟩, rfl⟩
      have hnone : l.get? wire = none := by simpa [SortedMap.contains] using hnew
      have hother (e : Nat × Nat) (he : e ∈ terms) : e.1 ≠ wire ∧ l.get? e.1 = none := by
        have hget := hfresh e he
        rw [SortedMap.get?_insert] at hget
        split at hget
        · cases hget
        · rename_i hne
          exact ⟨hne, hget⟩
      refine ⟨(wire, coefficient) :: terms, ⟨rfl, ?_, ?_, ?_⟩, ?_, rfl⟩
      · rw [List.map_cons, List.nodup_cons]
        refine ⟨?_, hdistinct⟩
        intro hmem
        obtain ⟨e, he, heq⟩ := List.mem_map.1 hmem
        exact (hother e he).1 heq
      · exact List.forall_mem_cons.2 ⟨⟨by simpa using hwire, by simpa using hcoefficient⟩, hrange⟩
      · exact List.forall_mem_cons.2 ⟨hnone, fun e he => (hother e he).2⟩
      · simp [encodeTerm]
    · rintro ⟨terms, ⟨hlen, hdistinct, hrange, hfresh⟩, rfl, rfl⟩
      obtain ⟨⟨wire, coefficient⟩, terms, rfl⟩ := List.exists_cons_of_length_eq_add_one hlen
      obtain ⟨⟨hwire, hcoefficient⟩, hrange⟩ := List.forall_mem_cons.1 hrange
      obtain ⟨hnone, hfresh⟩ := List.forall_mem_cons.1 hfresh
      rw [List.map_cons, List.nodup_cons] at hdistinct
      obtain ⟨hnot, hdistinct⟩ := hdistinct
      simp only at hwire hcoefficient hnone hnot
      have hrest (e : Nat × Nat) (he : e ∈ terms) :
          (l.insert wire coefficient).get? e.1 = none := by
        have hne : e.1 ≠ wire := fun heq => hnot (heq ▸ List.mem_map_of_mem he)
        rw [SortedMap.get?_insert, if_neg hne]
        exact hfresh e he
      refine ⟨wire, _, by omega, ⟨coefficient, _, by omega, ⟨by omega, by omega, ?_, terms,
        ⟨by simpa using hlen, hdistinct, hrange, hrest⟩, rfl, rfl⟩, rfl⟩, ?_⟩
      · simp [SortedMap.contains, hnone]
      · simp [encodeTerm]

theorem accepts_decodeCombination (hv : h.Valid) (constraint : Nat) :
    (h.decodeCombination constraint).Accepts fun b l =>
      ∃ terms, h.Lists terms l ∧ b = encodeTerms h.fieldSize terms := by
  refine (Decoder.accepts_u32.bind_encoding fun count =>
    accepts_decodeTerms hv constraint count .empty).congr ?_
  intro b l
  constructor
  · rintro ⟨_, _, -, ⟨terms, ⟨rfl, hdistinct, hrange, -⟩, rfl, rfl⟩, rfl⟩
    exact ⟨terms, lists_iff.2 ⟨hdistinct, hrange, rfl⟩, rfl⟩
  · rintro ⟨terms, hl, rfl⟩
    have hlen := hl.length_le
    have hwires := hv.wireCount_lt
    obtain ⟨hdistinct, hrange, rfl⟩ := lists_iff.1 hl
    exact ⟨terms.length, _, by omega, ⟨terms, ⟨rfl, hdistinct, hrange, by simp⟩, rfl, rfl⟩, rfl⟩

/-- The constraints are read from three lists of terms each. -/
theorem accepts_decodeConstraints (hv : h.Valid) (index count : Nat) :
    (h.decodeConstraints index count).Accepts fun b cs => cs.length = count ∧
      ∃ lists : List (List (Nat × Nat)), lists.Forall₂ h.Lists (cs.flatMap Constraint.parts) ∧
        b = lists.flatMap (encodeTerms h.fieldSize) := by
  induction count generalizing index with
  | zero =>
    refine (Decoder.accepts_pure []).congr ?_
    intro b cs
    constructor
    · rintro ⟨rfl, rfl⟩
      exact ⟨rfl, [], .nil, rfl⟩
    · rintro ⟨hlen, lists, hlists, rfl⟩
      obtain rfl := List.eq_nil_of_length_eq_zero hlen
      cases hlists
      exact ⟨rfl, rfl⟩
  | succ count ih =>
    have part := accepts_decodeCombination hv index
    refine (part.bind fun a => part.bind fun b => part.bind fun c => (ih (index + 1)).bind
      fun rest => Decoder.accepts_pure (⟨a, b, c⟩ :: rest)).congr ?_
    intro bytes cs
    constructor
    · rintro ⟨a, _, _, ⟨ta, ha, rfl⟩, ⟨b, _, _, ⟨tb, hb, rfl⟩, ⟨c, _, _, ⟨tc, hc, rfl⟩,
        ⟨rest, _, _, ⟨rfl, lists, hlists, rfl⟩, ⟨rfl, rfl⟩, rfl⟩, rfl⟩, rfl⟩, rfl⟩
      exact ⟨rfl, ta :: tb :: tc :: lists, .cons ha (.cons hb (.cons hc hlists)), by simp⟩
    · rintro ⟨hlen, lists, hlists, rfl⟩
      obtain ⟨⟨a, b, c⟩, rest, rfl⟩ := List.exists_cons_of_length_eq_add_one hlen
      cases hlists with
      | cons ha hlists =>
        cases hlists with
        | cons hb hlists =>
          cases hlists with
          | cons hc hlists =>
            exact ⟨a, _, _, ⟨_, ha, rfl⟩, ⟨b, _, _, ⟨_, hb, rfl⟩, ⟨c, _, _, ⟨_, hc, rfl⟩,
              ⟨rest, _, _, ⟨by simpa using hlen, _, hlists, rfl⟩, ⟨rfl, rfl⟩, rfl⟩, rfl⟩, rfl⟩,
              by simp⟩

end Header

end CircuitTrace
