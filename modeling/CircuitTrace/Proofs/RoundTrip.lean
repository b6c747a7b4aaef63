import CircuitTrace.Proofs.Acceptance

namespace CircuitTrace

open LinearCombination (encodeTerm encodeTerms)

theorem LinearCombination.length_encodeTerms (f : Nat) (terms : List (Nat × Nat)) :
    (encodeTerms f terms).length = 4 + terms.length * (4 + f) := by
  have hterms : (terms.flatMap (encodeTerm f)).length = terms.length * (4 + f) := by
    induction terms with
    | nil => simp
    | cons e terms ih =>
      simp only [List.flatMap_cons, encodeTerm, List.length_append, Bytes.length_ofNat, ih,
        List.length_cons, Nat.succ_mul]
      omega
  rw [encodeTerms, List.length_append, Bytes.length_ofNat, hterms]

namespace Circuit

variable {k : Circuit}

/-- A circuit that has room in a container. -/
structure Storable (k : Circuit) : Prop where
  valid : k.header.Valid
  admits : ∀ c ∈ k.constraints, ∀ l ∈ c.parts, k.header.Admits l
  fits : ∀ payload ∈ [k.encodeHeader, k.encodeConstraints, k.encodeLabels],
    payload.length < 2 ^ 63

theorem encodeConstraints_eq (k : Circuit) :
    k.encodeConstraints = ((k.constraints.flatMap Constraint.parts).map SortedMap.entries).flatMap
      (encodeTerms k.fieldSize) := by
  rw [encodeConstraints, List.flatMap_map, List.flatMap_assoc]
  rfl

theorem length_encodeHeader (k : Circuit) : k.encodeHeader.length = 32 + k.fieldSize := by
  simp [encodeHeader]
  omega

theorem length_encodeLabels (k : Circuit) : k.encodeLabels.length = 8 * k.wireCount := by
  simp [encodeLabels, Nat.mul_comm]

theorem stores_encodeConstraints (h : k.Storable) :
    k.header.Stores k.constraints k.encodeConstraints := by
  refine ⟨(k.constraints.flatMap Constraint.parts).map SortedMap.entries, ?_, ?_⟩
  · rw [List.forall₂_map_left_iff, List.forall₂_same]
    intro l hl
    obtain ⟨c, hc, hpart⟩ := List.mem_flatMap.1 hl
    exact Header.lists_entries (h.admits c hc l hpart)
  · rw [encodeConstraints_eq]
    exact List.prefix_rfl

/-- The sections of an encoded circuit. -/
def sections (k : Circuit) : List (Nat × Bytes) :=
  [(1, k.encodeHeader), (2, k.encodeConstraints), (3, k.encodeLabels)]

theorem encode_eq (k : Circuit) : k.encode = Container.encode k.sections := rfl

theorem frames_encode (h : k.Storable) : Container.Frames k.encode k.sections := by
  refine ⟨List.prefix_rfl, by simp [sections], ?_⟩
  intro s hs
  simp only [sections, List.mem_cons, List.not_mem_nil, or_false] at hs
  rcases hs with rfl | rfl | rfl
  · exact ⟨by norm_num, h.fits _ (by simp)⟩
  · exact ⟨by norm_num, h.fits _ (by simp)⟩
  · exact ⟨by norm_num, h.fits _ (by simp)⟩

theorem parse_encode (h : k.Storable) : (parse k.encode).outcome = .ok k := by
  apply Container.parse_eq_ok_iff_describes.2
  refine ⟨_, frames_encode h, by simp [sections], h.valid, ⟨_, rfl, List.prefix_rfl⟩, ?_⟩
  exact .inr ⟨_, rfl, stores_encodeConstraints h⟩

/-- A payload that holds the terms in some order is no shorter than one that is written. -/
theorem length_encodeConstraints_le {payload : Bytes}
    (h : k.header.Stores k.constraints payload) :
    k.encodeConstraints.length ≤ payload.length := by
  obtain ⟨lists, hlists, hstart⟩ := h
  have hlen : k.encodeConstraints.length = (lists.flatMap (encodeTerms k.fieldSize)).length := by
    rw [encodeConstraints_eq]
    clear hstart
    generalize k.constraints.flatMap Constraint.parts = parts at hlists
    induction hlists with
    | nil => rfl
    | cons hl _ ih =>
      rw [List.map_cons, List.flatMap_cons, List.flatMap_cons, List.length_append,
        List.length_append, ih, LinearCombination.length_encodeTerms,
        LinearCombination.length_encodeTerms, hl.perm_entries.length_eq]
  rw [hlen]
  exact hstart.length_le

theorem storable_of_parse {bytes : Bytes} (h : (parse bytes).outcome = .ok k) : k.Storable := by
  obtain ⟨sections, hframes, hdescribes⟩ := Container.parse_eq_ok_iff_describes.1 h
  have hvalid := hdescribes.valid
  have hconstraints : k.encodeConstraints.length < 2 ^ 63 := by
    rcases hdescribes.constraints with ⟨-, hnone⟩ | ⟨payload, hpayload, hstores⟩
    · simp [encodeConstraints, hnone]
    · have hmem : payload ∈ Container.payloads 2 sections := by simp [hpayload]
      obtain ⟨s, hs, rfl⟩ := List.mem_map.1 hmem
      have hfits := hframes.fits s (List.mem_filter.1 hs).1
      exact (length_encodeConstraints_le hstores).trans_lt hfits.2
  refine ⟨hvalid, hdescribes.admits, ?_⟩
  have hfield : k.fieldSize < 2 ^ 32 := hvalid.fieldSize_lt
  have hwires : k.wireCount < 2 ^ 32 := hvalid.wireCount_lt
  intro payload hpayload
  simp only [List.mem_cons, List.not_mem_nil, or_false] at hpayload
  rcases hpayload with rfl | rfl | rfl
  · rw [length_encodeHeader]
    omega
  · exact hconstraints
  · rw [length_encodeLabels]
    omega

/-- Every circuit that has room in a container is read back from its encoding. Every circuit that
was read has, so its encoding is a normal form of whatever it was read from. -/
theorem parse_encode_and_storable_of_parse :
    (∀ k : Circuit, k.Storable → (parse k.encode).outcome = .ok k) ∧
      ∀ (bytes : Bytes) (k : Circuit), (parse bytes).outcome = .ok k →
        k.Storable ∧ (parse k.encode).outcome = .ok k := by
  refine ⟨fun k => parse_encode, ?_⟩
  intro bytes k h
  have hstorable := storable_of_parse h
  exact ⟨hstorable, parse_encode hstorable⟩

/-- A container with unsorted terms, sections that are not read and bytes behind every part. -/
theorem parse_encode_tripled : ∃ bytes : Bytes,
    bytes ≠ tripled.encode ∧ (parse bytes).outcome = .ok tripled ∧ tripled.Storable ∧
      (parse tripled.encode).outcome = .ok tripled := by
  have hparse : (parse (Container.encode (tripledSections [(2, 3), (0, 1)]) ++ [1, 2])).outcome =
      .ok tripled := by
    decide +kernel
  have hother : Container.encode (tripledSections [(2, 3), (0, 1)]) ++ [1, 2] ≠ tripled.encode := by
    decide +kernel
  obtain ⟨hstorable, -⟩ := parse_encode_and_storable_of_parse.2 _ _ hparse
  exact ⟨_, hother, hparse, hstorable, parse_encode_and_storable_of_parse.1 tripled hstorable⟩

end Circuit

end CircuitTrace
