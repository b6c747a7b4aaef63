import CircuitTrace.Proofs.Acceptance
import CircuitTrace.Proofs.Outcomes
import CircuitTrace.Proofs.SelfDelimiting

/-!
What a fingerprint tells of a circuit: the prime, the roles of the wires and the constraints, and
nothing else. So where no two of the hashed byte strings collide, a path is followed exactly for the
circuits that agree with the one it was recorded for.
-/
namespace CircuitTrace

open Bytes (minimal withLength selfDelimiting_ofNat selfDelimiting_withLength minimal_injective
  selfDelimiting_counted)

namespace LinearCombination

/-- The numbers that are written in eight bytes fit there: the wires, how many there are, and how
many bytes a coefficient takes. -/
structure InWords (l : LinearCombination) : Prop where
  size_lt : l.size < 2 ^ 64
  entries : ∀ e ∈ l.entries, e.1 < 2 ^ 64 ∧ (minimal e.2).length < 2 ^ 64

instance (l : LinearCombination) : Decidable l.InWords :=
  decidable_of_iff (l.size < 2 ^ 64 ∧
    ∀ e ∈ l.entries, e.1 < 2 ^ 64 ∧ (minimal e.2).length < 2 ^ 64)
    ⟨fun h => ⟨h.1, h.2⟩, fun h => ⟨h.size_lt, h.entries⟩⟩

theorem selfDelimiting_combinationBytes : SelfDelimiting InWords Circuit.combinationBytes := by
  have hterm := (selfDelimiting_ofNat 8).append (selfDelimiting_withLength.comp minimal_injective)
  have hentries := (selfDelimiting_counted 8 hterm).comp SortedMap.entries_injective
  exact hentries.mono fun l hl => ⟨hl.size_lt, hl.entries⟩

end LinearCombination

namespace Circuit

/-- The wire counts that a fingerprint covers. -/
def counts (k : Circuit) : List Nat := [k.wireCount, k.outputCount, k.publicCount, k.privateCount]

/-- The numbers that a fingerprint writes in eight bytes fit there, as they do in every circuit that
a machine of 64 bits holds. -/
structure InWords (k : Circuit) : Prop where
  prime_lt : (minimal k.prime).length < 2 ^ 64
  counts_lt : ∀ n ∈ k.counts, n < 2 ^ 64
  constraints_lt : k.constraints.length < 2 ^ 64
  combinations : ∀ c ∈ k.constraints, ∀ l ∈ c.parts, LinearCombination.InWords l

instance (k : Circuit) : Decidable k.InWords :=
  decidable_of_iff ((minimal k.prime).length < 2 ^ 64 ∧ (∀ n ∈ k.counts, n < 2 ^ 64) ∧
    k.constraints.length < 2 ^ 64 ∧
    ∀ c ∈ k.constraints, ∀ l ∈ c.parts, LinearCombination.InWords l)
    ⟨fun h => ⟨h.1, h.2.1, h.2.2.1, h.2.2.2⟩,
      fun h => ⟨h.prime_lt, h.counts_lt, h.constraints_lt, h.combinations⟩⟩

/-- A circuit that is read from a container has its numbers in fields of four bytes, and its
coefficients take no more bytes than such a number says. -/
theorem inWords_of_parse {bytes : Bytes} {k : Circuit} (h : (parse bytes).outcome = .ok k) :
    k.InWords := by
  obtain ⟨sections, -, hdescribes⟩ := Container.parse_eq_ok_iff_describes.1 h
  have hvalid : k.header.Valid := hdescribes.valid
  have hword (v : Nat) (hv : v < 256 ^ k.fieldSize) : (minimal v).length < 2 ^ 64 := by
    have hle : (minimal v).length ≤ k.fieldSize :=
      Bytes.length_minimal_le hvalid.fieldSize_pos hv
    have hlt : k.fieldSize < 2 ^ 32 := hvalid.fieldSize_lt
    omega
  have hprime : k.prime < 256 ^ k.fieldSize := hvalid.prime_lt
  have hwires : k.wireCount < 2 ^ 32 := hvalid.wireCount_lt
  have hroles : 1 + k.outputCount + k.publicCount + k.privateCount ≤ k.wireCount := hvalid.roles
  have hconstraints : k.constraints.length < 2 ^ 32 := hvalid.constraintCount_lt
  refine ⟨hword _ hprime, ?_, by omega, ?_⟩
  · intro n hn
    simp only [counts, List.mem_cons, List.not_mem_nil, or_false] at hn
    omega
  · intro c hc l hl
    have hadmits : k.header.Admits l := hdescribes.admits c hc l hl
    have hsize : l.size ≤ k.wireCount := (Header.lists_entries hadmits).length_le
    refine ⟨by omega, ?_⟩
    intro e he
    obtain ⟨hwire, hcoefficient⟩ := hadmits e he
    change e.1 < k.wireCount at hwire
    exact ⟨by omega, hword _ (hcoefficient.trans hprime)⟩

/-- Two circuits that ask the same of the same wires, however they are stored and labelled.
Coefficients that are zero count like the others. -/
structure SameSystem (k k' : Circuit) : Prop where
  prime : k.prime = k'.prime
  wireCount : k.wireCount = k'.wireCount
  outputCount : k.outputCount = k'.outputCount
  publicCount : k.publicCount = k'.publicCount
  privateCount : k.privateCount = k'.privateCount
  constraints : k.constraints = k'.constraints

theorem selfDelimiting_constraint :
    SelfDelimiting (fun c : Constraint => ∀ l ∈ c.parts, LinearCombination.InWords l)
      fun c => c.parts.flatMap combinationBytes := by
  have hparts : Function.Injective Constraint.parts := by
    rintro ⟨a, b, c⟩ ⟨a', b', c'⟩ h
    simp_all [Constraint.parts]
  exact ((LinearCombination.selfDelimiting_combinationBytes.flatMap 3).comp hparts).mono
    fun c hc => ⟨rfl, hc⟩

/-- The parts of a fingerprint one behind the other. -/
theorem fingerprintBytes_eq (k : Circuit) : k.fingerprintBytes =
    withLength (minimal k.prime) ++ (k.counts.flatMap (Bytes.ofNat 8) ++
      (Bytes.ofNat 8 k.constraints.length ++
        k.constraints.flatMap fun c => c.parts.flatMap combinationBytes)) := by
  rw [fingerprintBytes, List.append_assoc, List.append_assoc]
  rfl

theorem SameSystem.fingerprintBytes_eq {k k' : Circuit} (h : k.SameSystem k') :
    k.fingerprintBytes = k'.fingerprintBytes := by
  rw [fingerprintBytes, fingerprintBytes, h.prime, h.wireCount, h.outputCount, h.publicCount,
    h.privateCount, h.constraints]

theorem sameSystem_of_fingerprintBytes {k k' : Circuit} (hk : k.InWords) (hk' : k'.InWords)
    (h : k.fingerprintBytes = k'.fingerprintBytes) : k.SameSystem k' := by
  have hparts := (selfDelimiting_withLength.comp minimal_injective).append
    (((selfDelimiting_ofNat 8).flatMap 4).append
      (selfDelimiting_counted 8 selfDelimiting_constraint))
  rw [fingerprintBytes_eq, fingerprintBytes_eq] at h
  have heq := hparts.injOn (a := (k.prime, k.counts, k.constraints))
    (b := (k'.prime, k'.counts, k'.constraints))
    ⟨hk.prime_lt, ⟨rfl, hk.counts_lt⟩, hk.constraints_lt, hk.combinations⟩
    ⟨hk'.prime_lt, ⟨rfl, hk'.counts_lt⟩, hk'.constraints_lt, hk'.combinations⟩ h
  simp only [counts, Prod.mk.injEq, List.cons.injEq, and_true] at heq
  obtain ⟨hprime, ⟨hwires, houtputs, hpublic, hprivate⟩, hconstraints⟩ := heq
  exact ⟨hprime, hwires, houtputs, hpublic, hprivate, hconstraints⟩

theorem fingerprintBytes_eq_iff {k k' : Circuit} (hk : k.InWords) (hk' : k'.InWords) :
    k.fingerprintBytes = k'.fingerprintBytes ↔ k.SameSystem k' :=
  ⟨sameSystem_of_fingerprintBytes hk hk', SameSystem.fingerprintBytes_eq⟩

/-- Circuits whose byte strings do not collide have the same fingerprint only if they agree. -/
theorem fingerprint_eq_iff {S : Set Bytes} (hS : Set.InjOn Blake2s.hash S) {k k' : Circuit}
    (hk : k.InWords) (hk' : k'.InWords) (hmem : k.fingerprintBytes ∈ S)
    (hmem' : k'.fingerprintBytes ∈ S) : k.fingerprint = k'.fingerprint ↔ k.SameSystem k' := by
  rw [fingerprint, fingerprint, hS.eq_iff hmem hmem', fingerprintBytes_eq_iff hk hk']

end Circuit

namespace Solver

theorem circuit_of_solve {s : Solver} {inputs : List Nat} {w : Witness} {path : Path}
    (h : (s.solve inputs).outcome = .ok (w, path)) : path.circuit = s.circuit.fingerprint := by
  rw [solve] at h
  obtain ⟨a, -, h⟩ := Logged.outcome_bind_eq_ok_iff.1 h
  obtain ⟨r, -, h⟩ := Logged.outcome_bind_eq_ok_iff.1 h
  obtain ⟨w', -, h⟩ := Logged.outcome_bind_eq_ok_iff.1 h
  obtain ⟨-, -, h⟩ := Logged.outcome_bind_eq_ok_iff.1 h
  obtain ⟨-, rfl⟩ := Prod.mk.inj (Except.ok.inj h)
  rfl

theorem witness_of_finish {s : Solver} {n : Nat} {a : Assignment n} {error : SolveError}
    (h : s.finish a = .error error) : ∃ d, error = .witness d := by
  rw [finish, map_eq_error_iff] at h
  obtain ⟨d, -, rfl⟩ := mapError_eq_error_iff.1 h
  exact ⟨d, rfl⟩

/-- Nothing else in a replay is reported as a path that does not match. -/
theorem replay_ne_pathMismatch {s : Solver} {inputs : List Nat} {path : Path}
    (h : path.circuit = s.circuit.fingerprint) (expected found : Digest) :
    s.replay inputs path ≠ .error (.pathMismatch expected found) := by
  intro hreplay
  rcases replay_cases_of_eq inputs h with ⟨error, herror, hway⟩ | ⟨a, b, -, -, -, hfinish⟩
  · rw [hreplay] at herror
    obtain rfl := Except.error.inj herror
    exact hway
  · obtain ⟨d, hd⟩ := witness_of_finish (hfinish.symm.trans hreplay)
    cases hd

/-- A fingerprint is taken of bytes that determine the prime, the roles of the wires and the
constraints, in every circuit that is read from a container among others. Where none of them
collide, the path that was recorded for one circuit is refused for another exactly if the two differ
in one of these. -/
theorem replay_refused_iff_differs :
    (∀ k k' : Circuit, k.InWords → k'.InWords →
      (k.fingerprintBytes = k'.fingerprintBytes ↔ k.SameSystem k')) ∧
    (∀ (bytes : Bytes) (k : Circuit), (Circuit.parse bytes).outcome = .ok k → k.InWords) ∧
    (∀ (k : Circuit) (fieldSize : Nat) (labelCount : Int),
      ({ k with fieldSize, labelCount } : Circuit).fingerprint = k.fingerprint) ∧
    (∀ (s : Solver) (inputs : List Nat) (w : Witness) (path : Path),
      (s.solve inputs).outcome = .ok (w, path) → path.circuit = s.circuit.fingerprint) ∧
    ∀ S : Set Bytes, Set.InjOn Blake2s.hash S →
      ∀ (s : Solver) (k : Circuit) (inputs : List Nat) (path : Path),
        s.circuit.InWords → k.InWords → s.circuit.fingerprintBytes ∈ S → k.fingerprintBytes ∈ S →
        path.circuit = k.fingerprint →
        (¬s.circuit.SameSystem k → s.replay inputs path =
          .error (.pathMismatch k.fingerprint s.circuit.fingerprint)) ∧
        (s.circuit.SameSystem k → ∀ expected found,
          s.replay inputs path ≠ .error (.pathMismatch expected found)) := by
  refine ⟨fun k k' => Circuit.fingerprintBytes_eq_iff, fun _ _ => Circuit.inWords_of_parse,
    fun _ _ _ => rfl, fun _ _ _ _ => circuit_of_solve, ?_⟩
  intro S hS s k inputs path hs hk hmem hmem' hpath
  have hsame := Circuit.fingerprint_eq_iff hS hs hk hmem hmem'
  constructor
  · intro hdiffers
    have hne : path.circuit ≠ s.circuit.fingerprint := by
      rw [hpath]
      exact fun h => hdiffers (hsame.1 h.symm)
    rw [replay_of_ne hne, hpath]
  · intro h
    exact replay_ne_pathMismatch (hpath.trans (hsame.2 h).symm)

/-- The square of the public input on wire 2 is the output on wire 1. More terms may be listed in
the first factor. -/
def squaring (more : List (Nat × Nat)) : Solver where
  circuit := {
    fieldSize := 1
    prime := 97
    wireCount := 3
    outputCount := 1
    publicCount := 1
    privateCount := 0
    labelCount := 3
    constraints := [⟨.ofList ((2, 1) :: more), .ofList [(2, 1)], .ofList [(1, 1)]⟩] }
  gadgets := []

/-- Where a term with the coefficient zero is listed as well, the path is refused although its steps
would do. Stored in another way, the circuit is still the same. -/
theorem replay_refused_iff_differs_listedZero :
    ∃ path : Path, ((squaring []).solve [5]).outcome = .ok (⟨[1, 25, 5]⟩, path) ∧
      (squaring [(1, 0)]).replay [5] path = .error (.pathMismatch (squaring []).circuit.fingerprint
        (squaring [(1, 0)]).circuit.fingerprint) ∧
      ∀ expected found,
        (⟨{ (squaring []).circuit with fieldSize := 32, labelCount := -1 }, []⟩ : Solver).replay
          [5] path ≠ .error (.pathMismatch expected found) := by
  obtain ⟨⟨w, path⟩, hsolve, rfl⟩ : ∃ r, ((squaring []).solve [5]).outcome = .ok r ∧
      r.1 = ⟨[1, 25, 5]⟩ := by
    decide +kernel
  have hhash : Blake2s.hash (squaring []).circuit.fingerprintBytes ≠
      Blake2s.hash (squaring [(1, 0)]).circuit.fingerprintBytes := by
    decide +kernel
  have hS : Set.InjOn Blake2s.hash {(squaring []).circuit.fingerprintBytes,
      (squaring [(1, 0)]).circuit.fingerprintBytes} :=
    Set.injOn_pair.2 fun h => absurd h hhash
  obtain ⟨-, -, -, hrecorded, hreplay⟩ := replay_refused_iff_differs
  have hpath := hrecorded _ _ _ _ hsolve
  refine ⟨path, hsolve, ?_, ?_⟩
  · obtain ⟨hrefused, -⟩ := hreplay _ hS (squaring [(1, 0)]) (squaring []).circuit [5] path
      (by decide +kernel) (by decide +kernel) (.inr rfl) (.inl rfl) hpath
    have hlisted : (squaring [(1, 0)]).circuit.constraints ≠ (squaring []).circuit.constraints := by
      decide +kernel
    exact hrefused fun h => hlisted h.constraints
  · obtain ⟨-, hfollowed⟩ := hreplay _ hS
      ⟨{ (squaring []).circuit with fieldSize := 32, labelCount := -1 }, []⟩
      (squaring []).circuit [5] path (by decide +kernel) (by decide +kernel) (.inl rfl) (.inl rfl)
      hpath
    exact hfollowed ⟨rfl, rfl, rfl, rfl, rfl, rfl⟩

end Solver

end CircuitTrace
