import CircuitTrace.Container
import CircuitTrace.Proofs.Inversion

/-!
Where a payload stands does not matter. Decoders carry the offset of what they read, but only the
error about missing bytes mentions it: at two places the same bytes give the same value, or errors
that differ in nothing else.
-/
namespace CircuitTrace

/-- An error without the place where the bytes ran out. -/
def FormatError.forgetOffset : FormatError → FormatError
  | .truncated _ needed => .truncated 0 needed
  | error => error

def ParseError.forgetOffset : ParseError → ParseError
  | .format error => .format error.forgetOffset
  | error => error

namespace Decoder

variable {α β : Type}

/-- Outcomes that differ only in offsets. -/
inductive SameRun : Except FormatError (α × Cursor) → Except FormatError (α × Cursor) → Prop
  | ok (a : α) (o o' : Nat) (rest : Bytes) : SameRun (.ok (a, ⟨o, rest⟩)) (.ok (a, ⟨o', rest⟩))
  | error {e e' : FormatError} (h : e.forgetOffset = e'.forgetOffset) :
    SameRun (.error e) (.error e')

def IgnoresOffset (d : Decoder α) : Prop :=
  ∀ o o' rest, SameRun (d.run ⟨o, rest⟩) (d.run ⟨o', rest⟩)

theorem ignoresOffset_pure (a : α) : (pure a : Decoder α).IgnoresOffset :=
  fun o o' rest => .ok a o o' rest

theorem ignoresOffset_bytes (n : Nat) : (bytes n).IgnoresOffset := by
  intro o o' rest
  have hrun (o : Nat) : (bytes n).run ⟨o, rest⟩ = if (rest.take n).length < n then
      .error (.truncated o (n - (rest.take n).length))
      else .ok (rest.take n, ⟨o + n, rest.drop n⟩) := rfl
  rw [hrun, hrun]
  split
  · exact .error rfl
  · exact .ok _ _ _ _

theorem IgnoresOffset.bind {x : Decoder α} {f : α → Decoder β} (hx : x.IgnoresOffset)
    (hf : ∀ a, (f a).IgnoresOffset) : (x >>= f).IgnoresOffset := by
  intro o o' rest
  have hrun (c : Cursor) : (x >>= f).run c = x.run c >>= fun s => (f s.1).run s.2 := rfl
  rw [hrun, hrun]
  have h := hx o o' rest
  generalize x.run ⟨o, rest⟩ = y, x.run ⟨o', rest⟩ = y' at h
  cases h with
  | ok a o o' rest => exact hf a o o' rest
  | error h => exact .error h

/-- A check looks at values only. -/
theorem IgnoresOffset.guard {P : Prop} [Decidable P] {e : FormatError} {k : Unit → Decoder α}
    (hk : (k ()).IgnoresOffset) :
    (if P then throw e >>= k else k () : Decoder α).IgnoresOffset := by
  intro o o' rest
  split
  · exact .error rfl
  · exact hk o o' rest

theorem ignoresOffset_nat (n : Nat) : (nat n).IgnoresOffset :=
  (ignoresOffset_bytes n).bind fun b => ignoresOffset_pure (Bytes.toNat b)

theorem ignoresOffset_u32 : u32.IgnoresOffset := ignoresOffset_nat 4

theorem ignoresOffset_i64 : i64.IgnoresOffset :=
  (ignoresOffset_bytes 8).bind fun b => ignoresOffset_pure (Bytes.toInt b)

end Decoder

namespace Header

open Decoder

theorem ignoresOffset_decode : decode.IgnoresOffset := by
  dsimp only [decode]
  apply ignoresOffset_u32.bind; intro fieldSize
  apply (ignoresOffset_nat fieldSize).bind; intro prime
  apply IgnoresOffset.guard
  apply ignoresOffset_u32.bind; intro wireCount
  apply ignoresOffset_u32.bind; intro outputCount
  apply ignoresOffset_u32.bind; intro publicCount
  apply ignoresOffset_u32.bind; intro privateCount
  apply ignoresOffset_i64.bind; intro labelCount
  apply ignoresOffset_u32.bind; intro constraintCount
  apply IgnoresOffset.guard
  exact ignoresOffset_pure _

theorem ignoresOffset_decodeTerms (h : Header) (constraint count : Nat) (l : LinearCombination) :
    (h.decodeTerms constraint count l).IgnoresOffset := by
  induction count generalizing l with
  | zero => exact ignoresOffset_pure l
  | succ count ih =>
    rw [decodeTerms]
    apply ignoresOffset_u32.bind; intro wire
    apply (ignoresOffset_nat h.fieldSize).bind; intro coefficient
    apply IgnoresOffset.guard
    apply IgnoresOffset.guard
    apply IgnoresOffset.guard
    exact ih _

theorem ignoresOffset_decodeCombination (h : Header) (constraint : Nat) :
    (h.decodeCombination constraint).IgnoresOffset :=
  ignoresOffset_u32.bind fun count => h.ignoresOffset_decodeTerms constraint count .empty

theorem ignoresOffset_decodeConstraints (h : Header) (index count : Nat) :
    (h.decodeConstraints index count).IgnoresOffset := by
  induction count generalizing index with
  | zero => exact ignoresOffset_pure []
  | succ count ih =>
    rw [decodeConstraints]
    apply (h.ignoresOffset_decodeCombination index).bind; intro a
    apply (h.ignoresOffset_decodeCombination index).bind; intro b
    apply (h.ignoresOffset_decodeCombination index).bind; intro c
    apply (ih (index + 1)).bind; intro rest
    exact ignoresOffset_pure _

end Header

section Outcome

variable {ε δ α β : Type}

/-- Two computations with the same outcome up to a change of errors have it in front of others. -/
theorem mapError_bind_congr {f : ε → δ} {x x' : Except ε α} {g g' : α → Except ε β}
    (hx : x.mapError f = x'.mapError f) (hg : ∀ a, (g a).mapError f = (g' a).mapError f) :
    (x.bind g).mapError f = (x'.bind g').mapError f := by
  cases x with
  | error e =>
    cases x' with
    | error e' => exact congrArg Except.error (Except.error.inj hx)
    | ok a' => cases hx
  | ok a =>
    cases x' with
    | error e' => cases hx
    | ok a' =>
      obtain rfl := Except.ok.inj hx
      exact hg a

end Outcome

/-- What a run of a decoder comes to, up to offsets. -/
theorem Decoder.SameRun.mapError {α : Type} {x x' : Except FormatError (α × Cursor)}
    (h : SameRun x x') :
    ((x.map Prod.fst).mapError ParseError.format).mapError ParseError.forgetOffset =
      ((x'.map Prod.fst).mapError ParseError.format).mapError ParseError.forgetOffset := by
  cases h with
  | ok => rfl
  | error h => exact congrArg (fun e => Except.error (ParseError.format e)) h

namespace Container

/-- Two containers that hold the same header and the same constraints, wherever they stand. -/
def SamePayloads (k k' : Container) : Prop :=
  ∀ t, t = 1 ∨ t = 2 →
    (k.sections.get? t).map Section.payload = (k'.sections.get? t).map Section.payload

variable {k k' : Container}

theorem SamePayloads.header (h : SamePayloads k k') :
    k.header.mapError ParseError.forgetOffset = k'.header.mapError ParseError.forgetOffset := by
  have hget := h 1 (.inl rfl)
  change Option.map _ (k.sections.get? SectionKind.header.type) =
    Option.map _ (k'.sections.get? SectionKind.header.type) at hget
  rw [Container.header, Container.header]
  cases hs : k.sections.get? SectionKind.header.type with
  | none =>
    rw [hs] at hget
    rw [Option.map_eq_none_iff.1 hget.symm]
  | some s =>
    rw [hs] at hget
    obtain ⟨s', hs', hpayload⟩ := Option.map_eq_some_iff.1 hget.symm
    rw [hs']
    dsimp only
    rw [hpayload]
    exact (Header.ignoresOffset_decode s.offset s'.offset s.payload).mapError

theorem SamePayloads.constraints (h : SamePayloads k k') (header : Header) :
    (k.constraints header).outcome.mapError ParseError.forgetOffset =
      (k'.constraints header).outcome.mapError ParseError.forgetOffset := by
  have hget := h 2 (.inr rfl)
  change Option.map _ (k.sections.get? SectionKind.constraints.type) =
    Option.map _ (k'.sections.get? SectionKind.constraints.type) at hget
  rw [Container.constraints, Container.constraints]
  cases hs : k.sections.get? SectionKind.constraints.type with
  | none =>
    rw [hs] at hget
    rw [Option.map_eq_none_iff.1 hget.symm]
  | some s =>
    rw [hs] at hget
    obtain ⟨s', hs', hpayload⟩ := Option.map_eq_some_iff.1 hget.symm
    rw [hs']
    dsimp only
    rw [hpayload]
    have hsame := header.ignoresOffset_decodeConstraints 0 header.constraintCount s.offset s'.offset
      s.payload
    generalize (header.decodeConstraints 0 header.constraintCount).run ⟨s.offset, s.payload⟩ = x,
      (header.decodeConstraints 0 header.constraintCount).run ⟨s'.offset, s.payload⟩ = x' at hsame ⊢
    cases hsame with
    | ok => rfl
    | error h => exact congrArg (fun e => Except.error (ParseError.format e)) h

/-- Nothing else of a container is read. -/
theorem SamePayloads.circuit (h : SamePayloads k k') :
    k.circuit.outcome.mapError ParseError.forgetOffset =
      k'.circuit.outcome.mapError ParseError.forgetOffset := by
  rw [Container.circuit, Container.circuit, Logged.outcome_bind, Logged.outcome_bind]
  apply mapError_bind_congr h.header
  intro header
  rw [Logged.outcome_bind, Logged.outcome_bind]
  exact mapError_bind_congr (h.constraints header) fun cs => rfl

end Container

end CircuitTrace
