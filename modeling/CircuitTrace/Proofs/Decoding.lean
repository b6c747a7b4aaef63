import CircuitTrace.Proofs.Bytes
import CircuitTrace.Proofs.Inversion

/-!
Decoders and the formats they read. A format relates byte strings to the values that they stand
for; a decoder accepts a format when it comes to a result exactly behind a byte string of the
format, whatever stands behind that.
-/
namespace CircuitTrace

namespace Cursor

variable {c c' : Cursor} {b b' : Bytes}

/-- Between two cursors lies a byte string. -/
def Over (c : Cursor) (b : Bytes) (c' : Cursor) : Prop :=
  c.rest = b ++ c'.rest ∧ c'.offset = c.offset + b.length

theorem over_append_iff : c.Over (b ++ b') c' ↔ ∃ d, c.Over b d ∧ d.Over b' c' := by
  constructor
  · rintro ⟨hrest, hoffset⟩
    refine ⟨⟨c.offset + b.length, b' ++ c'.rest⟩, ⟨?_, rfl⟩, rfl, ?_⟩
    · rw [hrest, List.append_assoc]
    · rw [hoffset, List.length_append, Nat.add_assoc]
  · rintro ⟨d, ⟨hrest, hoffset⟩, hrest', hoffset'⟩
    refine ⟨?_, ?_⟩
    · rw [hrest, hrest', List.append_assoc]
    · rw [hoffset', hoffset, List.length_append, Nat.add_assoc]

theorem over_nil_iff : c.Over [] c' ↔ c' = c := by
  constructor
  · rintro ⟨hrest, hoffset⟩
    cases c
    cases c'
    simp_all
  · rintro rfl
    exact ⟨rfl, rfl⟩

end Cursor

namespace Decoder

variable {α β : Type} {F : Bytes → α → Prop}

/-- A decoder reads exactly the byte strings of a format. -/
def Accepts (d : Decoder α) (F : Bytes → α → Prop) : Prop :=
  ∀ c a c', d.run c = .ok (a, c') ↔ ∃ b, F b a ∧ c.Over b c'

theorem Accepts.congr {d : Decoder α} {G : Bytes → α → Prop} (h : d.Accepts F)
    (hFG : ∀ b a, F b a ↔ G b a) : d.Accepts G := by
  intro c a c'
  rw [h]
  simp only [hFG]

theorem accepts_pure (x : α) : (pure x : Decoder α).Accepts fun b a => b = [] ∧ a = x := by
  intro c a c'
  have hrun : (pure x : Decoder α).run c = .ok (x, c) := rfl
  rw [hrun]
  constructor
  · intro h
    cases h
    exact ⟨[], ⟨rfl, rfl⟩, Cursor.over_nil_iff.2 rfl⟩
  · rintro ⟨b, ⟨rfl, rfl⟩, hover⟩
    rw [Cursor.over_nil_iff.1 hover]

/-- One decoder behind another reads one format behind the other. -/
theorem Accepts.bind {x : Decoder α} {f : α → Decoder β} {G : α → Bytes → β → Prop}
    (hx : x.Accepts F) (hf : ∀ a, (f a).Accepts (G a)) :
    (x >>= f).Accepts fun b r => ∃ a b₁ b₂, F b₁ a ∧ G a b₂ r ∧ b = b₁ ++ b₂ := by
  intro c r c'
  rw [bind_run_eq_ok_iff]
  constructor
  · rintro ⟨a, d, ha, hr⟩
    obtain ⟨b₁, hF, hover₁⟩ := (hx _ _ _).1 ha
    obtain ⟨b₂, hG, hover₂⟩ := (hf a _ _ _).1 hr
    exact ⟨b₁ ++ b₂, ⟨a, b₁, b₂, hF, hG, rfl⟩, Cursor.over_append_iff.2 ⟨d, hover₁, hover₂⟩⟩
  · rintro ⟨b, ⟨a, b₁, b₂, hF, hG, rfl⟩, hover⟩
    obtain ⟨d, hover₁, hover₂⟩ := Cursor.over_append_iff.1 hover
    exact ⟨a, d, (hx _ _ _).2 ⟨b₁, hF, hover₁⟩, (hf a _ _ _).2 ⟨b₂, hG, hover₂⟩⟩

/-- Where each value has one byte string, that string stands in front. -/
theorem Accepts.bind_encoding {x : Decoder α} {V : α → Prop} {e : α → Bytes} {f : α → Decoder β}
    {G : α → Bytes → β → Prop} (hx : x.Accepts fun b a => V a ∧ b = e a)
    (hf : ∀ a, (f a).Accepts (G a)) :
    (x >>= f).Accepts fun b r => ∃ a b', V a ∧ G a b' r ∧ b = e a ++ b' := by
  refine (hx.bind hf).congr ?_
  intro b r
  constructor
  · rintro ⟨a, _, b', ⟨hV, rfl⟩, hG, rfl⟩
    exact ⟨a, b', hV, hG, rfl⟩
  · rintro ⟨a, b', hV, hG, rfl⟩
    exact ⟨a, e a, b', ⟨hV, rfl⟩, hG, rfl⟩

/-- A check in front of a decoder narrows its format. -/
theorem Accepts.guard {P : Prop} [Decidable P] {e : FormatError} {k : Unit → Decoder α}
    (hk : (k ()).Accepts F) :
    (if P then throw e >>= k else k ()).Accepts fun b a => ¬P ∧ F b a := by
  intro c a c'
  split
  · rename_i hP
    constructor
    · intro h
      cases h
    · rintro ⟨b, ⟨hnot, -⟩, -⟩
      exact absurd hP hnot
  · rename_i hP
    rw [hk]
    simp [hP]

/-- From the start of a byte string a decoder comes to a result exactly when the string starts with
one of its format. -/
theorem Accepts.exists_run_iff {d : Decoder α} (h : d.Accepts F) (o : Nat) (bytes : Bytes) (a : α) :
    (∃ c', d.run ⟨o, bytes⟩ = .ok (a, c')) ↔ ∃ b, F b a ∧ b <+: bytes := by
  constructor
  · rintro ⟨c', hrun⟩
    obtain ⟨b, hF, hrest, -⟩ := (h _ _ _).1 hrun
    exact ⟨b, hF, c'.rest, hrest.symm⟩
  · rintro ⟨b, hF, rest, rfl⟩
    exact ⟨⟨o + b.length, rest⟩, (h _ _ _).2 ⟨b, hF, rfl, rfl⟩⟩

theorem accepts_bytes (n : Nat) : (bytes n).Accepts fun b a => b.length = n ∧ a = b := by
  intro c a c'
  have hrun : (bytes n).run c = if (c.rest.take n).length < n then
      .error (.truncated c.offset (n - (c.rest.take n).length))
      else .ok (c.rest.take n, ⟨c.offset + n, c.rest.drop n⟩) := rfl
  rw [hrun]
  constructor
  · intro h
    split at h
    · cases h
    · rename_i hlen
      cases h
      have hn : (c.rest.take n).length = n := by
        have := List.length_take_le n c.rest
        omega
      exact ⟨c.rest.take n, ⟨hn, rfl⟩, (List.take_append_drop n c.rest).symm, by rw [hn]⟩
  · rintro ⟨b, ⟨rfl, rfl⟩, hrest, hoffset⟩
    cases c'
    simp_all

theorem accepts_nat (n : Nat) : (nat n).Accepts fun b v => v < 256 ^ n ∧ b = Bytes.ofNat n v := by
  have hmap : nat n = bytes n >>= fun b => pure (Bytes.toNat b) := rfl
  rw [hmap]
  refine ((accepts_bytes n).bind fun b => accepts_pure (Bytes.toNat b)).congr ?_
  intro b v
  constructor
  · rintro ⟨b₁, b₂, b₃, ⟨rfl, rfl⟩, ⟨rfl, rfl⟩, rfl⟩
    rw [List.append_nil]
    exact ⟨Bytes.toNat_lt _, (Bytes.ofNat_toNat _).symm⟩
  · rintro ⟨hv, rfl⟩
    exact ⟨_, _, [], ⟨Bytes.length_ofNat n v, rfl⟩, ⟨rfl, (Bytes.toNat_ofNat_of_lt hv).symm⟩,
      (List.append_nil _).symm⟩

theorem accepts_u32 : u32.Accepts fun b v => v < 2 ^ 32 ∧ b = Bytes.ofNat 4 v := accepts_nat 4

theorem accepts_i64 : i64.Accepts fun b i => Bytes.FitsInt 8 i ∧ b = Bytes.ofInt 8 i := by
  have hmap : i64 = bytes 8 >>= fun b => pure (Bytes.toInt b) := rfl
  rw [hmap]
  refine ((accepts_bytes 8).bind fun b => accepts_pure (Bytes.toInt b)).congr ?_
  intro b i
  constructor
  · rintro ⟨b₁, b₂, b₃, ⟨hlen, rfl⟩, ⟨rfl, rfl⟩, rfl⟩
    rw [List.append_nil, ← hlen]
    exact ⟨Bytes.fitsInt_toInt _, (Bytes.ofInt_toInt _).symm⟩
  · rintro ⟨hi, rfl⟩
    exact ⟨_, _, [], ⟨Bytes.length_ofInt 8 i, rfl⟩, ⟨rfl, (Bytes.toInt_ofInt hi).symm⟩,
      (List.append_nil _).symm⟩

end Decoder

end CircuitTrace
