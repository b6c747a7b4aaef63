import CircuitTrace.Proofs.Bytes

/-!
Encodings that show where they end: whatever stands behind an encoded value, the value and what
stands behind it can be told. Such encodings are put together from fields of a fixed width, from
byte strings behind their length and from lists behind their number of elements.
-/
namespace CircuitTrace

variable {α β : Type} {V : α → Prop} {W : β → Prop} {e : α → Bytes} {f : β → Bytes}

/-- No two of the admitted values have encodings of which one is the start of the other. -/
def SelfDelimiting (V : α → Prop) (e : α → Bytes) : Prop :=
  ∀ ⦃a a' : α⦄ ⦃r r' : Bytes⦄, V a → V a' → e a ++ r = e a' ++ r' → a = a' ∧ r = r'

namespace SelfDelimiting

theorem injOn (h : SelfDelimiting V e) {a b : α} (ha : V a) (hb : V b) (heq : e a = e b) : a = b :=
  (h ha hb (congrArg (· ++ []) heq)).1

theorem mono {V' : α → Prop} (h : SelfDelimiting V e) (hV : ∀ a, V' a → V a) :
    SelfDelimiting V' e :=
  fun _ _ _ _ ha ha' => h (hV _ ha) (hV _ ha')

/-- What determines a value may be encoded in its place. -/
theorem comp (h : SelfDelimiting V e) {g : β → α} (hg : Function.Injective g) :
    SelfDelimiting (fun b => V (g b)) fun b => e (g b) := by
  intro b b' r r' hb hb' heq
  obtain ⟨hvalue, hrest⟩ := h hb hb' heq
  exact ⟨hg hvalue, hrest⟩

theorem append (h : SelfDelimiting V e) (h' : SelfDelimiting W f) :
    SelfDelimiting (fun x : α × β => V x.1 ∧ W x.2) fun x => e x.1 ++ f x.2 := by
  rintro ⟨a, b⟩ ⟨a', b'⟩ r r' ⟨ha, hb⟩ ⟨ha', hb'⟩ heq
  rw [List.append_assoc, List.append_assoc] at heq
  obtain ⟨rfl, heq⟩ := h ha ha' heq
  obtain ⟨rfl, hrest⟩ := h' hb hb' heq
  exact ⟨rfl, hrest⟩

/-- Of lists it has to be known how long they are. -/
theorem flatMap (h : SelfDelimiting V e) (n : Nat) :
    SelfDelimiting (fun l : List α => l.length = n ∧ ∀ a ∈ l, V a) (List.flatMap e) := by
  induction n with
  | zero =>
    rintro l l' r r' ⟨hlen, -⟩ ⟨hlen', -⟩ heq
    obtain rfl := List.eq_nil_of_length_eq_zero hlen
    obtain rfl := List.eq_nil_of_length_eq_zero hlen'
    exact ⟨rfl, heq⟩
  | succ n ih =>
    rintro l l' r r' ⟨hlen, hl⟩ ⟨hlen', hl'⟩ heq
    obtain ⟨a, l, rfl⟩ := List.exists_cons_of_length_eq_add_one hlen
    obtain ⟨a', l', rfl⟩ := List.exists_cons_of_length_eq_add_one hlen'
    obtain ⟨ha, hrest⟩ := List.forall_mem_cons.1 hl
    obtain ⟨ha', hrest'⟩ := List.forall_mem_cons.1 hl'
    rw [List.flatMap_cons, List.flatMap_cons, List.append_assoc, List.append_assoc] at heq
    obtain ⟨rfl, htail⟩ := h ha ha' heq
    obtain ⟨rfl, hbehind⟩ := ih ⟨Nat.succ.inj hlen, hrest⟩ ⟨Nat.succ.inj hlen', hrest'⟩ htail
    exact ⟨rfl, hbehind⟩

end SelfDelimiting

namespace Bytes

theorem selfDelimiting_ofNat (n : Nat) : SelfDelimiting (· < 256 ^ n) (ofNat n) :=
  fun _ _ _ _ => ofNat_append_inj

theorem selfDelimiting_withLength :
    SelfDelimiting (fun b : Bytes => b.length < 2 ^ 64) withLength := by
  intro b b' r r' hb hb' heq
  rw [withLength, withLength, List.append_assoc, List.append_assoc] at heq
  obtain ⟨hlength, heq⟩ := selfDelimiting_ofNat 8 hb hb' heq
  exact List.append_inj heq hlength

/-- A list behind the number of its elements. -/
theorem selfDelimiting_counted (n : Nat) (h : SelfDelimiting V e) :
    SelfDelimiting (fun l : List α => l.length < 256 ^ n ∧ ∀ a ∈ l, V a)
      fun l => ofNat n l.length ++ l.flatMap e := by
  rintro l l' r r' ⟨hlen, hl⟩ ⟨hlen', hl'⟩ heq
  rw [List.append_assoc, List.append_assoc] at heq
  obtain ⟨hlength, heq⟩ := selfDelimiting_ofNat n hlen hlen' heq
  exact h.flatMap l'.length ⟨hlength, hl⟩ ⟨rfl, hl'⟩ heq

theorem toNat_minimal (v : Nat) : (minimal v).toNat = v := by
  fun_induction minimal v with
  | case1 v hv =>
    simp [toNat]
    omega
  | case2 v hv ih =>
    rw [toNat, ih]
    simp
    omega

/-- Zero has a byte of its own, so no two numbers have the same bytes. -/
theorem minimal_injective : Function.Injective minimal :=
  Function.LeftInverse.injective toNat_minimal

/-- A number that fits in a positive width takes no more bytes. -/
theorem length_minimal_le {n v : Nat} (hn : 1 ≤ n) (h : v < 256 ^ n) : (minimal v).length ≤ n := by
  fun_induction minimal v generalizing n with
  | case1 v hv => exact hn
  | case2 v hv ih =>
    obtain ⟨n, rfl⟩ := Nat.exists_eq_add_of_le' hn
    rw [pow_succ] at h
    have hpos : 1 ≤ n := by
      rcases Nat.eq_zero_or_pos n with rfl | hpos
      · omega
      · exact hpos
    have hlow : v / 256 < 256 ^ n := Nat.div_lt_of_lt_mul (by rwa [Nat.mul_comm])
    exact Nat.succ_le_succ (ih hpos hlow)

end Bytes

end CircuitTrace
