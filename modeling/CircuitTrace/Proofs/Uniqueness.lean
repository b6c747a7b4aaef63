import CircuitTrace.Proofs.Forcing

namespace CircuitTrace

namespace Witness

variable {k : Circuit} {w : Witness} {p : Nat}

theorem value_ofValues (p : Nat) (w : Witness) (wire : Nat) :
    (ofValues p w.values).value wire = Residue.reduce p (w.value wire) := by
  rw [value, value, ofValues, List.getD_eq_getElem?_getD, List.getElem?_map,
    List.getD_eq_getElem?_getD]
  cases w.values[wire]? with
  | none => exact (Nat.zero_mod p).symm
  | some v => rfl

theorem check_ofValues (hk : k.WellFormed) (h : w.check k = .ok ()) :
    (ofValues k.prime w.values).check k = .ok () := by
  obtain ⟨hsize, hone, hresiduals⟩ := check_eq_ok_iff.1 h
  apply check_eq_ok_iff.2
  refine ⟨by simpa [size, ofValues] using hsize, ?_, ?_⟩
  · rw [value_ofValues, hone]
    exact Nat.mod_eq_of_lt hk.one_lt_prime
  · intro c hc
    rw [residual_eq_zero_iff hk.prime_pos]
    simp only [value_ofValues, Residue.cast_reduce]
    exact (residual_eq_zero_iff hk.prime_pos c).1 (hresiduals c hc)

theorem eq_of_value {w' : Witness} (hsize : w.size = w'.size)
    (h : ∀ wire < w.size, w.value wire = w'.value wire) : w = w' := by
  apply congrArg Witness.mk
  apply List.ext_getElem hsize
  intro wire hlt hlt'
  simpa [value, hlt, hlt'] using h wire hlt

end Witness

namespace Solver

variable {s : Solver} {inputs : List Nat}

section Last

variable {b : Assignment s.circuit.wireCount} {w : Witness}

/-- All solutions are the one that a complete assignment of forced values holds. -/
theorem ofValues_eq_of_forced (hk : s.circuit.WellFormed) (hknown : b.unknownCount = 0)
    (hregular : s.Regular b) (hforced : s.Forced inputs b) (hw : s.circuit.Solves inputs w) :
    Witness.ofValues s.circuit.prime w.values = ⟨b.values⟩ := by
  obtain ⟨hsize, -, -⟩ := Witness.check_eq_ok_iff.1 hw.check
  have hlen : (Witness.ofValues s.circuit.prime w.values).size = s.circuit.wireCount := by
    simpa [Witness.size, Witness.ofValues] using hsize
  apply Witness.eq_of_value
  · rw [hlen]
    exact Assignment.length_values.symm
  · intro wire hwire
    have hb := Assignment.holds_mk_values hknown wire (hlen ▸ hwire)
    have heq := hforced _ (hw.solution hk) wire _ hb
    have hlt := hregular.reduced wire _ hb
    rw [Witness.value_ofValues, ← Nat.mod_eq_of_lt hlt]
    exact Residue.reduce_eq_reduce_iff.2 heq

/-- Whatever is regular is its own reduced form. -/
theorem ofValues_eq_of_regular (hregular : s.Regular b) :
    Witness.ofValues s.circuit.prime b.values = ⟨b.values⟩ := by
  apply Witness.eq_of_value
  · simp [Witness.size, Witness.ofValues]
  · intro wire _
    rw [Witness.value_ofValues s.circuit.prime ⟨b.values⟩, Assignment.value_mk_values]
    cases hb : b.get? wire with
    | none => exact Nat.zero_mod _
    | some v => exact Nat.mod_eq_of_lt (hregular.reduced wire v hb)

end Last

/-- A witness that some run of a solver comes to. -/
def Yields (s : Solver) (inputs : List Nat) (w : Witness) : Prop :=
  (∃ path, (s.solve inputs).outcome = .ok (w, path)) ∨ ∃ path, s.replay inputs path = .ok w

/-- A witness is the only one with given inputs, up to multiples of the modulus, and all that any
run can come to. -/
structure Determines (s : Solver) (inputs : List Nat) (w : Witness) : Prop where
  solves : s.circuit.Solves inputs w
  only : ∀ w', s.circuit.Solves inputs w' → Witness.ofValues s.circuit.prime w'.values = w
  yields : ∀ w', s.Yields inputs w' → w' = w

/-- The last assignment of a run without gadgets, from whichever path. -/
structure Last (s : Solver) (inputs : List Nat) (b : Assignment s.circuit.wireCount) : Prop where
  known : b.unknownCount = 0
  regular : s.Regular b
  answers : ∀ w, s.finish b = .ok w → s.circuit.Answers inputs w

theorem last_of_reaches (hk : s.circuit.WellFormed) (hnone : s.gadgets = [])
    {a : Assignment s.circuit.wireCount} {q : Point s.circuit.wireCount}
    (hstart : s.start inputs = .ok a) (hreaches : s.Reaches (s.opening a) q)
    (hknown : q.assignment.unknownCount = 0) : s.Last inputs q.assignment where
  known := hknown
  regular :=
    hreaches.regular hk hnone (s.within_opening a) ((started_of_start hk hstart).regular hk)
  answers w hfinish := by
    have hextends := hreaches.extends (by simp [hnone]) (s.within_opening a)
    exact (answers_of_finish hk hstart hextends hknown hfinish).1

theorem last_of_followAll (hk : s.circuit.WellFormed) (hprime : s.circuit.prime.Prime)
    (hnone : s.gadgets = []) {a b : Assignment s.circuit.wireCount}
    (hstart : s.start inputs = .ok a) {path : Path}
    (hfollow : s.followAll s.equations path.steps a = .ok b) (hknown : b.unknownCount = 0) :
    s.Last inputs b ∧ (s.PlainPath inputs path → s.Forced inputs b) := by
  have hwhole : s.followAll s.equations (path.steps.take path.steps.length) a = .ok b := by
    rwa [List.take_length]
  obtain ⟨hregular, hforced⟩ := regular_and_forced_of_followAll hk hprime hnone hstart hwhole
  refine ⟨⟨hknown, hregular, ?_⟩, hforced⟩
  intro w hfinish
  have hextends := extends_foldlM_follow (by simp [hnone]) hfollow
  exact (answers_of_finish hk hstart hextends hknown hfinish).1

theorem exists_last_of_yields (hk : s.circuit.WellFormed) (hprime : s.circuit.prime.Prime)
    (hnone : s.gadgets = []) {w : Witness} (h : s.Yields inputs w) :
    ∃ b, s.Last inputs b ∧ s.finish b = .ok w := by
  rcases h with ⟨path, h⟩ | ⟨path, h⟩
  · obtain ⟨a, q, hstart, hreaches, hknown, hfinish⟩ := exists_reaches_of_solve h
    exact ⟨_, last_of_reaches hk hnone hstart hreaches hknown, hfinish⟩
  · obtain ⟨a, b, hstart, hfollow, hknown, hfinish⟩ := exists_followAll_of_replay h
    exact ⟨b, (last_of_followAll hk hprime hnone hstart hfollow hknown).1, hfinish⟩

/-- What the final check says of forced values holds of all values. -/
theorem Last.decides (hk : s.circuit.WellFormed) (hprime : s.circuit.prime.Prime)
    (hnone : s.gadgets = []) {b : Assignment s.circuit.wireCount} (hb : s.Last inputs b)
    (hforced : s.Forced inputs b) :
    (∀ w, s.finish b = .ok w → s.Determines inputs w) ∧
      ∀ error, s.finish b = .error error → ∀ w, ¬s.circuit.Solves inputs w := by
  constructor
  · intro w hfinish
    have hsolves := (hb.answers w hfinish).solves
    obtain ⟨rfl, -⟩ := finish_eq_ok_iff.1 hfinish
    have honly : ∀ w', s.circuit.Solves inputs w' →
        Witness.ofValues s.circuit.prime w'.values = ⟨b.values⟩ :=
      fun w' hw' => ofValues_eq_of_forced hk hb.known hb.regular hforced hw'
    refine ⟨hsolves, honly, ?_⟩
    intro w' hw'
    obtain ⟨b', hlast, hfinish'⟩ := exists_last_of_yields hk hprime hnone hw'
    have hsolves' := (hlast.answers w' hfinish').solves
    obtain ⟨rfl, -⟩ := finish_eq_ok_iff.1 hfinish'
    rw [← ofValues_eq_of_regular hlast.regular]
    exact honly _ hsolves'
  · intro error hfinish w hw
    have hcheck := Witness.check_ofValues hk hw.check
    rw [ofValues_eq_of_forced hk hb.known hb.regular hforced hw] at hcheck
    have hok : s.finish b = .ok ⟨b.values⟩ := finish_eq_ok_iff.2 ⟨rfl, hcheck⟩
    rw [hok] at hfinish
    cases hfinish

/-- Let the modulus be a prime and let there be no gadgets. When no elimination of a run is from a
residual with a square next to another term, the outcome decides the circuit for the inputs: a
witness is the only one, and if the final check fails then there is none. -/
theorem determines_or_not_solves_of_plain {bytes : Bytes}
    (hparse : (Circuit.parse bytes).outcome = .ok s.circuit) (hprime : s.circuit.prime.Prime)
    (hnone : s.gadgets = []) (inputs : List Nat) :
    ((∀ event ∈ (s.solve inputs).events, event.Plain) →
      (∀ w path, (s.solve inputs).outcome = .ok (w, path) → s.Determines inputs w) ∧
      ∀ error, (s.solve inputs).outcome = .error (.witness error) →
        ∀ w, ¬s.circuit.Solves inputs w) ∧
    ∀ path, s.PlainPath inputs path →
      (∀ w, s.replay inputs path = .ok w → s.Determines inputs w) ∧
      ∀ error, s.replay inputs path = .error (.witness error) →
        ∀ w, ¬s.circuit.Solves inputs w := by
  have hk : s.circuit.WellFormed := Circuit.wellFormed_of_parse hparse
  constructor
  · intro hplain
    rcases solve_cases s inputs with ⟨error, herror, hbefore⟩ |
      ⟨a, q, hstart, hreaches, hknown, houtcome, hlog⟩
    · rw [herror]
      constructor
      · intro w path h
        cases h
      · intro error' h
        obtain rfl := Except.error.inj h
        exact absurd hbefore id
    · have hstarted := started_of_start hk hstart
      have hforced := hreaches.forced hk hprime hnone (s.within_opening a) (hstarted.regular hk)
        hstarted.forced fun event hevent => hplain event (hlog event hevent)
      obtain ⟨hok, herror⟩ :=
        (last_of_reaches hk hnone hstart hreaches hknown).decides hk hprime hnone hforced
      rw [← houtcome] at hok herror
      refine ⟨?_, ?_⟩
      · intro w path h
        exact hok w (by rw [h]; rfl)
      · intro error h
        exact herror _ (by rw [h]; rfl)
  · intro path hplain
    rcases replay_cases s inputs path with ⟨error, herror, hbefore⟩ |
      ⟨a, b, hstart, hfollow, hknown, houtcome⟩
    · rw [herror]
      constructor
      · intro w h
        cases h
      · intro error' h
        obtain rfl := Except.error.inj h
        exact absurd hbefore id
    · obtain ⟨hlast, hforced⟩ := last_of_followAll hk hprime hnone hstart hfollow hknown
      obtain ⟨hok, herror⟩ := hlast.decides hk hprime hnone (hforced hplain)
      rw [houtcome]
      exact ⟨hok, fun error => herror _⟩

/-- Wire 4 is the product of the inputs, wire 1 is one more, the square of wire 5 is zero, and the
public input must be five. -/
def fiveTimes : Solver where
  circuit := {
    fieldSize := 1
    prime := 97
    wireCount := 6
    outputCount := 1
    publicCount := 1
    privateCount := 1
    labelCount := 6
    constraints :=
      [⟨.ofList [(4, 1), (0, 1)], .ofList [(0, 1)], .ofList [(1, 1)]⟩,
        ⟨.ofList [(2, 1)], .ofList [(3, 1)], .ofList [(4, 1)]⟩,
        ⟨.ofList [(5, 1)], .ofList [(5, 1)], .ofList [(0, 0)]⟩,
        ⟨.ofList [(2, 1)], .ofList [(0, 1)], .ofList [(0, 5)]⟩] }
  gadgets := []

/-- With the public input five a search and a replay each have the only answer, and a search with
the public input six shows that there is none. -/
theorem determines_or_not_solves_of_plain_fiveTimes :
    fiveTimes.Determines [5, 100] ⟨[1, 16, 5, 3, 15, 0]⟩ ∧
      fiveTimes.Determines [5, 7] ⟨[1, 36, 5, 7, 35, 0]⟩ ∧
      ∀ w, ¬fiveTimes.circuit.Solves [6, 3] w := by
  have hparse : (Circuit.parse fiveTimes.circuit.encode).outcome = .ok fiveTimes.circuit := by
    decide +kernel
  have hprime : fiveTimes.circuit.prime.Prime := by
    change Nat.Prime 97
    norm_num
  obtain ⟨hsearch, -⟩ := determines_or_not_solves_of_plain hparse hprime rfl [5, 100]
  obtain ⟨-, hreplay⟩ := determines_or_not_solves_of_plain hparse hprime rfl [5, 7]
  obtain ⟨hsix, -⟩ := determines_or_not_solves_of_plain hparse hprime rfl [6, 3]
  obtain ⟨⟨w, path⟩, hsolve, rfl⟩ : ∃ r, (fiveTimes.solve [5, 100]).outcome = .ok r ∧
      r.1 = ⟨[1, 16, 5, 3, 15, 0]⟩ := by
    decide +kernel
  refine ⟨(hsearch (by decide +kernel)).1 _ path hsolve, ?_, ?_⟩
  · let steps : List Step := [.eliminate 2 5, .eliminate 1 4, .eliminate 0 1]
    let path : Path := ⟨fiveTimes.circuit.fingerprint, steps⟩
    have hplain : fiveTimes.PlainPath [5, 7] path := by
      decide +kernel
    obtain ⟨a, hstart, b, hfollow, hknown, hfinish⟩ : ∃ a, fiveTimes.start [5, 7] = .ok a ∧
        ∃ b, fiveTimes.followAll fiveTimes.equations steps a = .ok b ∧ b.unknownCount = 0 ∧
          fiveTimes.finish b = .ok ⟨[1, 36, 5, 7, 35, 0]⟩ := by
      decide +kernel
    have h : fiveTimes.replay [5, 7] path = fiveTimes.finish b :=
      replay_eq_finish rfl hstart hfollow hknown
    exact (hreplay path hplain).1 _ (h.trans hfinish)
  · exact (hsix (by decide +kernel)).2 (.violated 3) (by decide +kernel)

end Solver

end CircuitTrace
