import Mathlib
import CircuitTrace.Container.Cursor
import CircuitTrace.Logged

namespace CircuitTrace

section Outcome

variable {ε δ α β : Type}

theorem bind_eq_ok_iff {x : Except ε α} {f : α → Except ε β} {b : β} :
    x >>= f = .ok b ↔ ∃ a, x = .ok a ∧ f a = .ok b := by
  cases x with
  | error e => simp [bind, Except.bind]
  | ok a => simp [bind, Except.bind]

theorem bind_eq_error_iff {x : Except ε α} {f : α → Except ε β} {e : ε} :
    x >>= f = .error e ↔ x = .error e ∨ ∃ a, x = .ok a ∧ f a = .error e := by
  cases x with
  | error d => simp [bind, Except.bind]
  | ok a => simp [bind, Except.bind]

theorem mapError_eq_ok_iff {f : ε → δ} {x : Except ε α} {a : α} :
    x.mapError f = .ok a ↔ x = .ok a := by
  cases x <;> simp [Except.mapError]

theorem mapError_eq_error_iff {f : ε → δ} {x : Except ε α} {d : δ} :
    x.mapError f = .error d ↔ ∃ e, x = .error e ∧ f e = d := by
  cases x <;> simp [Except.mapError]

theorem map_eq_ok_iff {f : α → β} {x : Except ε α} {b : β} :
    x.map f = .ok b ↔ ∃ a, x = .ok a ∧ f a = b := by
  cases x <;> simp [Except.map]

theorem map_eq_error_iff {f : α → β} {x : Except ε α} {e : ε} :
    x.map f = .error e ↔ x = .error e := by
  cases x <;> simp [Except.map]

/-- A check in front of a computation has passed where the computation comes to a result. -/
theorem guard_eq_ok {P : Prop} [Decidable P] {e : ε} {f : Unit → Except ε β} {b : β}
    (h : (if P then throw e >>= f else f ()) = .ok b) : ¬P ∧ f () = .ok b := by
  split at h
  · cases h
  · rename_i hP
    exact ⟨hP, h⟩

/-- A computation behind a check fails with the error of the check or with its own. -/
theorem guard_eq_error {P : Prop} [Decidable P] {d e : ε} {f : Unit → Except ε β}
    (h : (if P then throw e >>= f else f ()) = .error d) : d = e ∨ f () = .error d := by
  split at h
  · exact .inl (Except.error.inj h).symm
  · exact .inr h

/-- Whether a computation comes to a result of a given kind is decided by running it. -/
instance decidableExistsOk (x : Except ε α) (P : α → Prop) [DecidablePred P] :
    Decidable (∃ a, x = .ok a ∧ P a) :=
  match x with
  | .ok a => decidable_of_iff (P a) (by simp)
  | .error _ => isFalse (by simp)

instance decidableForallOk (x : Except ε α) (P : α → Prop) [DecidablePred P] :
    Decidable (∀ a, x = .ok a → P a) :=
  match x with
  | .ok a => decidable_of_iff (P a) (by simp)
  | .error _ => isTrue (by simp)

namespace Logged

theorem outcome_bind_eq_ok_iff {x : Logged ε α} {f : α → Logged ε β} {b : β} :
    (x >>= f).outcome = .ok b ↔ ∃ a, x.outcome = .ok a ∧ (f a).outcome = .ok b := by
  rw [outcome_bind]
  exact bind_eq_ok_iff

theorem outcome_bind_eq_error_iff {x : Logged ε α} {f : α → Logged ε β} {e : ε} :
    (x >>= f).outcome = .error e ↔
      x.outcome = .error e ∨ ∃ a, x.outcome = .ok a ∧ (f a).outcome = .error e := by
  rw [outcome_bind]
  exact bind_eq_error_iff

/-- A check in front of a computation has passed where the computation comes to a result. -/
theorem guard_outcome_eq_ok {P : Prop} [Decidable P] {e : ε} {f : Unit → Logged ε β} {b : β}
    (h : (if P then ofExcept (.error e) >>= f else f ()).outcome = .ok b) :
    ¬P ∧ (f ()).outcome = .ok b := by
  split at h
  · cases h
  · rename_i hP
    exact ⟨hP, h⟩

@[simp] theorem outcome_monadLift (x : Except ε α) :
    (liftM x : Logged ε α).outcome = x := rfl

@[simp] theorem events_monadLift (x : Except ε α) : (liftM x : Logged ε α).events = [] := rfl

theorem bind_of_ok {x : Logged ε α} {a : α} (h : x.outcome = .ok a) (f : α → Logged ε β) :
    x >>= f = ⟨x.events ++ (f a).events, (f a).outcome⟩ := by
  change bind x f = _
  rw [bind, h]

theorem bind_of_error {x : Logged ε α} {e : ε} (h : x.outcome = .error e) (f : α → Logged ε β) :
    x >>= f = ⟨x.events, .error e⟩ := by
  change bind x f = _
  rw [bind, h]

/-- Going on without a report changes the result alone. -/
theorem bind_pure_eq (x : Logged ε α) (f : α → β) :
    (x >>= fun a => pure (f a)) = ⟨x.events, x.outcome.map f⟩ := by
  cases h : x.outcome with
  | ok a =>
    rw [bind_of_ok h]
    exact congrArg (Logged.mk · _) (List.append_nil _)
  | error e =>
    rw [bind_of_error h]
    rfl

theorem bind_pure_bind {γ : Type} (x : Logged ε α) (f : α → β) (g : β → Logged ε γ) :
    ((x >>= fun a => pure (f a)) >>= g) = x >>= fun a => g (f a) := by
  rw [bind_pure_eq]
  cases h : x.outcome with
  | ok a =>
    rw [bind_of_ok h]
    rfl
  | error e =>
    rw [bind_of_error h]
    rfl

theorem emit_bind (e : Event) (f : Unit → Logged ε β) :
    (emit e >>= f) = ⟨e :: (f ()).events, (f ()).outcome⟩ := rfl

end Logged

end Outcome

section Traversal

variable {α ε : Type}

theorem forM_eq_ok_iff (f : α → Except ε Unit) (l : List α) :
    l.forM f = .ok () ↔ ∀ x ∈ l, f x = .ok () := by
  induction l with
  | nil => simp [List.forM, pure, Except.pure]
  | cons x l ih =>
    cases hx : f x with
    | error e => simp [List.forM, hx, bind, Except.bind]
    | ok u => simpa [List.forM, hx, bind, Except.bind] using ih

theorem forM_eq_error {f : α → Except ε Unit} {l : List α} {e : ε} (h : l.forM f = .error e) :
    ∃ i, ∃ hi : i < l.length, f l[i] = .error e ∧ ∀ j, ∀ hj : j < i, f l[j] = .ok () := by
  induction l with
  | nil => simp [List.forM, pure, Except.pure] at h
  | cons x l ih =>
    cases hx : f x with
    | error d =>
      have hd : d = e := by simpa [List.forM, hx, bind, Except.bind] using h
      exact ⟨0, by simp, by simp [hx, hd], by simp⟩
    | ok u =>
      obtain ⟨i, hi, he, hlt⟩ := ih (by simpa [List.forM, hx, bind, Except.bind] using h)
      refine ⟨i + 1, by simpa using hi, by simpa using he, ?_⟩
      intro j hj
      cases j with
      | zero => exact hx
      | succ j => simpa using hlt j (by omega)

/-- A traversal fails with the error of the first element that fails. -/
theorem forM_eq_error_iff {f : α → Except ε Unit} {l : List α} {e : ε} : l.forM f = .error e ↔
    ∃ i, ∃ hi : i < l.length, f l[i] = .error e ∧ ∀ j, ∀ hj : j < i, f l[j] = .ok () := by
  refine ⟨forM_eq_error, ?_⟩
  rintro ⟨i, hi, he, hfirst⟩
  induction l generalizing i with
  | nil => cases hi
  | cons x l ih =>
    cases i with
    | zero =>
      have hx : f x = .error e := he
      simp [List.forM, hx, bind, Except.bind]
    | succ i =>
      have hx : f x = .ok () := hfirst 0 (by omega)
      have hrest := ih i (by simpa using hi) (by simpa using he) fun j hj => by
        simpa using hfirst (j + 1) (by omega)
      simpa [List.forM, hx, bind, Except.bind] using hrest

/-- What holds at first and is kept by every step holds in the end. -/
theorem foldlM_eq_ok_induction {β : Type} {f : β → α → Except ε β} {P : β → Prop} {l : List α}
    {b r : β} (h : l.foldlM f b = .ok r) (hb : P b)
    (hstep : ∀ x ∈ l, ∀ c d, P c → f c x = .ok d → P d) : P r := by
  induction l generalizing b with
  | nil =>
    cases h
    exact hb
  | cons x l ih =>
    rw [List.foldlM_cons] at h
    obtain ⟨c, hc, h⟩ := bind_eq_ok_iff.1 h
    exact ih h (hstep x (by simp) b c hb hc) fun y hy => hstep y (by simp [hy])

/-- A traversal that succeeds has a result for each element, in order. -/
theorem mapM_eq_ok {β : Type} {f : α → Except ε β} {l : List α} {r : List β}
    (h : l.mapM f = .ok r) :
    r.length = l.length ∧ ∀ i (hi : i < l.length) (hr : i < r.length), f l[i] = .ok r[i] := by
  induction l generalizing r with
  | nil =>
    cases h
    simp
  | cons x l ih =>
    rw [List.mapM_cons] at h
    obtain ⟨y, hy, h⟩ := bind_eq_ok_iff.1 h
    obtain ⟨ys, hys, h⟩ := bind_eq_ok_iff.1 h
    cases h
    obtain ⟨hlen, hall⟩ := ih hys
    refine ⟨by simp [hlen], ?_⟩
    intro i hi hr
    cases i with
    | zero => exact hy
    | succ i => simpa using hall i (by simpa using hi) (by simpa using hr)

theorem exists_of_mem_mapM {β : Type} {f : α → Except ε β} {l : List α} {r : List β}
    (h : l.mapM f = .ok r) {y : β} (hy : y ∈ r) : ∃ x ∈ l, f x = .ok y := by
  obtain ⟨hlen, hall⟩ := mapM_eq_ok h
  obtain ⟨i, hi, rfl⟩ := List.mem_iff_getElem.1 hy
  exact ⟨l[i], List.getElem_mem (hlen ▸ hi), hall i (hlen ▸ hi) hi⟩

/-- What is encoded element by element is decoded so. -/
theorem mapM_map_eq_ok {β : Type} {f : β → Except ε α} {g : α → β} {l : List α}
    (h : ∀ x ∈ l, f (g x) = .ok x) : (l.map g).mapM f = .ok l := by
  induction l with
  | nil => rfl
  | cons x l ih =>
    rw [List.map_cons, List.mapM_cons, h x (by simp), ih fun y hy => h y (by simp [hy])]
    rfl

/-- A traversal whose steps each check a condition checks it for all elements. -/
theorem mapM_eq_ok_iff_forall {β : Type} {f : α → Except ε β} {P : α → Prop} {g : α → β}
    (h : ∀ x y, f x = .ok y ↔ P x ∧ g x = y) {l : List α} {r : List β} :
    l.mapM f = .ok r ↔ (∀ x ∈ l, P x) ∧ l.map g = r := by
  induction l generalizing r with
  | nil => simp [pure, Except.pure]
  | cons x l ih =>
    rw [List.mapM_cons, bind_eq_ok_iff, List.forall_mem_cons, List.map_cons]
    constructor
    · rintro ⟨y, hy, hrest⟩
      obtain ⟨ys, hys, hcons⟩ := bind_eq_ok_iff.1 hrest
      obtain ⟨hx, rfl⟩ := (h x y).1 hy
      obtain ⟨hl, rfl⟩ := ih.1 hys
      exact ⟨⟨hx, hl⟩, Except.ok.inj hcons⟩
    · rintro ⟨⟨hx, hl⟩, rfl⟩
      refine ⟨g x, (h x _).2 ⟨hx, rfl⟩, ?_⟩
      rw [ih.2 ⟨hl, rfl⟩]
      rfl

/-- A traversal succeeds where every step does. -/
theorem exists_mapM_eq_ok {β : Type} {f : α → Except ε β} {l : List α}
    (h : ∀ x ∈ l, ∃ y, f x = .ok y) : ∃ r, l.mapM f = .ok r := by
  induction l with
  | nil => exact ⟨[], rfl⟩
  | cons x l ih =>
    obtain ⟨y, hy⟩ := h x (by simp)
    obtain ⟨r, hr⟩ := ih fun z hz => h z (by simp [hz])
    exact ⟨y :: r, by rw [List.mapM_cons, hy, hr]; rfl⟩

end Traversal

namespace Decoder

variable {α β : Type} {c : Cursor} {r : β × Cursor}

theorem bind_run_eq_ok_iff {x : Decoder α} {f : α → Decoder β} :
    (x >>= f).run c = .ok r ↔ ∃ a c', x.run c = .ok (a, c') ∧ (f a).run c' = .ok r := by
  change (x.run c >>= fun s => (f s.1).run s.2) = .ok r ↔ _
  rw [bind_eq_ok_iff]
  simp only [Prod.exists]

/-- A check in front of a decoder has passed where the decoder comes to a result. -/
theorem guard_run_eq_ok {P : Prop} [Decidable P] {e : FormatError} {k : Unit → Decoder β}
    (h : (if P then throw e >>= k else k ()).run c = .ok r) : ¬P ∧ (k ()).run c = .ok r := by
  split at h
  · cases h
  · rename_i hP
    exact ⟨hP, h⟩

end Decoder

end CircuitTrace
