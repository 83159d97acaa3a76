import Mathlib.Init

/-!
# Programs that return early

A program over a state that may end with an error keeps what it did to the state until then.
`Ensures` says what holds where it returns and where it throws, and `Returns` what it returns; there
is a rule of each for every way to build a program.
-/

namespace Lib

variable {ε σ α β : Type}

/-- The program, run in a state, leaves `Q` where it returns and `E` where it throws. -/
def Ensures (x : EStateM ε σ α) (s : σ) (Q : α → σ → Prop) (E : ε → σ → Prop) : Prop :=
  match x.run s with
  | .ok a s' => Q a s'
  | .error e s' => E e s'

namespace Ensures

variable {x : EStateM ε σ α} {s : σ} {Q : α → σ → Prop} {E : ε → σ → Prop}

theorem pure {a : α} (h : Q a s) : Ensures (Pure.pure a : EStateM ε σ α) s Q E := h

theorem bind {f : α → EStateM ε σ β} {Q : β → σ → Prop}
    (h : Ensures x s (fun a s' => Ensures (f a) s' Q E) E) : Ensures (x >>= f) s Q E := by
  unfold Ensures at h ⊢
  rw [EStateM.run_bind]
  rcases hx : x.run s with ⟨a, s'⟩ | ⟨e, s'⟩ <;> rw [hx] at h <;> exact h

theorem get_bind {f : σ → EStateM ε σ β} {Q : β → σ → Prop} (h : Ensures (f s) s Q E) :
    Ensures (get >>= f) s Q E := bind h

theorem modify_bind {g : σ → σ} {f : PUnit → EStateM ε σ β} {Q : β → σ → Prop}
    (h : Ensures (f ⟨⟩) (g s) Q E) : Ensures (modify g >>= f) s Q E := bind h

/-- A step that may fail leaves the state alone. -/
protected theorem ofExcept {r : Except ε α} (herror : ∀ e, r = .error e → E e s)
    (hok : ∀ a, r = .ok a → Q a s) : Ensures (ofExcept r) s Q E := by
  cases r with
  | error e => exact herror e rfl
  | ok a => exact hok a rfl

theorem ofExcept_bind {r : Except ε α} {f : α → EStateM ε σ β} {Q : β → σ → Prop}
    (herror : ∀ e, r = .error e → E e s) (hok : ∀ a, r = .ok a → Ensures (f a) s Q E) :
    Ensures (ofExcept r >>= f) s Q E := by
  cases r with
  | error e => exact herror e rfl
  | ok a => exact hok a rfl

theorem mono {Q' : α → σ → Prop} {E' : ε → σ → Prop} (h : Ensures x s Q E)
    (hQ : ∀ a s', Q a s' → Q' a s') (hE : ∀ e s', E e s' → E' e s') : Ensures x s Q' E' := by
  unfold Ensures at h ⊢
  split at h
  · exact hQ _ _ h
  · exact hE _ _ h

end Ensures

/-- The program, run in a state, returns `a`. -/
def Returns (x : EStateM ε σ α) (s : σ) (a : α) : Prop := ∃ s', x.run s = .ok a s'

namespace Returns

variable {s : σ} {a : α} {b : β}

theorem pure_iff {a' : α} : Returns (Pure.pure a' : EStateM ε σ α) s a ↔ a' = a := by
  constructor
  · rintro ⟨s', h⟩
    cases h
    rfl
  · rintro rfl
    exact ⟨s, rfl⟩

/-- A step that may fail has to return. -/
theorem ofExcept_bind_iff {r : Except ε α} {f : α → EStateM ε σ β} :
    Returns (ofExcept r >>= f) s b ↔ ∃ a, r = .ok a ∧ Returns (f a) s b := by
  rcases r with e | a
  · refine iff_of_false ?_ (by simp)
    rintro ⟨s', h⟩
    cases h
  · simp only [Except.ok.injEq, exists_eq_left']
    exact Iff.rfl

theorem get_bind_iff {f : σ → EStateM ε σ β} : Returns (get >>= f) s b ↔ Returns (f s) s b :=
  Iff.rfl

theorem modify_bind_iff {g : σ → σ} {f : PUnit → EStateM ε σ β} :
    Returns (modify g >>= f) s b ↔ Returns (f ⟨⟩) (g s) b := Iff.rfl

end Returns

end Lib
