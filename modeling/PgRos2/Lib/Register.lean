import PgRos2.Lib.Mirror
import PgRos2.Lib.Streak

/-!
# A table that tells its age

The table of a mirror with the dates of its rows and a status: when it was last checked and with
what error, and when it was last rewritten. Each check records an outcome. A register is `Honest`
about the outcomes recorded in it when its status is the last of them, its rows bear the date of
the last rewrite, and every value saved from then on is one they show. A writer that skips saves
keeps it honest whatever fails, whichever tables and writers come and go (`Honest.step`): what a
failed save makes a writer forget matters in a table that was never rewritten only.
-/

namespace Lib

/-- The rows of a table with their dates, and its status. -/
structure Register (ρ ε τ : Type*) where
  rows : ρ
  dates : List τ
  checked : Option τ
  refreshed : Option τ
  error : Option ε

namespace Register

variable {σ ρ ε τ : Type*}

/-- A table nothing was written to. -/
def blank (rows : ρ) : Register ρ ε τ := ⟨rows, [], none, none, none⟩

/-- The table is checked and its rows are left. -/
def check (r : Register ρ ε τ) (now : τ) (error : Option ε) : Register ρ ε τ :=
  { r with checked := some now, error }

/-- The table is checked and rewritten. -/
def rewrite (rows : ρ) (dates : List τ) (now : τ) : Register ρ ε τ :=
  ⟨rows, dates, some now, some now, none⟩

/-- The error of an outcome. -/
def errorOf : Except ε σ → Option ε
  | .ok _ => none
  | .error e => some e

/-- The values among the outcomes. -/
def saved (notes : List (τ × Except ε σ)) : List (τ × σ) :=
  notes.filterMap fun n => n.2.toOption.map (n.1, ·)

@[simp]
theorem saved_append_error (notes : List (τ × Except ε σ)) (t : τ) (e : ε) :
    saved (notes ++ [(t, .error e)]) = saved notes := by
  simp [saved, Except.toOption]

@[simp]
theorem saved_append_ok (notes : List (τ × Except ε σ)) (t : τ) (v : σ) :
    saved (notes ++ [(t, .ok v)]) = saved notes ++ [(t, v)] := by
  simp [saved, Except.toOption]

section Honest

variable [LinearOrder τ]

/-- What the register says of the outcomes recorded in it is so. -/
structure Honest (shows : σ → ρ → Prop) (notes : List (τ × Except ε σ)) (now : τ)
    (r : Register ρ ε τ) : Prop where
  status : r.checked.map (·, r.error) = notes.getLast?.map fun n => (n.1, errorOf n.2)
  past : ∀ c ∈ r.checked, c ≤ now
  blank : r.refreshed = none → r.dates = []
  dated : ∀ t ∈ r.refreshed, (∀ d ∈ r.dates, d = t) ∧ ∃ c ∈ r.checked, t ≤ c
  shown : ∀ t ∈ r.refreshed, Streak (shows · r.rows) (saved notes) t

variable {shows : σ → ρ → Prop} {notes : List (τ × Except ε σ)} {now now' : τ}
  {r : Register ρ ε τ} {v : σ}

theorem honest_blank (rows : ρ) (now : τ) :
    (Register.blank rows : Register ρ ε τ).Honest shows ([] : List (τ × Except ε σ)) now where
  status := rfl
  past := nofun
  blank _ := rfl
  dated := nofun
  shown := nofun

theorem Honest.wait (h : r.Honest shows notes now) (hle : now ≤ now') :
    r.Honest shows notes now' :=
  { h with past := fun c hc => (h.past c hc).trans hle }

theorem Honest.dated_check (h : r.Honest shows notes now) (error : Option ε) :
    ∀ t ∈ (r.check now error).refreshed,
      (∀ d ∈ (r.check now error).dates, d = t) ∧ ∃ c ∈ (r.check now error).checked, t ≤ c := by
  intro t ht
  obtain ⟨hd, c, hc, hle⟩ := h.dated t ht
  exact ⟨hd, now, rfl, hle.trans (h.past c hc)⟩

theorem Honest.fail (h : r.Honest shows notes now) (e : ε) :
    (r.check now (some e)).Honest shows (notes ++ [(now, .error e)]) now where
  status := by simp [check, errorOf]
  past c hc := by
    cases hc
    exact le_rfl
  blank := h.blank
  dated := h.dated_check _
  shown t ht := by
    rw [saved_append_error]
    exact h.shown t ht

/-- A save is skipped where the rows show the value, if they were ever written. -/
theorem Honest.keep (h : r.Honest shows notes now) (hv : r.refreshed ≠ none → shows v r.rows) :
    (r.check now none).Honest shows (notes ++ [(now, .ok v)]) now where
  status := by simp [check, errorOf]
  past c hc := by
    cases hc
    exact le_rfl
  blank := h.blank
  dated := h.dated_check _
  shown t ht := by
    have hne : r.refreshed ≠ none := Option.ne_none_iff_exists'.mpr ⟨t, ht⟩
    rw [saved_append_ok]
    exact (h.shown t ht).extend (hv hne)

theorem honest_rewrite {rows : ρ} {dates : List τ} (hv : shows v rows)
    (hd : ∀ d ∈ dates, d = now) (notes : List (τ × Except ε σ)) :
    (Register.rewrite rows dates now : Register ρ ε τ).Honest shows (notes ++ [(now, .ok v)])
      now where
  status := by simp [rewrite, errorOf]
  past c hc := by
    cases hc
    exact le_rfl
  blank h := by cases h
  dated t ht := by
    cases ht
    exact ⟨hd, now, rfl, le_rfl⟩
  shown t ht := by
    cases ht
    rw [saved_append_ok]
    exact .begin hv

end Honest

/-! ## The table and its writer -/

/-- An outcome with the table it was recorded in. -/
structure Note (σ ε τ : Type*) where
  id : ℕ
  time : τ
  outcome : Except ε σ

/-- The outcomes recorded in a table. -/
def recorded (i : ℕ) (notes : List (Note σ ε τ)) : List (τ × Except ε σ) :=
  notes.filterMap fun n => if n.id = i then some (n.time, n.outcome) else none

theorem recorded_append_self (notes : List (Note σ ε τ)) (i : ℕ) (t : τ) (x : Except ε σ) :
    recorded i (notes ++ [⟨i, t, x⟩]) = recorded i notes ++ [(t, x)] := by
  simp [recorded]

theorem recorded_eq_nil {i : ℕ} {notes : List (Note σ ε τ)} (h : ∀ n ∈ notes, n.id ≠ i) :
    recorded i notes = [] := by
  simp only [recorded, List.filterMap_eq_nil_iff]
  exact fun n hn => if_neg (h n hn)

/-- The steps of the table and its writer at an instant, with the outcome a step records. -/
inductive Step (shows : σ → ρ → Prop) (same : σ → σ → Prop) (now : τ) :
    Mirror σ (Register ρ ε τ) → Option (Note σ ε τ) → Mirror σ (Register ρ ε τ) → Prop
  | stay (m : Mirror σ (Register ρ ε τ)) : Step shows same now m none m
  | create (m : Mirror σ (Register ρ ε τ)) (rows : ρ) (hm : m.table = none) :
    Step shows same now m none
      { m with table := some (m.next, Register.blank rows), next := m.next + 1 }
  | drop (m : Mirror σ (Register ρ ε τ)) : Step shows same now m none { m with table := none }
  | forget (m : Mirror σ (Register ρ ε τ)) :
    Step shows same now m none { m with held := none, seen := none }
  | miss (m : Mirror σ (Register ρ ε τ)) (held : Option σ) (hm : m.table = none) :
    Step shows same now m none { m with held, seen := none }
  | fail (m : Mirror σ (Register ρ ε τ)) {i : ℕ} {r : Register ρ ε τ} (e : ε)
    (hm : m.table = some (i, r)) :
    Step shows same now m (some ⟨i, now, .error e⟩)
      { m with table := some (i, r.check now (some e)), seen := some i }
  | quit (m : Mirror σ (Register ρ ε τ)) {i : ℕ} {r : Register ρ ε τ} (e : ε)
    (hm : m.table = some (i, r)) :
    Step shows same now m (some ⟨i, now, .error e⟩)
      { m with table := some (i, r.check now (some e)), held := none, seen := none }
  | keep (m : Mirror σ (Register ρ ε τ)) {i : ℕ} {r : Register ρ ε τ} {v v' : σ}
    (hm : m.table = some (i, r)) (hheld : m.held = some v') (hseen : m.seen = some i)
    (hsame : same v' v) :
    Step shows same now m (some ⟨i, now, .ok v⟩)
      { m with table := some (i, r.check now none), held := some v }
  | rewrite (m : Mirror σ (Register ρ ε τ)) {i : ℕ} {r : Register ρ ε τ} {v : σ} {rows : ρ}
    {dates : List τ} (hm : m.table = some (i, r)) (hshows : shows v rows)
    (hdates : ∀ d ∈ dates, d = now) :
    Step shows same now m (some ⟨i, now, .ok v⟩)
      { m with
        table := some (i, Register.rewrite rows dates now), held := some v, seen := some i }

variable [LinearOrder τ]

/-- Identities are older than the next one, the table is honest about what was recorded in it, and
once it was rewritten a writer that holds a value has seen it and holds what it shows. -/
structure HonestMirror (shows : σ → ρ → Prop) (notes : List (Note σ ε τ)) (now : τ)
    (m : Mirror σ (Register ρ ε τ)) : Prop where
  notes_lt : ∀ n ∈ notes, n.id < m.next
  table_lt : ∀ i r, m.table = some (i, r) → i < m.next
  honest : ∀ i r, m.table = some (i, r) → r.Honest shows (recorded i notes) now
  holds : ∀ i r v, m.table = some (i, r) → r.refreshed ≠ none → m.held = some v →
    m.seen = some i ∧ shows v r.rows

variable {shows : σ → ρ → Prop} {same : σ → σ → Prop} {notes : List (Note σ ε τ)}
  {now now' : τ} {m m' : Mirror σ (Register ρ ε τ)} {label : Option (Note σ ε τ)}

omit [LinearOrder τ] in
theorem Step.quiet (hnext : m'.next = m.next) (htable : m'.table = m.table)
    (hmemory : m'.held = none ∧ m'.seen = none ∨ m'.held = m.held ∧ m'.seen = m.seen) :
    Step shows same now m none m' := by
  obtain rfl | rfl := Mirror.eq_or_forgotten hnext htable hmemory
  · exact .stay _
  · exact .forget _

theorem HonestMirror.wait (h : HonestMirror shows notes now m) (hle : now ≤ now') :
    HonestMirror shows notes now' m :=
  { h with honest := fun i r hi => (h.honest i r hi).wait hle }

/-- Another writer's memory over the same table. -/
theorem HonestMirror.remember (h : HonestMirror shows notes now m) {held : Option σ}
    {seen : Option ℕ} (hh : ∀ i r v, m.table = some (i, r) → r.refreshed ≠ none → held = some v →
      seen = some i ∧ shows v r.rows) : HonestMirror shows notes now { m with held, seen } where
  notes_lt := h.notes_lt
  table_lt := h.table_lt
  honest := h.honest
  holds := hh

theorem HonestMirror.create (h : HonestMirror shows notes now m) (rows : ρ) :
    HonestMirror shows notes now
      { m with table := some (m.next, Register.blank rows), next := m.next + 1 } where
  notes_lt n hn := Nat.lt_succ_of_lt (h.notes_lt n hn)
  table_lt i r hi := by
    simp only [Option.some.injEq, Prod.mk.injEq] at hi
    exact hi.1 ▸ Nat.lt_succ_self m.next
  honest i r hi := by
    simp only [Option.some.injEq, Prod.mk.injEq] at hi
    obtain ⟨rfl, rfl⟩ := hi
    -- nothing was recorded under an identity that is new
    rw [recorded_eq_nil fun n hn => (h.notes_lt n hn).ne]
    exact honest_blank rows now
  holds i r v hi hne := by
    simp only [Option.some.injEq, Prod.mk.injEq] at hi
    obtain ⟨rfl, rfl⟩ := hi
    exact absurd rfl hne

/-- An outcome is recorded in the table that is there. -/
theorem HonestMirror.record (h : HonestMirror shows notes now m) {i : ℕ} {r r' : Register ρ ε τ}
    (hm : m.table = some (i, r)) {x : Except ε σ} {held : Option σ} {seen : Option ℕ}
    (hr : r'.Honest shows (recorded i notes ++ [(now, x)]) now)
    (hh : ∀ v, r'.refreshed ≠ none → held = some v → seen = some i ∧ shows v r'.rows) :
    HonestMirror shows (notes ++ [⟨i, now, x⟩]) now
      { m with table := some (i, r'), held, seen } where
  notes_lt n hn := by
    rcases List.mem_append.mp hn with hn | hn
    · exact h.notes_lt n hn
    · rw [List.mem_singleton.mp hn]
      exact h.table_lt i r hm
  table_lt j r'' hj := by
    simp only [Option.some.injEq, Prod.mk.injEq] at hj
    exact hj.1 ▸ h.table_lt i r hm
  honest j r'' hj := by
    simp only [Option.some.injEq, Prod.mk.injEq] at hj
    obtain ⟨rfl, rfl⟩ := hj
    rw [recorded_append_self]
    exact hr
  holds j r'' v hj hne hv := by
    simp only [Option.some.injEq, Prod.mk.injEq] at hj
    obtain ⟨rfl, rfl⟩ := hj
    exact hh v hne hv

theorem HonestMirror.step (hsame : ∀ v v' r, same v' v → shows v' r → shows v r)
    (h : HonestMirror shows notes now m) (hs : Step shows same now m label m') :
    HonestMirror shows (notes ++ label.toList) now m' := by
  cases hs with
  | stay =>
    rw [Option.toList_none, List.append_nil]
    exact h
  | create rows _ =>
    rw [Option.toList_none, List.append_nil]
    exact h.create rows
  | drop =>
    rw [Option.toList_none, List.append_nil]
    exact ⟨h.notes_lt, nofun, nofun, nofun⟩
  | forget =>
    rw [Option.toList_none, List.append_nil]
    exact h.remember nofun
  | miss held hm =>
    rw [Option.toList_none, List.append_nil]
    refine h.remember fun i r v hi => ?_
    rw [hm] at hi
    cases hi
  | fail e hm =>
    exact h.record hm ((h.honest _ _ hm).fail e) fun v hne hv => ⟨rfl, (h.holds _ _ v hm hne hv).2⟩
  | quit e hm => exact h.record hm ((h.honest _ _ hm).fail e) nofun
  | keep hm hheld hseen hv =>
    have hshows (hne : _ ≠ none) := hsame _ _ _ hv (h.holds _ _ _ hm hne hheld).2
    refine h.record hm ((h.honest _ _ hm).keep hshows) fun v hne hv => ?_
    cases hv
    exact ⟨hseen, hshows hne⟩
  | rewrite hm hshows hdates =>
    refine h.record hm (honest_rewrite hshows hdates _) fun v _ hv => ?_
    cases hv
    exact ⟨rfl, hshows⟩

end Register

end Lib
