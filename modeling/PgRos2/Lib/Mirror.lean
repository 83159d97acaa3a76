import Mathlib.Data.Nat.Basic

/-!
# A table that is written when it changes

The table can be dropped and created anew, each time under an identity of its own. Its writer holds
what it saved last and the identity it saw last, and skips a save when it takes both to be as they
were. `Coherent` is what licenses the skip. A failed save moves the identity and keeps what is held,
so it is coherent only where the writer holds nothing or has seen this table before (`Trusts`).
-/

namespace Lib

/-- A table with its identity, if it is there, the next identity, and what its writer remembers. -/
structure Mirror (σ ρ : Type*) where
  table : Option (ℕ × ρ)
  next : ℕ
  held : Option σ
  seen : Option ℕ

namespace Mirror

variable {σ ρ : Type*}

/-- What a step was to the table: nothing, a save that failed, or a save. -/
inductive Label (σ : Type*) where
  | quiet
  | failed
  | saved (v : σ)

/-- The steps of the table and its writer, where `shows v r` says that the table `r` holds the
value `v`, and `same` is the writer's comparison. -/
inductive Step (shows : σ → ρ → Prop) (same : σ → σ → Prop) :
    Mirror σ ρ → Label σ → Mirror σ ρ → Prop
  | stay (m : Mirror σ ρ) : Step shows same m .quiet m
  | create (m : Mirror σ ρ) (r : ρ) (hm : m.table = none) :
    Step shows same m .quiet { m with table := some (m.next, r), next := m.next + 1 }
  | drop (m : Mirror σ ρ) : Step shows same m .quiet { m with table := none }
  | forget (m : Mirror σ ρ) : Step shows same m .quiet { m with held := none, seen := none }
  | miss (m : Mirror σ ρ) (held : Option σ) (hm : m.table = none) :
    Step shows same m .quiet { m with held, seen := none }
  | fail (m : Mirror σ ρ) {i : ℕ} {r : ρ} (hm : m.table = some (i, r)) :
    Step shows same m .failed { m with seen := some i }
  | keep (m : Mirror σ ρ) {i : ℕ} {r : ρ} {v v' : σ} (hm : m.table = some (i, r))
    (hheld : m.held = some v') (hseen : m.seen = some i) (hsame : same v' v) :
    Step shows same m (.saved v) { m with held := some v }
  | rewrite (m : Mirror σ ρ) {i : ℕ} {r r' : ρ} {v : σ} (hm : m.table = some (i, r))
    (hshows : shows v r') :
    Step shows same m (.saved v)
      { m with table := some (i, r'), held := some v, seen := some i }

/-- A writer that is gone remembers nothing, and one of the same memory holds and has seen the
same. -/
theorem memory_cases {ω : Type*} {writer writer' : Option ω} {held : ω → Option σ}
    {seen : ω → Option ℕ} (h : writer' = none
      ∨ writer'.map (fun o => (held o, seen o)) = writer.map fun o => (held o, seen o)) :
    writer'.bind held = none ∧ writer'.bind seen = none
      ∨ writer'.bind held = writer.bind held ∧ writer'.bind seen = writer.bind seen := by
  rcases h with rfl | h
  · exact .inl ⟨rfl, rfl⟩
  · refine .inr ⟨?_, ?_⟩
    · simpa [Option.bind_map, Function.comp_def] using congrArg (·.bind Prod.fst) h
    · simpa [Option.bind_map, Function.comp_def] using congrArg (·.bind Prod.snd) h

/-- The table stays, and the writer remembers what it did or nothing. -/
theorem eq_or_forgotten {m m' : Mirror σ ρ} (hnext : m'.next = m.next) (htable : m'.table = m.table)
    (hmemory : m'.held = none ∧ m'.seen = none ∨ m'.held = m.held ∧ m'.seen = m.seen) :
    m' = m ∨ m' = { m with held := none, seen := none } := by
  obtain ⟨table, next, held, seen⟩ := m
  obtain ⟨table', next', held', seen'⟩ := m'
  cases hnext
  cases htable
  obtain ⟨hheld, hseen⟩ | ⟨hheld, hseen⟩ := hmemory <;> cases hheld <;> cases hseen
  · exact .inr rfl
  · exact .inl rfl

theorem Step.quiet {shows : σ → ρ → Prop} {same : σ → σ → Prop} {m m' : Mirror σ ρ}
    (hnext : m'.next = m.next) (htable : m'.table = m.table)
    (hmemory : m'.held = none ∧ m'.seen = none ∨ m'.held = m.held ∧ m'.seen = m.seen) :
    Step shows same m .quiet m' := by
  obtain rfl | rfl := eq_or_forgotten hnext htable hmemory
  · exact .stay _
  · exact .forget _

/-- The writer holds nothing, or the identity it has seen is the table's. -/
def Trusts (m : Mirror σ ρ) : Prop :=
  m.held = none ∨ m.seen = m.table.map Prod.fst

/-- Identities are older than the next one, and a table whose identity the writer has seen holds
what the writer does. -/
structure Coherent (shows : σ → ρ → Prop) (m : Mirror σ ρ) : Prop where
  table_lt : ∀ i r, m.table = some (i, r) → i < m.next
  seen_lt : ∀ i, m.seen = some i → i < m.next
  shows : ∀ v i r, m.held = some v → m.seen = some i → m.table = some (i, r) → shows v r

variable {shows : σ → ρ → Prop} {same : σ → σ → Prop}

/-- A writer that remembers nothing is coherent. -/
theorem coherent_of_none {m : Mirror σ ρ} (ht : ∀ i r, m.table = some (i, r) → i < m.next)
    (hs : m.seen = none) : m.Coherent shows where
  table_lt := ht
  seen_lt i hi := by rw [hs] at hi; cases hi
  shows v i r _ hi := by rw [hs] at hi; cases hi

theorem Coherent.create {m : Mirror σ ρ} (h : m.Coherent shows) (r : ρ) :
    { m with table := some (m.next, r), next := m.next + 1 }.Coherent shows where
  table_lt i r' hi := by
    simp only [Option.some.injEq, Prod.mk.injEq] at hi
    exact hi.1 ▸ Nat.lt_succ_self m.next
  seen_lt i hi := Nat.lt_succ_of_lt (h.seen_lt i hi)
  shows v i r' _ hi hr := by
    -- the writer has seen an older table than the new one
    simp only [Option.some.injEq, Prod.mk.injEq] at hr
    exact absurd (h.seen_lt i hi) (hr.1 ▸ lt_irrefl m.next)

theorem Coherent.drop {m : Mirror σ ρ} (h : m.Coherent shows) :
    { m with table := none }.Coherent shows where
  table_lt i r hi := by cases hi
  seen_lt := h.seen_lt
  shows v i r _ _ hr := by cases hr

theorem Coherent.fail {m : Mirror σ ρ} (h : m.Coherent shows) (ht : m.Trusts) {i : ℕ} {r : ρ}
    (hm : m.table = some (i, r)) : { m with seen := some i }.Coherent shows where
  table_lt := h.table_lt
  seen_lt j hj := by
    cases hj
    exact h.table_lt i r hm
  shows v j r' hv hj hr := by
    rcases ht with ht | ht
    · rw [ht] at hv
      cases hv
    · rw [hm] at ht
      cases hj
      exact h.shows v i r' hv ht hr

/-- A step keeps the mirror coherent where a failed save happens to a writer that may trust what it
holds. -/
theorem Coherent.step {m m' : Mirror σ ρ} {l : Label σ}
    (hsame : ∀ v v' r, same v' v → shows v' r → shows v r) (h : m.Coherent shows)
    (hs : Step shows same m l m') (ht : l = .failed → m.Trusts) : m'.Coherent shows := by
  cases hs with
  | stay => exact h
  | create r _ => exact h.create r
  | drop => exact h.drop
  | forget => exact coherent_of_none h.table_lt rfl
  | miss _ _ => exact coherent_of_none h.table_lt rfl
  | fail hm => exact h.fail (ht rfl) hm
  | keep hm hheld hseen hv =>
    refine ⟨h.table_lt, h.seen_lt, fun v i r hi hj hr => ?_⟩
    cases hi
    exact hsame _ _ _ hv (h.shows _ i r hheld hj hr)
  | rewrite hm hr =>
    have hlt := h.table_lt _ _ hm
    refine ⟨fun i r hi => ?_, fun i hi => ?_, fun v i r hv _ hi => ?_⟩
    · cases hi
      exact hlt
    · cases hi
      exact hlt
    · cases hv
      cases hi
      exact hr

/-- After a save that a coherent mirror makes or skips, the table holds the value. -/
theorem Step.saved {m m' : Mirror σ ρ} {v : σ}
    (hsame : ∀ v v' r, same v' v → shows v' r → shows v r) (h : m.Coherent shows)
    (hs : Step shows same m (.saved v) m') : ∃ i r, m'.table = some (i, r) ∧ shows v r := by
  cases hs with
  | keep hm hheld hseen hv => exact ⟨_, _, hm, hsame _ _ _ hv (h.shows _ _ _ hheld hseen hm)⟩
  | rewrite hm hr => exact ⟨_, _, rfl, hr⟩

end Mirror

end Lib
