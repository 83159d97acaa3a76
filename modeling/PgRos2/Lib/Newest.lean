import Mathlib.Data.Nat.Basic
import Mathlib.Data.Option.Basic
import Mathlib.Data.List.Basic

/-!
# A newest-wins cache

A subscription numbers what it hears, its slot keeps the newest message that could be encoded, and a
flush moves the message to a row, over the one before it. Subscriptions follow one another: one that
stops is forgotten with its slot, and its row is deleted before the next one starts. The `Chronicle`
of a run is what it heard and stored, and the cell and the chronicle stay in step (`Kept.step`).
-/

namespace Lib

namespace Newest

/-- What befalls a cell. -/
inductive Note (ε τ ρ : Type) where
  | subscribed
  | heard (result : Except ε τ)
  | flushed (stored : Option (ℕ × ρ))
  | stopped
  | deleted

/-- The count and the slot of the subscription, the row, and whether it is about to be deleted. -/
structure Cell (τ ρ : Type) where
  live : Option (ℕ × Option (ℕ × τ))
  row : Option (ℕ × ρ)
  doomed : Bool

/-- The number of subscriptions, what the last one heard, what was stored since the row was last
deleted, and the subscription and the number of everything that was ever stored. -/
structure Chronicle (ε τ ρ : Type) where
  subscriptions : ℕ
  heard : List (Except ε τ)
  stored : List (ℕ × ρ)
  written : List (ℕ × ℕ)

variable {ε τ ρ : Type}

def Chronicle.note (c : Chronicle ε τ ρ) : Note ε τ ρ → Chronicle ε τ ρ
  | .subscribed => { c with subscriptions := c.subscriptions + 1, heard := [] }
  | .heard result => { c with heard := c.heard ++ [result] }
  | .flushed stored => { c with
      stored := c.stored ++ stored.toList
      written := c.written ++ stored.toList.map fun m => (c.subscriptions, m.1) }
  | .stopped => c
  | .deleted => { c with stored := [] }

/-- The chronicle of a run. -/
def chronicle (notes : List (Note ε τ ρ)) : Chronicle ε τ ρ :=
  notes.foldl Chronicle.note ⟨0, [], [], []⟩

theorem chronicle_append (notes : List (Note ε τ ρ)) (note : Note ε τ ρ) :
    chronicle (notes ++ [note]) = (chronicle notes).note note := by
  simp [chronicle]

/-- The newest message that was encoded, with its number. -/
def newest (heard : List (Except ε τ)) : Option (ℕ × τ) :=
  ((heard.zipIdx 1).filterMap fun r => r.1.toOption.map (r.2, ·)).getLast?

theorem newest_append_ok (heard : List (Except ε τ)) (text : τ) :
    newest (heard ++ [.ok text]) = some (heard.length + 1, text) := by
  simp [newest, List.zipIdx_append, Except.toOption, Nat.add_comm]

theorem newest_append_error (heard : List (Except ε τ)) (error : ε) :
    newest (heard ++ [.error error]) = newest heard := by
  simp [newest, List.zipIdx_append, Except.toOption]

/-- The newest message is one that was heard. -/
theorem getElem?_of_newest {heard : List (Except ε τ)} {p : ℕ × τ} (h : newest heard = some p) :
    ∃ i, p.1 = i + 1 ∧ heard[i]? = some (.ok p.2) := by
  obtain ⟨⟨result, n⟩, hm, hp⟩ := List.mem_filterMap.mp (List.mem_of_getLast? h)
  obtain ⟨hn, hr⟩ := List.mem_zipIdx_iff_le_and_getElem?_sub.mp hm
  obtain ⟨text, ht, rfl⟩ := Option.map_eq_some_iff.mp hp
  cases result with
  | error error => cases ht
  | ok text' =>
    cases ht
    exact ⟨n - 1, by simp only; omega, hr⟩

section Steps

variable (produces : ℕ → τ → Prop) (read : τ → Option ρ)

/-- The steps of a cell, over what a callback may produce under a number and how it is read. -/
inductive Cell.Step : Cell τ ρ → Note ε τ ρ → Cell τ ρ → Prop
  | subscribe (row : Option (ℕ × ρ)) :
    Cell.Step ⟨none, row, false⟩ .subscribed ⟨some (0, none), row, false⟩
  | ok {n : ℕ} {text : τ} (h : produces (n + 1) text) (pending : Option (ℕ × τ))
      (row : Option (ℕ × ρ)) :
    Cell.Step ⟨some (n, pending), row, false⟩ (.heard (.ok text))
      ⟨some (n + 1, some (n + 1, text)), row, false⟩
  | error (n : ℕ) (pending : Option (ℕ × τ)) (row : Option (ℕ × ρ)) (error : ε) :
    Cell.Step ⟨some (n, pending), row, false⟩ (.heard (.error error))
      ⟨some (n + 1, pending), row, false⟩
  | idle (n : ℕ) (row : Option (ℕ × ρ)) :
    Cell.Step ⟨some (n, none), row, false⟩ (.flushed none) ⟨some (n, none), row, false⟩
  | store {p : ℕ × τ} {r : ρ} (h : read p.2 = some r) (n : ℕ) (row : Option (ℕ × ρ)) :
    Cell.Step ⟨some (n, some p), row, false⟩ (.flushed (some (p.1, r)))
      ⟨some (n, none), some (p.1, r), false⟩
  | stop (live : Option (ℕ × Option (ℕ × τ))) (row : Option (ℕ × ρ)) :
    Cell.Step ⟨live, row, false⟩ .stopped ⟨none, row, true⟩
  | delete (live : Option (ℕ × Option (ℕ × τ))) (row : Option (ℕ × ρ)) :
    Cell.Step ⟨live, row, true⟩ .deleted ⟨live, none, false⟩

/-- What a cell has of its chronicle. -/
structure Kept (c : Chronicle ε τ ρ) (s : Cell τ ρ) : Prop where
  count : ∀ n p, s.live = some (n, p) → n = c.heard.length
  pending : ∀ n p, s.live = some (n, some p) →
    newest c.heard = some p ∧ ∀ m ∈ c.stored, m.1 < p.1
  drained : ∀ n, s.live = some (n, none) → match newest c.heard with
    | none => c.stored = []
    | some p => ∃ r, read p.2 = some r ∧ c.stored.getLast? = some (p.1, r)
  produced : ∀ i text, c.heard[i]? = some (.ok text) → produces (i + 1) text
  told : ∀ m ∈ c.stored, ∃ i text, m.1 = i + 1 ∧ c.heard[i]? = some (.ok text)
    ∧ read text = some m.2
  sorted : c.stored.Pairwise fun m m' => m.1 < m'.1
  row : ∀ m ∈ c.stored.getLast?, s.row = some m
  gone : s.live = none → s.doomed = false → c.stored = []
  doomed : s.doomed = true → s.live = none
  numbered : ∀ a ∈ c.written, a.1 ≤ c.subscriptions
  recent : s.live.isSome = true → ∀ a ∈ c.written, a.1 = c.subscriptions →
    ∃ m ∈ c.stored, m.1 = a.2
  once : c.written.Pairwise fun a a' => a.1 < a'.1 ∨ (a.1 = a'.1 ∧ a.2 < a'.2)

variable {produces read} {c : Chronicle ε τ ρ} {s s' : Cell τ ρ} {note : Note ε τ ρ}

theorem Kept.start (row : Option (ℕ × ρ)) :
    Kept produces read (chronicle ([] : List (Note ε τ ρ))) ⟨none, row, false⟩ := by
  constructor <;> simp [chronicle]

theorem Kept.le (h : Kept produces read c s) : ∀ m ∈ c.stored, m.1 ≤ c.heard.length := by
  intro m hm
  obtain ⟨i, text, hi, ht, -⟩ := h.told m hm
  have := (List.getElem?_eq_some_iff.mp ht).1
  omega

/-- Hearing a message puts it in the slot, unless it could not be encoded. -/
theorem Kept.hear_ok {n : ℕ} {pending : Option (ℕ × τ)} {row : Option (ℕ × ρ)}
    (h : Kept produces read c ⟨some (n, pending), row, false⟩) {text : τ}
    (hp : produces (n + 1) text) :
    Kept produces read (c.note (.heard (.ok text)))
      ⟨some (n + 1, some (n + 1, text)), row, false⟩ := by
  have hn : n = c.heard.length := h.count n pending rfl
  subst hn
  refine { h with
    count := ?_, pending := ?_, drained := ?_, produced := ?_, told := ?_, gone := nofun
    doomed := nofun }
  · rintro m p hl
    cases hl
    simp [Chronicle.note]
  · rintro m p hl
    cases hl
    refine ⟨newest_append_ok c.heard text, fun m hm => ?_⟩
    have := h.le m hm
    simp only
    omega
  · rintro m hl
    cases hl
  · intro i text' hi
    rcases Nat.lt_or_ge i c.heard.length with hlt | hge
    · exact h.produced i text' (by rwa [Chronicle.note, List.getElem?_append_left hlt] at hi)
    · rw [Chronicle.note, List.getElem?_append_right hge, List.getElem?_singleton] at hi
      split at hi
      · cases hi
        rwa [show i = c.heard.length by omega]
      · cases hi
  · intro m hm
    obtain ⟨i, text', hi, ht, hr⟩ := h.told m hm
    have hlt := (List.getElem?_eq_some_iff.mp ht).1
    exact ⟨i, text', hi, by rwa [Chronicle.note, List.getElem?_append_left hlt], hr⟩

theorem Kept.hear_error {n : ℕ} {pending : Option (ℕ × τ)} {row : Option (ℕ × ρ)}
    (h : Kept produces read c ⟨some (n, pending), row, false⟩) (error : ε) :
    Kept produces read (c.note (.heard (.error error))) ⟨some (n + 1, pending), row, false⟩ := by
  have hn : n = c.heard.length := h.count n pending rfl
  subst hn
  have hnewest : newest (c.note (.heard (.error error))).heard = newest c.heard :=
    newest_append_error c.heard error
  refine { h with
    count := ?_, pending := ?_, drained := ?_, produced := ?_, told := ?_, gone := nofun
    doomed := nofun }
  · rintro m p hl
    cases hl
    simp [Chronicle.note]
  · rintro m p hl
    cases hl
    rw [hnewest]
    exact h.pending _ p rfl
  · rintro m hl
    cases hl
    rw [hnewest]
    exact h.drained _ rfl
  · intro i text' hi
    rcases Nat.lt_or_ge i c.heard.length with hlt | hge
    · exact h.produced i text' (by rwa [Chronicle.note, List.getElem?_append_left hlt] at hi)
    · rw [Chronicle.note, List.getElem?_append_right hge, List.getElem?_singleton] at hi
      split at hi <;> cases hi
  · intro m hm
    obtain ⟨i, text', hi, ht, hr⟩ := h.told m hm
    have hlt := (List.getElem?_eq_some_iff.mp ht).1
    exact ⟨i, text', hi, by rwa [Chronicle.note, List.getElem?_append_left hlt], hr⟩

/-- A flush moves what is in the slot to the row. -/
theorem Kept.store {n : ℕ} {p : ℕ × τ} {row : Option (ℕ × ρ)}
    (h : Kept produces read c ⟨some (n, some p), row, false⟩) {r : ρ} (hr : read p.2 = some r) :
    Kept produces read (c.note (.flushed (some (p.1, r))))
      ⟨some (n, none), some (p.1, r), false⟩ := by
  obtain ⟨hnewest, hlt⟩ := h.pending n p rfl
  refine { h with
    count := ?_, pending := ?_, drained := ?_, told := ?_, sorted := ?_, row := ?_, gone := nofun
    doomed := nofun, numbered := ?_, recent := ?_, once := ?_ }
  · rintro m q hl
    cases hl
    exact h.count n (some p) rfl
  · rintro m q hl
    cases hl
  · rintro m hl
    rw [Chronicle.note, hnewest]
    exact ⟨r, hr, by simp⟩
  · intro m hm
    rcases List.mem_append.mp hm with hm | hm
    · exact h.told m hm
    · cases List.mem_singleton.mp hm
      obtain ⟨i, hi, ht⟩ := getElem?_of_newest hnewest
      exact ⟨i, p.2, hi, ht, hr⟩
  · refine List.pairwise_append.mpr ⟨h.sorted, List.pairwise_singleton _ _, ?_⟩
    rintro m hm m' hm'
    cases List.mem_singleton.mp hm'
    exact hlt m hm
  · simp [Chronicle.note]
  · intro a ha
    rcases List.mem_append.mp ha with ha | ha
    · exact h.numbered a ha
    · cases List.mem_singleton.mp ha
      exact Nat.le_refl _
  · rintro - a ha hs
    rcases List.mem_append.mp ha with ha | ha
    · obtain ⟨m, hm, heq⟩ := h.recent rfl a ha hs
      exact ⟨m, List.mem_append_left _ hm, heq⟩
    · cases List.mem_singleton.mp ha
      exact ⟨(p.1, r), by simp [Chronicle.note], rfl⟩
  · refine List.pairwise_append.mpr ⟨h.once, List.pairwise_singleton _ _, ?_⟩
    rintro a ha a' ha'
    cases List.mem_singleton.mp ha'
    rcases Nat.lt_or_ge a.1 c.subscriptions with hlt' | hge
    · exact .inl hlt'
    · have hs : a.1 = c.subscriptions := Nat.le_antisymm (h.numbered a ha) hge
      obtain ⟨m, hm, heq⟩ := h.recent rfl a ha hs
      exact .inr ⟨hs, heq ▸ hlt m hm⟩

theorem Kept.subscribe {row : Option (ℕ × ρ)} (h : Kept produces read c ⟨none, row, false⟩) :
    Kept produces read (c.note .subscribed) ⟨some (0, none), row, false⟩ := by
  have hs : c.stored = [] := h.gone rfl rfl
  refine { h with
    count := ?_, pending := ?_, drained := ?_, produced := ?_, told := ?_, gone := nofun
    doomed := nofun, numbered := ?_, recent := ?_ }
  · rintro m p hl
    cases hl
    rfl
  · rintro m p hl
    cases hl
  · rintro m hl
    exact hs
  · intro i text hi
    cases hi
  · intro m hm
    rw [Chronicle.note, hs] at hm
    cases hm
  · exact fun a ha => Nat.le_succ_of_le (h.numbered a ha)
  · rintro - a ha heq
    have := h.numbered a ha
    simp only [Chronicle.note] at heq
    omega

/-- The cell and its chronicle stay in step. -/
theorem Kept.step (h : Kept produces read c s) (hs : Cell.Step produces read s note s') :
    Kept produces read (c.note note) s' := by
  cases hs with
  | subscribe row => exact h.subscribe
  | ok hp pending row => exact h.hear_ok hp
  | error n pending row error => exact h.hear_error error
  | idle n row =>
    have hc : c.note (.flushed none) = c := by simp [Chronicle.note]
    rw [hc]
    exact h
  | store hr n row => exact h.store hr
  | stop live row =>
    refine { h with
      count := ?_, pending := ?_, drained := ?_, gone := ?_, doomed := ?_, recent := ?_ }
    · rintro n p hl
      cases hl
    · rintro n p hl
      cases hl
    · rintro n hl
      cases hl
    · rintro - hd
      cases hd
    · exact fun _ => rfl
    · rintro hl
      cases hl
  | delete live row =>
    obtain rfl : live = none := h.doomed rfl
    refine { h with
      pending := ?_, drained := ?_, told := ?_, sorted := ?_, row := ?_, gone := ?_, doomed := ?_
      recent := ?_ }
    · rintro n p hl
      cases hl
    · rintro n hl
      cases hl
    · rintro m hm
      cases hm
    · exact .nil
    · rintro m hm
      cases hm
    · exact fun _ _ => rfl
    · exact fun _ => rfl
    · rintro hl
      cases hl

/-- A flush leaves the slot empty. -/
theorem Cell.Step.drained {stored : Option (ℕ × ρ)}
    (h : Cell.Step produces read s (.flushed stored : Note ε τ ρ) s') :
    ∃ n, s'.live = some (n, none) := by
  cases h with
  | idle n row => exact ⟨n, rfl⟩
  | store hr n row => exact ⟨n, rfl⟩

/-- After a flush the row is the newest message that was encoded. -/
theorem Kept.row_of_drained (h : Kept produces read c s) {n : ℕ} (hl : s.live = some (n, none))
    {p : ℕ × τ} (hp : newest c.heard = some p) :
    ∃ r, read p.2 = some r ∧ s.row = some (p.1, r) := by
  have hd := h.drained n hl
  rw [hp] at hd
  obtain ⟨r, hr, hm⟩ := hd
  exact ⟨r, hr, h.row _ hm⟩

/-- No message is stored twice. -/
theorem Kept.nodup (h : Kept produces read c s) : c.written.Nodup := by
  refine h.once.imp fun {a a'} hlt heq => ?_
  subst heq
  omega

end Steps

end Newest

end Lib
