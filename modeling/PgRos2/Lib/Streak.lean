import Mathlib.Data.List.Basic
import Mathlib.Data.Option.Basic
import Mathlib.Order.Lattice

/-!
# Streaks and the timers that follow them

Notes are taken one after the other, each at an instant. A streak of `p` is a stretch of notes with
`p` that goes on to the last one. A timer that is set at a note with `p` unless it runs, and cleared
at any other, stands at the start of the longest streak (`Tracks`).
-/

namespace Lib

variable {τ κ : Type*} {p : κ → Prop} {notes : List (τ × κ)} {k : κ} {s t : τ}

/-- From the one at `t` on, every note has `p`. -/
def Streak (p : κ → Prop) (notes : List (τ × κ)) (t : τ) : Prop :=
  ∃ before k rest, notes = before ++ (t, k) :: rest ∧ p k ∧ ∀ n ∈ rest, p n.2

theorem not_streak_nil : ¬ Streak p [] t := by
  rintro ⟨before, k, rest, h, -⟩
  simp at h

/-- The last note is one of the streak. -/
theorem Streak.last (h : Streak p (notes ++ [(t, k)]) s) : p k ∧ (Streak p notes s ∨ s = t) := by
  obtain ⟨before, k', rest, h, hk', hrest⟩ := h
  rcases List.eq_nil_or_concat rest with rfl | ⟨rest, n, rfl⟩
  · obtain ⟨-, hn⟩ := List.append_inj' h rfl
    cases hn
    exact ⟨hk', .inr rfl⟩
  · rw [List.concat_eq_append, ← List.cons_append, ← List.append_assoc] at h
    obtain ⟨hnotes, hn⟩ := List.append_inj' h rfl
    cases hn
    rw [List.concat_eq_append] at hrest
    refine ⟨hrest (t, k) (by simp), .inl ⟨before, k', rest, hnotes, hk', fun n hn => ?_⟩⟩
    exact hrest n (List.mem_append_left _ hn)

theorem Streak.extend (h : Streak p notes s) (hk : p k) : Streak p (notes ++ [(t, k)]) s := by
  obtain ⟨before, k', rest, rfl, hk', hrest⟩ := h
  refine ⟨before, k', rest ++ [(t, k)], by simp, hk', fun n hn => ?_⟩
  rcases List.mem_append.mp hn with hn | hn
  · exact hrest n hn
  · exact List.mem_singleton.mp hn ▸ hk

theorem Streak.begin (hk : p k) : Streak p (notes ++ [(t, k)]) t :=
  ⟨notes, k, [], rfl, hk, by simp⟩

section Timer

variable [LinearOrder τ] {since : Option τ} {now now' : τ}

/-- A timer stands at the start of the longest streak, and is unset where there is none. -/
structure Tracks (p : κ → Prop) (notes : List (τ × κ)) (since : Option τ) (now : τ) : Prop where
  streak : ∀ s ∈ since, Streak p notes s
  first : ∀ s, Streak p notes s → ∃ s₀ ∈ since, s₀ ≤ s
  past : ∀ s ∈ since, s ≤ now

theorem Tracks.nil (now : τ) : Tracks p [] none now where
  streak := nofun
  first _ h := absurd h not_streak_nil
  past := nofun

theorem Tracks.wait (h : Tracks p notes since now) (hle : now ≤ now') :
    Tracks p notes since now' :=
  { h with past := fun s hs => le_trans (h.past s hs) hle }

/-- A note with `p` sets the timer unless it runs. -/
theorem Tracks.hit (h : Tracks p notes since now) (hk : p k) :
    Tracks p (notes ++ [(now, k)]) (some (since.getD now)) now := by
  rcases since with _ | s₀
  · refine ⟨fun s hs => ?_, fun s hs => ?_, fun s hs => ?_⟩
    · obtain rfl := Option.some.inj hs
      exact .begin hk
    · rcases hs.last.2 with hs | rfl
      · obtain ⟨s₀, hs₀, -⟩ := h.first s hs
        cases hs₀
      · exact ⟨_, rfl, le_rfl⟩
    · obtain rfl := Option.some.inj hs
      exact le_rfl
  · refine ⟨fun s hs => (h.streak s hs).extend hk, fun s hs => ?_, h.past⟩
    rcases hs.last.2 with hs | rfl
    · exact h.first s hs
    · exact ⟨s₀, rfl, h.past s₀ rfl⟩

/-- Any other note clears it. -/
theorem Tracks.miss (hk : ¬ p k) (notes : List (τ × κ)) (t now : τ) :
    Tracks p (notes ++ [(t, k)]) none now where
  streak := nofun
  first _ hs := absurd hs.last.1 hk
  past := nofun

end Timer

end Lib
