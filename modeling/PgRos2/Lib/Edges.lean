import PgRos2.Lib.Run
import Mathlib.Data.List.Destutter

/-!
# What a run prints

The lines a run prints are those of its steps, in their order. A reporter that prints a status where
it is another one than the last prints the `changes` of the statuses it is given, over any run
(`run_changes`).
-/

namespace Lib

section Changes

variable {α : Type*} [DecidableEq α]

/-- What differs from the one before it, the first from `r`. -/
def changes (r : α) (as : List α) : List α := (as.destutter' (· ≠ ·) r).tail

@[simp]
theorem changes_nil (r : α) : changes r [] = [] := rfl

theorem destutter'_eq_cons : ∀ (r : α) (as : List α), as.destutter' (· ≠ ·) r = r :: changes r as
  | _, [] => rfl
  | r, a :: as => by
    rw [changes, List.destutter'_cons]
    split_ifs
    · rfl
    · rw [destutter'_eq_cons r as, List.tail_cons]

theorem changes_cons (r a : α) (as : List α) :
    changes r (a :: as) = if a = r then changes r as else a :: changes a as := by
  rw [changes, List.destutter'_cons]
  split_ifs with h h'
  · exact absurd h'.symm h
  · exact destutter'_eq_cons a as
  · rfl
  · exact absurd (not_not.mp h).symm (by assumption)

theorem changes_append : ∀ (r : α) (as bs : List α),
    changes r (as ++ bs) = changes r as ++ changes (as.getLastD r) bs
  | _, [], _ => rfl
  | r, a :: as, bs => by
    rw [List.cons_append, changes_cons, changes_cons, List.getLastD_cons]
    split
    · rename_i h
      rw [changes_append r as bs, h]
    · rw [changes_append a as bs, List.cons_append]

end Changes

section Lines

variable {σ ε α β : Type*} (step : σ → ε → Option σ)

/-- What the steps of a run print. -/
def lines (prints : σ → ε → List β) : σ → List ε → List β
  | _, [] => []
  | s, e :: es => prints s e ++ ((step s e).map fun s' => lines prints s' es).getD []

variable {step} {prints : σ → ε → List β}

theorem lines_append : ∀ {es es' : List ε} {s m : σ}, run step s es = some m →
    lines step prints s (es ++ es') = lines step prints s es ++ lines step prints m es'
  | [], _, s, m, hr => by
    rw [run_nil, Option.some.injEq] at hr
    rw [hr]
    rfl
  | e :: es, es', s, m, hr => by
    obtain ⟨s', hs, hr⟩ := run_cons_eq_some.mp hr
    simp only [List.cons_append, lines, hs, Option.map_some, Option.getD_some, lines_append hr,
      List.append_assoc]

theorem lines_singleton (s : σ) (e : ε) : lines step prints s [e] = prints s e := by
  unfold lines
  cases step s e <;> simp [lines]

theorem filter_lines (p : β → Bool) : ∀ (es : List ε) (s : σ),
    (lines step prints s es).filter p = lines step (fun s e => (prints s e).filter p) s es
  | [], _ => rfl
  | e :: es, s => by
    rw [lines, lines, List.filter_append]
    cases step s e with
    | none => rfl
    | some s' => simp only [Option.map_some, Option.getD_some, filter_lines p es s']

/-- The history of a run of a step function that carries more state. -/
theorem history_project {τ : Type*} {step' : τ → ε → Option τ} {π : τ → σ}
    (hπ : ∀ x e, (step' x e).map π = step (π x) e) (f : σ → ε → Option α) :
    ∀ (es : List ε) (x : τ),
      history step' (fun x e => f (π x) e) x es = history step f (π x) es
  | [], _ => rfl
  | e :: es, x => by
    rw [history, history, ← hπ x e]
    cases step' x e with
    | none => rfl
    | some x' => simp only [Option.map_some, Option.getD_some, history_project hπ f es x']

/-- A reporter that prints `f` of a status where it is not the last one prints the changes. -/
theorem run_changes [DecidableEq α] {G : σ → ε → Prop} {last : σ → α} {status : σ → ε → Option α}
    {f : α → List β} (hstep : ∀ s e s', G s e → step s e = some s' →
      prints s e = (changes (last s) (status s e).toList).flatMap f
        ∧ last s' = (status s e).getD (last s))
    {s₀ s : σ} {es : List ε} (hg : Along step G s₀ es) (hr : run step s₀ es = some s) :
    lines step prints s₀ es = (changes (last s₀) (history step status s₀ es)).flatMap f
      ∧ last s = (history step status s₀ es).getLastD (last s₀) := by
  refine run_history (G := G) (I := fun es s =>
    lines step prints s₀ es = (changes (last s₀) (history step status s₀ es)).flatMap f
      ∧ last s = (history step status s₀ es).getLastD (last s₀)) ?_ ⟨rfl, rfl⟩ hg hr
  intro es s e s' hr ⟨hlines, hlast⟩ hg h
  obtain ⟨hprints, hnext⟩ := hstep s e s' hg h
  rw [lines_append hr, lines_singleton, history_append hr, history_singleton, hlines, hprints,
    changes_append, ← hlast, hnext, List.flatMap_append]
  refine ⟨rfl, ?_⟩
  cases status s e with
  | none => simpa using hlast
  | some a => simp

end Lines

end Lib
