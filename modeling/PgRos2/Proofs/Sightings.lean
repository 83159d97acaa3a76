import PgRos2.Lib.Streak
import PgRos2.Proofs.Blind

/-!
# What a session has seen

The timer of an empty graph stands at the start of the streak of empty graphs that the observations
so far end in, over any run of the worker (`run_streak`), and the session has seen a peer when one
of its observations did (`run_saw`). So a session that ends was blind for its whole interval, and a
participant that reads a peer, fails to read or finds no extension starts from nothing
(`torn_down_blind`).
-/

namespace PgRos2

open Lib

section

variable [Rclrs] {w w' : World} {e : Event}

/-! ## Steps -/

theorem step_lost (h : w.step e = some w') (hl : (w.act e).loses = true)
    (hb : e ≠ .beginSession) : w'.timers = none := by
  have hends : w.Ends e → w'.timers = none := fun he => by
    rw [World.timers, (act_of_ends h).mp he]
    rfl
  have hs := step_spec h
  cases e with
  | crash | terminate | abort =>
    subst hs
    rfl
  | fail error =>
    obtain ⟨o, -, rfl⟩ := hs
    rfl
  | beginSession => exact absurd rfl hb
  | flush =>
    change (if w.Ends .flush then Act.lose else _).loses = true at hl
    split_ifs at hl with he
    · exact hends he
    · cases hl
    · cases hl
  | tick answers =>
    change (if w.Ends (.tick answers) then Act.lose else .quiet).loses = true at hl
    split_ifs at hl with he
    · exact hends he
    · cases hl
  | startPoll answers =>
    change (if w.Ends (.startPoll answers) then Act.lose else .quiet).loses = true at hl
    split_ifs at hl with he
    · exact hends he
    · cases hl
  | insert topic requestedType registeredAt keepaliveAt =>
    change (if w.extension.isSome ∧ w.row topic = none then
      Act.insert topic requestedType keepaliveAt else .quiet).loses = true at hl
    split_ifs at hl <;> cases hl
  | readDesired answers =>
    rcases answers with error | answers
    · cases hl
    · change (if w.Reads then Act.read answers _ _ else .quiet).loses = true at hl
      split_ifs at hl <;> cases hl
  | _ => cases hl

/-- But where a session begins, the timers come from those before. -/
theorem step_timers_from (h : w.step e = some w') (hb : e ≠ .beginSession) :
    ∀ τ' ∈ w'.timers, ∃ τ ∈ w.timers, τ' = τ.sighted (w.sighting e) := by
  intro τ' hτ'
  rcases hl : (w.act e).loses with _ | _
  · rw [step_sighted h hl] at hτ'
    obtain ⟨τ, hτ, rfl⟩ := Option.map_eq_some_iff.mp hτ'
    exact ⟨τ, hτ, rfl⟩
  · rw [step_lost h hl hb] at hτ'
    cases hτ'

theorem sighting_eq (hb : e ≠ .beginSession) :
    w.sighting e = (w.observed e).map fun p => (w.now, w.sight p.1 p.2) := by
  cases e with
  | beginSession => exact absurd rfl hb
  | _ => rfl

theorem sighting_now {n : Time × Sight} (hn : n ∈ w.sighting e) : n.1 = w.now := by
  by_cases hb : e = .beginSession
  · subst hb
    obtain rfl := Option.some.inj hn
    rfl
  · rw [sighting_eq hb] at hn
    obtain ⟨p, -, rfl⟩ := Option.map_eq_some_iff.mp hn
    rfl

omit [Rclrs] in
theorem sight_ne_begun (o : Observer) (graph : Except String RosGraph) :
    w.sight o graph ≠ .begun := by
  unfold World.sight
  split
  · nofun
  · nofun
  · simp only []
    split <;> nofun

theorem sighting_ne_begun (hb : e ≠ .beginSession) {n : Time × Sight} (hn : n ∈ w.sighting e) :
    n.2 ≠ .begun := by
  rw [sighting_eq hb] at hn
  obtain ⟨p, -, rfl⟩ := Option.map_eq_some_iff.mp hn
  exact sight_ne_begun p.1 p.2

end

section Sighted

variable {τ : Timers} {sights : List (Time × Sight)} {n : Option (Time × Sight)} {now : Time}

theorem sighted_reinitAfter (τ : Timers) : ∀ n, (τ.sighted n).reinitAfter = τ.reinitAfter
  | none => rfl
  | some (_, sight) => by cases sight <;> rfl

theorem sighted_tracks (h : Tracks (· = .empty) sights τ.emptySince now) (hn : ∀ x ∈ n, x.1 = now) :
    Tracks (· = .empty) (sights ++ n.toList) (τ.sighted n).emptySince now := by
  rcases n with _ | ⟨t, sight⟩
  · rw [Option.toList_none, List.append_nil]
    exact h
  · obtain rfl : t = now := hn _ rfl
    cases sight with
    | empty => exact h.hit rfl
    | begun => exact .miss nofun sights _ _
    | absent => exact .miss nofun sights _ _
    | failed => exact .miss nofun sights _ _
    | peers => exact .miss nofun sights _ _

theorem sighted_saw (h : τ.sawGraph = true ↔ ∃ t, (t, Sight.peers) ∈ sights)
    (hn : ∀ x ∈ n, x.2 ≠ .begun) :
    (τ.sighted n).sawGraph = true ↔ ∃ t, (t, Sight.peers) ∈ sights ++ n.toList := by
  rcases n with _ | ⟨t, sight⟩
  · rw [Option.toList_none, List.append_nil]
    exact h
  · cases sight with
    | begun => exact absurd rfl (hn _ rfl)
    | peers => exact iff_of_true rfl ⟨t, by simp⟩
    | _ => simpa [Timers.sighted] using h

end Sighted

/-! ## Runs -/

section Runs

variable [Rclrs] {w w₀ : World} {es : List Event}

/-- What a run showed of its sessions. -/
def World.sights (w₀ : World) (es : List Event) : List (Time × Sight) :=
  history World.step World.sighting w₀ es

theorem sights_snoc {e : Event} (hr : run World.step w₀ es = some w) :
    w₀.sights (es ++ [e]) = w₀.sights es ++ (w.sighting e).toList := by
  unfold World.sights
  rw [history_append hr, history_singleton]

/-- The timer follows the streaks of empty graphs, whatever sessions and workers come and go. -/
theorem run_streak (h₀ : w₀.timers = none ∨ ∃ r, w₀.timers = some ⟨r, none, false⟩)
    (hr : run World.step w₀ es = some w) : ∀ τ ∈ w.timers,
      Tracks (· = .empty) (w₀.sights es) τ.emptySince w.now := by
  refine run_history (G := fun _ _ => True) (I := fun es w => ∀ τ ∈ w.timers,
    Tracks (· = .empty) (w₀.sights es) τ.emptySince w.now) ?_ ?_
    (along_true es w₀) hr
  · intro es w e w' hr ih _ h τ' hτ'
    rw [sights_snoc hr]
    by_cases hb : e = .beginSession
    · subst hb
      rw [beginSession_timers h] at hτ'
      cases hτ'
      exact .miss nofun _ _ _
    · obtain ⟨τ, hτ, rfl⟩ := step_timers_from h hb τ' hτ'
      exact (sighted_tracks (ih τ hτ) fun _ => sighting_now).wait (step_now h)
  · intro τ hτ
    rcases h₀ with h₀ | ⟨r, h₀⟩ <;> rw [h₀] at hτ <;> cases hτ
    exact .nil _

/-- While a session lasts it keeps its interval, and has seen a peer when an observation did. -/
theorem run_saw {r : Option Time} (h₀ : w₀.timers = some ⟨r, none, false⟩)
    (hes : .beginSession ∉ es) (hr : run World.step w₀ es = some w) : ∀ τ ∈ w.timers,
      τ.reinitAfter = r ∧ (τ.sawGraph = true
        ↔ ∃ t, (t, Sight.peers) ∈ w₀.sights es) := by
  refine run_history (G := fun _ e => e ≠ .beginSession) (I := fun es w => ∀ τ ∈ w.timers,
    τ.reinitAfter = r ∧ (τ.sawGraph = true
      ↔ ∃ t, (t, Sight.peers) ∈ w₀.sights es)) ?_ ?_
    (along_of_forall fun _ he => ne_of_mem_of_not_mem he hes) hr
  · intro es w e w' hr ih hb h τ' hτ'
    obtain ⟨τ, hτ, rfl⟩ := step_timers_from h hb τ' hτ'
    obtain ⟨hT, hsaw⟩ := ih τ hτ
    rw [sights_snoc hr]
    exact ⟨(sighted_reinitAfter τ _).trans hT, sighted_saw hsaw fun _ => sighting_ne_begun hb⟩
  · intro τ hτ
    rw [h₀] at hτ
    cases hτ
    exact ⟨rfl, by simp [World.sights, history]⟩

theorem timers_of_decide {w' : World} (h : w.step .decide = some w') : ∃ τ, w.timers = some τ := by
  obtain ⟨o, s, ⟨ho, hs, -⟩, -⟩ := step_spec h
  exact ⟨_, timers_of_session ho hs⟩

/-- What ends a session: an interval, and a timer that ran for as long. -/
theorem outcome_eq_some {w' : World} {τ : Timers} {sawGraph : Bool} (h : w.step .decide = some w')
    (hτ : w.timers = some τ) : w'.outcome = some sawGraph ↔ τ.sawGraph = sawGraph
      ∧ ∃ since ∈ τ.emptySince, ∃ T ∈ τ.reinitAfter, T ≤ w.now - since := by
  rw [decide_outcome h hτ]
  simp only [Option.bind_eq_some_iff, Option.ite_none_right_eq_some, Option.some.injEq,
    Option.mem_def]
  tauto

/-- Whatever a session observed, it ends after its interval of empty graphs, every observation of
which found the extension and read the graph, and it has seen a peer exactly when an observation
did. -/
theorem torn_down_blind {w w₀ w₁ w₂ : World} {es : List Event} {sawGraph : Bool}
    (hb : w.step .beginSession = some w₀) (hr : run World.step w₀ es = some w₁)
    (hes : .beginSession ∉ es) (hd : w₁.step .decide = some w₂)
    (ho : w₂.outcome = some sawGraph) :
    ∃ T, w₀.reinitAfter = some T
      ∧ (∃ since, Streak (· = .empty) (w₀.sights es) since
        ∧ T ≤ w₁.now - since)
      ∧ (sawGraph = true ↔ ∃ t, (t, Sight.peers) ∈ w₀.sights es) := by
  have hstart := beginSession_timers hb
  obtain ⟨τ, hτ⟩ := timers_of_decide hd
  obtain ⟨hT, hsaw⟩ := run_saw hstart hes hr τ hτ
  have htracks := run_streak (.inr ⟨_, hstart⟩) hr τ hτ
  obtain ⟨rfl, since, hsince, T, hT', hle⟩ := (outcome_eq_some hd hτ).mp ho
  exact ⟨T, hT ▸ hT', ⟨since, htracks.streak since hsince, hle⟩, hsaw⟩

end Runs

section Witness

open Reference

/-- A session's observations of a graph that stays empty for half a minute. -/
def blindMinute : List Event :=
  .advance 1000000 :: toGraph .idle ++ .observe (.ok aloneGraph) :: halfMinute aloneGraph

theorem blindMinute_one : .beginSession ∉ blindMinute := by
  simp [blindMinute, toGraph, halfMinute]

theorem torn_down_alone : ∃ w₀ w₁ w₂, run World.step w₀ blindMinute = some w₁
    ∧ w₁.step .decide = some w₂ ∧ w₂.outcome = some false
    ∧ ∃ T, w₀.reinitAfter = some T
      ∧ ∃ since, Streak (· = .empty) (w₀.sights blindMinute) since
        ∧ T ≤ w₁.now - since := by
  have h : ((run World.step (.initial .default) isolatedChat).any fun w =>
      (w.step .beginSession).any fun w₀ => (run World.step w₀ blindMinute).any fun w₁ =>
        (w₁.step .decide).any fun w₂ => decide (w₂.outcome = some false)) = true := by
    decide +kernel
  simp only [Option.any_eq_true, decide_eq_true_eq] at h
  obtain ⟨w, -, w₀, hb, w₁, hr, w₂, hd, ho⟩ := h
  obtain ⟨T, hT, hstreak, -⟩ := torn_down_blind hb hr blindMinute_one hd ho
  exact ⟨w₀, w₁, w₂, hr, hd, ho, T, hT, hstreak⟩

end Witness

end PgRos2
