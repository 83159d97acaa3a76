import PgRos2.Proofs.Interval

/-!
# The setting in force

The end of an iteration goes by the interval the worker sampled, and the setting may have been
reloaded since. Where the setting of the moment still allows that interval the iteration ends as the
setting says, and otherwise it does not, if it ends at the wrong time (`setting_followed_iff`).
Without a reload that changes it the setting is in force all along (`along_inForce`).
-/

namespace PgRos2

open Lib

/-- How long discovery may stay empty. -/
def Settings.patience (settings : Settings) : Time :=
  max maxReinitAfter (seconds settings.rosReinitAfter)

/-- An interval rebuilds where the setting does, and no later than it allows. -/
structure Settings.Allows (settings : Settings) (r : Option Time) : Prop where
  off : settings.rosReinitAfter = 0 ↔ r = none
  within : ∀ T ∈ r, T ≤ settings.patience

/-- The setting of the moment allows the interval the worker sampled. -/
def World.InForce (w : World) : Prop := ∀ r ∈ w.interval, w.settings.Allows r

section InForce

variable [Rclrs] {w w' w₀ : World} {es : List Event}

/-- Where an iteration ends, the interval is in force. -/
def EndsInForce (w : World) (e : Event) : Prop := e = .decide → w.InForce

/-- The end of the iteration a run stands at goes by the setting of the moment. -/
def FollowsSetting (w₀ : World) (es : List Event) : Prop :=
  ∀ w w', run World.step w₀ es = some w → w.step .decide = some w' →
    (w.settings.rosReinitAfter = 0 → w'.outcome = none)
    ∧ (0 < w.settings.rosReinitAfter → ∀ since, Streak (· = .empty) (w₀.sights es) since →
      w.settings.patience ≤ w.now - since → w'.outcome.isSome)

/-- Every end of an iteration in a run goes by the setting of its moment. -/
def SettingFollowed (w₀ : World) (es : List Event) : Prop :=
  ∀ es₁ es₂, es = es₁ ++ .decide :: es₂ → FollowsSetting w₀ es₁

theorem decide_of_phase {o : Observer} {s : Session} (h : w.InPhase o s .decide) :
    w.step .decide = some (w.decide o s) := by
  obtain ⟨ho, hs, hp⟩ := h
  simp [World.step, World.workerStep, World.sessionStep, ho, hs, hp]

/-- Where an iteration ends, the timers hold the interval and follow the streaks. -/
theorem decide_timers (h₀ : w₀.timers = none) (hr : run World.step w₀ es = some w)
    (hd : w.step .decide = some w') : ∃ τ, w.timers = some τ ∧ w.interval = some τ.reinitAfter
      ∧ Tracks (· = .empty) (w₀.sights es) τ.emptySince w.now := by
  obtain ⟨o, s, ⟨ho, hs, -⟩, -⟩ := step_spec hd
  have hτ := timers_of_session ho hs
  exact ⟨_, hτ, by rw [World.interval, ho]; rfl, run_streak (.inl h₀) hr _ hτ⟩

omit [Rclrs] in
theorem elapsed_mono {T since s₀ now : ℤ} (h : T ≤ now - since) (hle : s₀ ≤ since) :
    T ≤ now - s₀ := by
  omega

theorem follows_of_inForce (h₀ : w₀.timers = none) (hr : run World.step w₀ es = some w)
    (hf : w.InForce) : FollowsSetting w₀ es := by
  intro m m' hm hd
  obtain rfl := Option.some.inj (hr.symm.trans hm)
  obtain ⟨τ, hτ, hint, htracks⟩ := decide_timers h₀ hr hd
  obtain ⟨hoff, hle⟩ := hf _ hint
  refine ⟨fun h0 => ?_, fun hpos since hs hlong => ?_⟩
  · rw [Option.eq_none_iff_forall_ne_some]
    intro sawGraph ho
    obtain ⟨-, -, -, T, hT, -⟩ := (outcome_eq_some hd hτ).mp ho
    rw [hoff.mp h0] at hT
    cases hT
  · have hon : τ.reinitAfter ≠ none := fun hnone => hpos.ne' (hoff.mpr hnone)
    obtain ⟨T, hT⟩ := Option.ne_none_iff_exists'.mp hon
    obtain ⟨s₀, hs₀, hfirst⟩ := htracks.first since hs
    have helapsed : T ≤ w.now - s₀ := elapsed_mono ((hle T hT).trans hlong) hfirst
    have ho : m'.outcome = some τ.sawGraph :=
      (outcome_eq_some hd hτ).mpr ⟨rfl, s₀, hs₀, T, hT, helapsed⟩
    rw [ho]
    rfl

omit [Rclrs] in
/-- A wait after which at least, or just, so much has elapsed. -/
theorem le_elapsed (T s₀ now : ℤ) : T ≤ now + (T - (now - s₀)).toNat - s₀ := by
  omega

omit [Rclrs] in
theorem elapsed_eq {T s₀ now : ℤ} (h : now - s₀ ≤ T) : now + (T - (now - s₀)).toNat - s₀ = T := by
  omega

theorem run_advance (hr : run World.step w₀ es = some w) (d : ℕ) :
    run World.step w₀ (es ++ [.advance d]) = some { w with now := w.now + d } :=
  run_append_eq_some.mpr ⟨w, hr, run_singleton.mpr rfl⟩

/-- What the setting asks of the iteration if it ends so much later. -/
theorem FollowsSetting.later {τ : Timers} {s₀ : Time} {d : ℕ}
    (hf : FollowsSetting w₀ (es ++ [.advance d])) (hr : run World.step w₀ es = some w)
    (hd : w.step .decide = some w') (hτ : w.timers = some τ) (hs₀ : τ.emptySince = some s₀)
    (hs : Streak (· = .empty) (w₀.sights es) s₀) :
    (w.settings.rosReinitAfter = 0 → ∀ T ∈ τ.reinitAfter, ¬ T ≤ w.now + d - s₀)
      ∧ (0 < w.settings.rosReinitAfter → w.settings.patience ≤ w.now + d - s₀ →
        ∃ T ∈ τ.reinitAfter, T ≤ w.now + d - s₀) := by
  obtain ⟨o, s, hp, -⟩ := step_spec hd
  have hd' : ({ w with now := w.now + d } : World).step .decide
      = some (({ w with now := w.now + d } : World).decide o s) := decide_of_phase hp
  have hτ' : ({ w with now := w.now + d } : World).timers = some τ := hτ
  obtain ⟨hoff, hon⟩ := hf _ _ (run_advance hr d) hd'
  have hsights : w₀.sights (es ++ [.advance d]) = w₀.sights es := by
    rw [sights_snoc hr]
    exact List.append_nil _
  refine ⟨fun h0 T hT hle => ?_, fun hpos hlong => ?_⟩
  · have hsome := (outcome_eq_some hd' hτ').mpr ⟨rfl, s₀, hs₀, T, hT, hle⟩
    rw [hoff h0] at hsome
    cases hsome
  · obtain ⟨sawGraph, ho⟩ := Option.isSome_iff_exists.mp
      (hon hpos s₀ (hsights ▸ hs) hlong)
    obtain ⟨-, s₁, hs₁, T, hT, hle⟩ := (outcome_eq_some hd' hτ').mp ho
    obtain rfl := Option.some.inj (hs₀.symm.trans hs₁)
    exact ⟨T, hT, hle⟩

/-- A streak that is not yet too long tells the interval by when the session ends. -/
theorem inForce_of_follows (h₀ : w₀.timers = none) (hr : run World.step w₀ es = some w)
    (hd : w.step .decide = some w') (hs : ∃ since, Streak (· = .empty) (w₀.sights es) since)
    (hearly : ∀ since, Streak (· = .empty) (w₀.sights es) since →
      w.now - since ≤ w.settings.patience)
    (hf : ∀ d, FollowsSetting w₀ (es ++ [.advance d])) : w.InForce := by
  obtain ⟨τ, hτ, hint, htracks⟩ := decide_timers h₀ hr hd
  obtain ⟨since, hs⟩ := hs
  obtain ⟨s₀, hs₀, -⟩ := htracks.first since hs
  have hstreak := htracks.streak s₀ hs₀
  have hlater (d : ℕ) := (hf d).later hr hd hτ hs₀ hstreak
  have hpatience := elapsed_eq (hearly s₀ hstreak)
  have hon (hpos : 0 < w.settings.rosReinitAfter) :
      ∃ T ∈ τ.reinitAfter, T ≤ w.settings.patience := by
    obtain ⟨T, hT, hle⟩ := (hlater _).2 hpos hpatience.ge
    exact ⟨T, hT, hle.trans hpatience.le⟩
  have hoff (h0 : w.settings.rosReinitAfter = 0) : τ.reinitAfter = none := by
    by_contra hsome
    obtain ⟨T, hT⟩ := Option.ne_none_iff_exists'.mp hsome
    exact (hlater _).1 h0 T hT (le_elapsed T s₀ w.now)
  intro r hr
  obtain rfl := Option.some.inj (hint.symm.trans hr)
  refine ⟨⟨hoff, fun hnone => ?_⟩, fun T hT => ?_⟩
  · by_contra h0
    obtain ⟨T, hT, -⟩ := hon (Nat.pos_of_ne_zero h0)
    rw [hnone] at hT
    cases hT
  · have hpos : 0 < w.settings.rosReinitAfter := by
      refine Nat.pos_of_ne_zero fun h0 => ?_
      rw [hoff h0] at hT
      cases hT
    obtain ⟨T', hT', hle⟩ := hon hpos
    obtain rfl := Option.some.inj (hT.symm.trans hT')
    exact hle

omit [Rclrs] in
theorem KeepsInterval.inForce (h : KeepsInterval w w') (hf : w.InForce) : w'.InForce := by
  intro r hr
  obtain ⟨o', ho', rfl⟩ := Option.map_eq_some_iff.mp hr
  obtain hgone | ⟨o, ho, o'', ho'', hsame, -⟩ := h.interval
  · rw [hgone] at ho'
    cases ho'
  · obtain rfl := Option.some.inj (ho''.symm.trans ho')
    rw [h.settings, hsame]
    exact hf _ (by rw [World.interval, ho]; rfl)

omit [Rclrs] in
theorem configured_allows (settings : Settings) :
    settings.Allows (configuredReinitAfter settings) := by
  unfold configuredReinitAfter
  split_ifs with hpos
  · refine ⟨iff_of_false hpos.ne' nofun, fun T hT => ?_⟩
    obtain rfl := Option.some.inj hT
    exact le_max_right _ _
  · exact ⟨iff_of_true (Nat.eq_zero_of_not_pos hpos) rfl, nofun⟩

omit [Rclrs] in
theorem next_allows (settings : Settings) (current : Option Time) (sawGraph : Bool) :
    settings.Allows (nextReinitAfter settings current sawGraph) := by
  have hconf := configured_allows settings
  rcases hc : configuredReinitAfter settings with _ | T <;> rw [hc] at hconf
  · have hnext : nextReinitAfter settings current sawGraph = none := by simp [nextReinitAfter, hc]
    exact hnext ▸ hconf
  · have hnext : nextReinitAfter settings current sawGraph = some T
        ∨ ∃ T₁, nextReinitAfter settings current sawGraph = some (min (T₁ * 2) maxReinitAfter) := by
      rcases current with _ | T₁
      · exact .inl (by cases sawGraph <;> simp [nextReinitAfter, hc])
      · cases sawGraph
        · exact .inr ⟨T₁, by simp [nextReinitAfter, hc]⟩
        · exact .inl (by simp [nextReinitAfter, hc])
    obtain hnext | ⟨T₁, hnext⟩ := hnext <;> rw [hnext]
    · exact hconf
    · refine ⟨hconf.off.trans (by simp), fun T' hT' => ?_⟩
      obtain rfl := Option.some.inj hT'
      exact (min_le_right _ _).trans (le_max_left _ _)

theorem step_inForce {c : ℕ} {e : Event} (hc : w.settings.rosReinitAfter = c) (hf : w.InForce)
    (hk : Constant c e) (h : w.step e = some w') :
    w'.settings.rosReinitAfter = c ∧ w'.InForce := by
  cases e with
  | reload settings =>
    cases h
    refine ⟨hk, fun r hr => ?_⟩
    obtain ⟨hoff, hwithin⟩ := hf r hr
    have hsame : settings.rosReinitAfter = w.settings.rosReinitAfter := hk.trans hc.symm
    refine ⟨hsame ▸ hoff, ?_⟩
    rw [Settings.patience, hsame]
    exact hwithin
  | startWorker pid =>
    obtain ⟨-, rfl⟩ := step_spec h
    refine ⟨hc, fun r hr => ?_⟩
    obtain rfl := Option.some.inj hr
    exact configured_allows w.settings
  | beginSession =>
    obtain ⟨o, ho, hs, ⟨o', ho', -⟩, hr, -⟩ := beginSession_interval h
    refine ⟨hs ▸ hc, fun r hr' => ?_⟩
    obtain ⟨o'', ho'', rfl⟩ := Option.map_eq_some_iff.mp hr'
    obtain rfl := Option.some.inj (ho'.symm.trans ho'')
    rw [World.reinitAfter, ho', Option.bind_some] at hr
    rw [hs, hr]
    rcases hout : w.outcome with _ | sawGraph
    · exact hf _ (by rw [World.interval, ho]; rfl)
    · exact next_allows w.settings o.reinitAfter sawGraph
  | _ =>
    have hkeeps := step_keepsInterval h trivial
    exact ⟨hkeeps.settings ▸ hc, hkeeps.inForce hf⟩

/-- Without a reload that changes it, the setting is in force all along. -/
theorem run_inForce {c : ℕ} {settings : Settings} (hs : settings.rosReinitAfter = c)
    (hk : ∀ e ∈ es, Constant c e) (hr : run World.step (.initial settings) es = some w) :
    w.InForce := by
  have hinit : (World.initial settings).InForce := fun r hr => absurd hr (Option.not_mem_none r)
  have hkeeps : Along World.step (fun _ e => Constant c e) (.initial settings) es :=
    along_of_forall hk
  refine (run_inv (I := fun w => w.settings.rosReinitAfter = c ∧ w.InForce) ?_ hkeeps hr
    ⟨hs, hinit⟩).2
  exact fun w e w' hI hk h => step_inForce hI.1 hI.2 hk h

/-- Without a reload that changes it, no iteration ends out of force. -/
theorem along_inForce {c : ℕ} {settings : Settings} (hs : settings.rosReinitAfter = c)
    (hk : ∀ e ∈ es, Constant c e) : Along World.step EndsInForce (.initial settings) es :=
  along_of_steps fun es₁ e es₂ m hes hm _ =>
    run_inForce hs (fun e' he' => hk e' (by simp [hes, he'])) hm

theorem settingFollowed_of_inForce (h₀ : w₀.timers = none)
    (hf : Along World.step EndsInForce w₀ es) : SettingFollowed w₀ es := by
  intro es₁ es₂ hes m m' hm hd
  rw [hes] at hf
  have hforce : m.InForce := (hf.append hm).1 rfl
  exact follows_of_inForce h₀ hm hforce m m' hm hd

/-- In a run whose iterations end with the interval the worker sampled in force, each ends as the
setting of its moment says; and one that ends where the graph has been empty no longer than the
setting asks for goes by the setting however late it comes exactly when the interval is in force. -/
theorem setting_followed_iff {settings : Settings} :
    (Along World.step EndsInForce (.initial settings) es → SettingFollowed (.initial settings) es)
      ∧ ∀ w w', run World.step (.initial settings) es = some w → w.step .decide = some w' →
        (∃ since, Streak (· = .empty) ((World.initial settings).sights es) since) →
        (∀ since, Streak (· = .empty) ((World.initial settings).sights es) since →
          w.now - since ≤ w.settings.patience) →
        ((∀ d, FollowsSetting (.initial settings) (es ++ [.advance d])) ↔ w.InForce) := by
  have h₀ : (World.initial settings).timers = none := rfl
  refine ⟨settingFollowed_of_inForce h₀, fun w w' hr hd hs hearly => ?_⟩
  refine ⟨inForce_of_follows h₀ hr hd hs hearly, fun hf d => ?_⟩
  exact follows_of_inForce h₀ (run_advance hr d) hf

end InForce

section Reloads

open Reference

/-- A session whose setting is changed between two observations of an empty graph. -/
def reloaded (settings : Settings) (n : ℕ) : List Event :=
  [.createExtension, .startWorker 1, .beginSession, .advance 1000000] ++ toGraph .idle
    ++ [.observe (.ok aloneGraph), .startPoll .refused, .decide, .reload settings, .advance n,
      .graphChange]
    ++ toGraph .idle ++ [.observe (.ok aloneGraph)]

def disabled : Settings := { Settings.default with rosReinitAfter := 0 }

theorem reloaded_sights : (World.initial .default).sights (reloaded .default 10000000)
    = [(0, .begun), (1000000, .empty), (11000000, .empty)] := by
  decide +kernel

theorem default_followed : ∃ w, run World.step (.initial .default) (reloaded .default 10000000)
      = some w
    ∧ SettingFollowed (.initial .default) (reloaded .default 10000000 ++ [.decide])
    ∧ ∀ d, FollowsSetting (.initial .default) (reloaded .default 10000000 ++ [.advance d]) := by
  have h : ((run World.step (.initial .default) (reloaded .default 10000000)).any fun w =>
      (w.step .decide).any fun _ => decide (w.now = 11000000
        ∧ w.settings.rosReinitAfter = 30)) = true := by
    decide +kernel
  simp only [Option.any_eq_true, decide_eq_true_eq] at h
  obtain ⟨w, hr, w', hd, hnow, hset⟩ := h
  have hk : ∀ e ∈ reloaded .default 10000000 ++ [.decide], Constant 30 e := by
    simp [reloaded, toGraph, Constant, Settings.default]
  have hf : w.InForce := run_inForce rfl (fun e he => hk e (List.mem_append_left _ he)) hr
  refine ⟨w, hr, setting_followed_iff.1 (along_inForce rfl hk),
    (setting_followed_iff.2 w w' hr hd ⟨1000000, ?_⟩ ?_).mpr hf⟩
  · rw [reloaded_sights]
    exact ⟨[(0, .begun)], .empty, [(11000000, .empty)], rfl, rfl, by simp⟩
  · rw [reloaded_sights, hnow, Settings.patience, hset]
    rintro since ⟨before, k, rest, hs, -⟩
    have hmem : (since, k) ∈ [((0 : Time), Sight.begun), (1000000, .empty),
        (11000000, .empty)] := by
      rw [hs]
      exact List.mem_append_right _ List.mem_cons_self
    simp only [List.mem_cons, Prod.mk.injEq, List.not_mem_nil, or_false] at hmem
    obtain ⟨rfl, -⟩ | ⟨rfl, -⟩ | ⟨rfl, -⟩ := hmem <;> decide

/-- A session that began with the setting on is ended with the setting off, and one that began with
it off is not ended with it on, however long it was blind. -/
theorem setting_not_followed :
    ¬ SettingFollowed (.initial .default) (reloaded disabled 30000000 ++ [.decide])
      ∧ ¬ SettingFollowed (.initial disabled) (reloaded .default 600000000 ++ [.decide]) := by
  refine ⟨fun hfollows => ?_, fun hfollows => ?_⟩
  · have h : ((run World.step (.initial .default) (reloaded disabled 30000000)).any fun w =>
        (w.step .decide).any fun w' => decide (w.settings.rosReinitAfter = 0
          ∧ w'.outcome = some false)) = true := by
      decide +kernel
    simp only [Option.any_eq_true, decide_eq_true_eq] at h
    obtain ⟨w, hr, w', hd, h0, hout⟩ := h
    rw [(hfollows _ [] rfl w w' hr hd).1 h0] at hout
    cases hout
  · have hsights : (World.initial disabled).sights (reloaded .default 600000000)
        = [(0, .begun), (1000000, .empty), (601000000, .empty)] := by
      decide +kernel
    have h : ((run World.step (.initial disabled) (reloaded .default 600000000)).any fun w =>
        (w.step .decide).any fun w' => decide (w.settings.rosReinitAfter = 30
          ∧ w.now = 601000000 ∧ w'.outcome = none)) = true := by
      decide +kernel
    simp only [Option.any_eq_true, decide_eq_true_eq] at h
    obtain ⟨w, hr, w', hd, h30, hnow, hout⟩ := h
    have hsome := (hfollows _ [] rfl w w' hr hd).2 (by omega) 1000000
      ⟨[(0, .begun)], .empty, [(601000000, .empty)], hsights, rfl, by simp⟩
      (by rw [Settings.patience, h30, hnow]; decide)
    rw [hout] at hsome
    cases hsome

end Reloads

end PgRos2
