import PgRos2.Proofs.Sightings

/-!
# The rebuild interval

The worker samples its interval when the process starts and when it rebuilds the context, and no
other step changes it (`step_keepsInterval`). While the setting stays as it is, a session that saw
nothing is followed by one with an interval as long or longer, unless the setting is longer than
the longest interval there is: then it is cut to that (`backsOff_iff`). So the backoff grows along
a run, and no session is rebuilt before it was blind for as long as the setting says, exactly when
no session that saw nothing is rebuilt with such a setting (`backoff_grows_iff`).
-/

namespace PgRos2

open Lib

/-- The interval the worker goes by, if there is one. -/
def World.interval (w : World) : Option (Option Time) := w.worker.map Observer.reinitAfter

/-- The setting stays, and the interval unless the worker ends. -/
structure KeepsInterval (w w' : World) : Prop where
  settings : w'.settings = w.settings
  interval : w'.worker = none ∨ ∃ o ∈ w.worker, ∃ o' ∈ w'.worker,
    o'.reinitAfter = o.reinitAfter ∧ (o'.session = none → o.session = none)

section Steps

variable {w w' : World} {o : Observer} {s : Session}

theorem KeepsInterval.of_lose (w : World) (ext : Option Extension) :
    KeepsInterval w { w with worker := none, extension := ext } :=
  ⟨rfl, .inl rfl⟩

theorem KeepsInterval.of_same (hs : w'.settings = w.settings) (hw : w'.worker = w.worker) :
    KeepsInterval w w' := by
  refine ⟨hs, ?_⟩
  rcases ho : w.worker with _ | o
  · exact .inl (hw.trans ho)
  · exact .inr ⟨o, rfl, o, hw.trans ho, rfl, id⟩

theorem KeepsInterval.of_resume (ho : w.worker = some o) (ext : Option Extension) (o' : Observer)
    (s : Session) (hr : o'.reinitAfter = o.reinitAfter) :
    KeepsInterval w ({ w with extension := ext }.resume o' s) :=
  ⟨rfl, .inr ⟨o, ho, _, rfl, hr, nofun⟩⟩

theorem PollStep.keepsInterval (ho : w.worker = some o) (h : PollStep w o s w') :
    KeepsInterval w w' := by
  obtain rfl | ⟨f, previousParameters, parameterExtension, phase, _, _, -, -, rfl⟩ := h
  · exact .of_lose w w.extension
  · exact .of_resume ho _ _ _ rfl

theorem SubscriptionStep.keepsInterval (ho : w.worker = some o)
    (h : SubscriptionStep w o s w') : KeepsInterval w w' := by
  obtain ⟨ext, subscriptions, phase, dirty, _, _, -, -, rfl⟩ := h
  exact .of_resume ho ext _ _ rfl

theorem observe_keepsInterval (ho : w.worker = some o) (graph : Except String RosGraph) :
    KeepsInterval w (w.observe o s graph) := by
  by_cases hdue : w.Due s
  · rcases hx : w.extension with _ | ext
    · rw [World.observe_of_absent hdue hx]
      exact .of_resume ho w.extension _ _ rfl
    · rcases graph with error | graph
      · rw [World.observe_of_error hdue hx]
        exact .of_resume ho _ _ _ rfl
      · obtain ⟨phase, -, hobs⟩ := World.observe_of_ok (o := o) hdue hx graph
        rw [hobs]
        exact .of_resume ho _ _ _ rfl
  · rw [World.observe_of_not_due hdue]
    exact .of_resume ho w.extension _ _ rfl

variable [Rclrs]

/-- A step that neither changes the settings nor samples them. -/
theorem step_keepsInterval {e : Event} (h : w.step e = some w') (he : match e with
      | .reload _ | .startWorker _ | .beginSession => False
      | _ => True) : KeepsInterval w w' := by
  have h := step_spec h
  cases e with
  | advance _ | insert _ _ _ _ | delete _ | keepalive _ _ | dropExtension =>
    exact h ▸ .of_same rfl rfl
  | createExtension => exact h.2 ▸ .of_same rfl rfl
  | reload settings => exact he.elim
  | startWorker pid => exact he.elim
  | beginSession => exact he.elim
  | crash | terminate | abort => exact h ▸ .of_lose w w.extension
  | fail error =>
    obtain ⟨o, -, rfl⟩ := h
    exact .of_lose w _
  | flush =>
    obtain ⟨o, s, now, ⟨ho, -⟩, rfl⟩ := h
    obtain hlost | hs := flush_spec now
    · exact hlost ▸ .of_lose w w.extension
    · exact hs.keepsInterval ho
  | tick answers =>
    obtain ⟨o, s, ⟨ho, -⟩, rfl⟩ := h
    exact (tick_spec s answers).keepsInterval ho
  | observe graph =>
    obtain ⟨o, s, ⟨ho, -⟩, rfl⟩ := h
    exact observe_keepsInterval ho graph
  | startPoll answers =>
    obtain ⟨o, s, nodes, ⟨ho, -⟩, rfl⟩ := h
    exact (startPoll_spec s nodes answers).keepsInterval ho
  | _ =>
    obtain ⟨o, s, ho, -, hs⟩ := SubscriptionStep.of_spec h trivial
    exact hs.keepsInterval ho

/-- What a session that begins goes by: the interval sampled at the start of the process, or the one
that follows the outcome of the session before. -/
theorem beginSession_interval (h : w.step .beginSession = some w') : ∃ o ∈ w.worker,
    w'.settings = w.settings ∧ (∃ o' ∈ w'.worker, o'.session.isSome)
      ∧ w'.reinitAfter = w.outcome.elim o.reinitAfter (nextReinitAfter w.settings o.reinitAfter)
      ∧ (w.outcome = none → o.session = none) := by
  rcases ho : w.worker with _ | o
  · simp [World.step, ho] at h
  · simp only [World.step, ho, World.workerStep] at h
    refine ⟨o, rfl, ?_⟩
    split at h
    · rename_i hs
      cases h
      refine ⟨rfl, ⟨_, rfl, rfl⟩, ?_, fun _ => hs⟩
      simp [World.outcome, World.reinitAfter, World.resume, ho, hs]
    · rename_i s hs
      split at h
      · rename_i sawGraph hp
        cases h
        have hout : w.outcome = some sawGraph := by simp [World.outcome, ho, hs, hp]
        rw [hout]
        exact ⟨rfl, ⟨_, rfl, rfl⟩, rfl, fun hno => absurd hno (Option.some_ne_none _)⟩
      · cases h

end Steps

/-! ## Backoff -/

theorem seconds_le_iff {m n : ℕ} : seconds m ≤ seconds n ↔ m ≤ n := by
  show (m * 1000000 : ℤ) ≤ n * 1000000 ↔ m ≤ n
  omega

theorem seconds_nonneg (n : ℕ) : 0 ≤ seconds n := by
  show 0 ≤ (n * 1000000 : ℤ)
  omega

theorem le_double {T : ℤ} (h : 0 ≤ T) : T ≤ T * 2 := by
  omega

/-- The interval of a worker while the setting stays at `c`. -/
structure Sampled (c : ℕ) (w : World) : Prop where
  setting : w.settings.rosReinitAfter = c
  interval : ∀ o ∈ w.worker, ∃ T, o.reinitAfter = some T ∧ seconds c ≤ T
    ∧ (c ≤ 600 → T ≤ maxReinitAfter) ∧ (o.session = none → T = seconds c)

/-- The interval of a session that begins: the setting, for the first one of a process and after one
that saw a peer, and after one that saw nothing no less than the interval it had, twice that or the
longest there is. -/
structure BacksOff (c : ℕ) (w w' : World) : Prop where
  reset : w.outcome ≠ some false → w'.reinitAfter = some (seconds c)
  grow : w.outcome = some false → ∃ T T', w.reinitAfter = some T ∧ w'.reinitAfter = some T'
    ∧ T ≤ T' ∧ (T' = T * 2 ∨ T' = maxReinitAfter)

theorem configured_of_pos {c : ℕ} {settings : Settings} (hc : 0 < c)
    (hs : settings.rosReinitAfter = c) : configuredReinitAfter settings = some (seconds c) := by
  rw [configuredReinitAfter, hs, if_pos hc]

theorem KeepsInterval.sampled {c : ℕ} {w w' : World} (h : KeepsInterval w w')
    (hI : Sampled c w) : Sampled c w' := by
  refine ⟨h.settings ▸ hI.setting, fun o' ho' => ?_⟩
  obtain hgone | ⟨o, ho, o'', ho'', hr, hs⟩ := h.interval
  · rw [hgone] at ho'
    cases ho'
  · obtain rfl := Option.some.inj (ho''.symm.trans ho')
    obtain ⟨T, hT, hle, hcap, hfresh⟩ := hI.interval o ho
    exact ⟨T, hr.trans hT, hle, hcap, fun hnone => hfresh (hs hnone)⟩

section Backoff

variable [Rclrs] {c : ℕ} {w w' w₀ : World} {e : Event} {es : List Event}

/-- Along a run every session backs off, and none is rebuilt before it was blind for `c` seconds. -/
def BackoffGrows (c : ℕ) (w₀ : World) (es : List Event) : Prop :=
  ∀ es₁ e es₂ w w', es = es₁ ++ e :: es₂ → run World.step w₀ es₁ = some w → w.step e = some w' →
    (e = .beginSession → BacksOff c w w')
    ∧ (e = .decide → w'.outcome.isSome → ∃ since, Streak (· = .empty) (w₀.sights es₁) since
      ∧ seconds c ≤ w.now - since)

/-- A session that saw nothing is rebuilt only where the setting is within the longest interval. -/
def RebuiltWithin (c : ℕ) (w : World) (e : Event) : Prop :=
  e = .beginSession → w.outcome = some false → c ≤ 600

/-- The reloads keep the setting. -/
def Constant (c : ℕ) : Event → Prop
  | .reload settings => settings.rosReinitAfter = c
  | _ => True

/-- The interval of the session that begins, by the outcome of the one before. -/
theorem begins (hc : 0 < c) (hI : Sampled c w) (h : w.step .beginSession = some w') :
    ∃ T, w.reinitAfter = some T ∧ seconds c ≤ T ∧ (c ≤ 600 → T ≤ maxReinitAfter)
      ∧ w'.reinitAfter = some (if w.outcome = some false then min (T * 2) maxReinitAfter
        else seconds c) := by
  obtain ⟨o, ho, -, -, hr, hfirst⟩ := beginSession_interval h
  obtain ⟨T, hT, hle, hcap, hfresh⟩ := hI.interval o ho
  have hconf := configured_of_pos hc hI.setting
  refine ⟨T, by rw [World.reinitAfter, ho, Option.bind_some, hT], hle, hcap, ?_⟩
  rw [hr]
  rcases hout : w.outcome with _ | _ | _
  · rw [Option.elim_none, hT, hfresh (hfirst hout)]
    rfl
  · simp [nextReinitAfter, hconf, hT]
  · simp [nextReinitAfter, hconf]

/-- A session backs off unless it follows one that saw nothing and the setting is too long. -/
theorem backsOff_iff (hc : 0 < c) (hI : Sampled c w) (h : w.step .beginSession = some w') :
    BacksOff c w w' ↔ (w.outcome = some false → c ≤ 600) := by
  obtain ⟨T, hT, hle, hcap, hT'⟩ := begins hc hI h
  constructor
  · intro hb hout
    obtain ⟨T₁, T₂, hT₁, hT₂, hgrow, -⟩ := hb.grow hout
    obtain rfl := Option.some.inj (hT.symm.trans hT₁)
    rw [hT', if_pos hout] at hT₂
    obtain rfl := Option.some.inj hT₂
    exact seconds_le_iff.mp (hle.trans (hgrow.trans (min_le_right _ _)))
  · intro hlim
    refine ⟨fun hout => by rw [hT', if_neg hout], fun hout => ?_⟩
    rw [if_pos hout] at hT'
    have hpos : 0 ≤ T := (seconds_nonneg c).trans hle
    refine ⟨T, _, hT, hT', le_min (le_double hpos) (hcap (hlim hout)), ?_⟩
    exact min_choice (T * 2) maxReinitAfter

theorem step_sampled (hc : 0 < c) (hI : Sampled c w) (hk : Constant c e)
    (hg : RebuiltWithin c w e) (h : w.step e = some w') : Sampled c w' := by
  cases e with
  | reload settings =>
    cases h
    exact ⟨hk, hI.interval⟩
  | startWorker pid =>
    obtain ⟨-, rfl⟩ := step_spec h
    refine ⟨hI.setting, fun o ho => ?_⟩
    obtain rfl := Option.some.inj ho
    refine ⟨seconds c, configured_of_pos hc hI.setting, le_rfl, fun hcap => ?_, fun _ => rfl⟩
    exact seconds_le_iff.mpr hcap
  | beginSession =>
    obtain ⟨T, -, hle, -, hT'⟩ := begins hc hI h
    obtain ⟨-, -, hs, ⟨o', ho', hsome⟩, -⟩ := beginSession_interval h
    refine ⟨hs ▸ hI.setting, fun o ho => ?_⟩
    obtain rfl := Option.some.inj (ho'.symm.trans ho)
    rw [World.reinitAfter, ho', Option.bind_some] at hT'
    refine ⟨_, hT', ?_, fun hcap => ?_, fun hnone => ?_⟩
    · split_ifs with hout
      · have hpos : 0 ≤ T := (seconds_nonneg c).trans hle
        exact le_min (hle.trans (le_double hpos)) (seconds_le_iff.mpr (hg rfl hout))
      · exact le_rfl
    · split_ifs
      · exact min_le_right _ _
      · exact seconds_le_iff.mpr hcap
    · rw [hnone] at hsome
      cases hsome
  | _ => exact (step_keepsInterval h trivial).sampled hI

omit [Rclrs] in
theorem sampled_initial {settings : Settings} (hs : settings.rosReinitAfter = c) :
    Sampled c (.initial settings) :=
  ⟨hs, fun o ho => absurd ho (Option.not_mem_none o)⟩

theorem run_sampled {settings : Settings} (hc : 0 < c) (hs : settings.rosReinitAfter = c)
    (hk : ∀ e ∈ es, Constant c e) (hg : Along World.step (RebuiltWithin c) (.initial settings) es)
    (hr : run World.step (.initial settings) es = some w) : Sampled c w :=
  run_inv (fun _ _ _ hI hg h => step_sampled hc hI hg.1 hg.2 h) ((along_of_forall hk).and hg) hr
    (sampled_initial hs)

/-- What a session is rebuilt after. -/
theorem blind_for {settings : Settings} (hI : Sampled c w)
    (hr : run World.step (.initial settings) es = some w) (h : w.step .decide = some w')
    (ho : w'.outcome.isSome) :
    ∃ since, Streak (· = .empty) ((World.initial settings).sights es) since
      ∧ seconds c ≤ w.now - since := by
  obtain ⟨sawGraph, ho⟩ := Option.isSome_iff_exists.mp ho
  obtain ⟨o, s, ⟨hw, hs, -⟩, -⟩ := step_spec h
  have hτ := timers_of_session hw hs
  obtain ⟨-, since, hsince, T, hT, hle⟩ := (outcome_eq_some h hτ).mp ho
  obtain ⟨T', hT', hc, -⟩ := hI.interval o hw
  obtain rfl := Option.some.inj (hT'.symm.trans hT)
  have h₀ : (World.initial settings).timers = none := rfl
  have htracks := run_streak (.inl h₀) hr _ hτ
  exact ⟨since, htracks.streak since hsince, hc.trans hle⟩

/-- Every session of a run backs off, so the setting is never too long for one that saw nothing. -/
theorem rebuiltWithin_of_backsOff {w₀ : World} (hc : 0 < c) (hI : Sampled c w₀)
    (hk : ∀ e ∈ es, Constant c e)
    (hb : Along World.step (fun w e => e = .beginSession →
      ∃ w', w.step e = some w' ∧ BacksOff c w w') w₀ es) :
    Along World.step (RebuiltWithin c) w₀ es := by
  have hguard : Along World.step (fun w e => Constant c e ∧ RebuiltWithin c w e) w₀ es := by
    refine Along.imp (I := Sampled c) ?_ ?_ ((along_of_forall hk).and hb) hI
    · rintro w e hI ⟨hk, hb⟩
      refine ⟨hk, fun he hout => ?_⟩
      subst he
      obtain ⟨w', hw', hb⟩ := hb rfl
      exact (backsOff_iff hc hI hw').mp hb hout
    · exact fun w e w' hI hH h => step_sampled hc hI hH.1 hH.2 h
  exact hguard.mono fun w e hH => hH.2

/-- While the setting stays at `c`, the backoff grows along a run exactly when each session that saw
nothing and is rebuilt finds `c` within the longest interval. -/
theorem backoff_grows_iff {settings : Settings} (hc : 0 < c) (hs : settings.rosReinitAfter = c)
    (hk : ∀ e ∈ es, Constant c e) (hr : run World.step (.initial settings) es = some w) :
    BackoffGrows c (.initial settings) es
      ↔ Along World.step (RebuiltWithin c) (.initial settings) es := by
  constructor
  · intro hb
    refine rebuiltWithin_of_backsOff hc (sampled_initial hs) hk (along_of_steps ?_)
    intro es₁ e es₂ m hes hm he
    rw [hes] at hr
    obtain ⟨m', hm', hr'⟩ := run_append_eq_some.mp hr
    obtain rfl := Option.some.inj (hm.symm.trans hm')
    obtain ⟨w', hw', -⟩ := run_cons_eq_some.mp hr'
    exact ⟨w', hw', (hb es₁ e es₂ m w' hes hm hw').1 he⟩
  · intro hg es₁ e es₂ w w' hes hw hw'
    have hk₁ : ∀ e ∈ es₁, Constant c e := fun e he => hk e (by simp [hes, he])
    rw [hes] at hg
    have hI := run_sampled hc hs hk₁ hg.left hw
    refine ⟨fun he => ?_, fun he ho => ?_⟩
    · subst he
      exact (backsOff_iff hc hI hw').mpr ((hg.append hw).1 rfl)
    · subst he
      exact blind_for hI hw hw' ho

end Backoff

section Backoffs

open Reference

/-- A session that sees nothing for so many microseconds and is to be rebuilt. -/
def blindFor (n : ℕ) : List Event :=
  .beginSession :: .advance 1000000 :: toGraph .idle
    ++ [.observe (.ok aloneGraph), .startPoll .refused, .decide, .advance n, .graphChange]
    ++ toGraph .idle ++ [.observe (.ok aloneGraph), .decide]

/-- Two blind sessions of the default setting, and the one that follows. -/
def twiceBlind : List Event :=
  [.createExtension, .startWorker 1] ++ blindFor 30000000 ++ blindFor 60000000 ++ [.beginSession]

theorem twiceBlind_grows : BackoffGrows 30 (.initial .default) twiceBlind := by
  have h : (run World.step (.initial .default) twiceBlind).isSome = true := by decide +kernel
  obtain ⟨w, hr⟩ := Option.isSome_iff_exists.mp h
  refine (backoff_grows_iff (by decide) rfl ?_ hr).mpr ?_
  · simp [twiceBlind, blindFor, toGraph, Constant]
  · exact (along_true _ _).mono fun _ _ _ _ _ => by decide

/-- A day is more than the longest interval. -/
def daily : Settings := { Settings.default with rosReinitAfter := 86400 }

def blindDay : List Event := [.createExtension, .startWorker 1] ++ blindFor 86400000000

/-- After a blind day the next session is rebuilt after ten minutes. -/
theorem interval_shrinks : ∃ w w', run World.step (.initial daily) blindDay = some w
    ∧ w.outcome = some false ∧ w.reinitAfter = some (seconds 86400)
    ∧ w.step .beginSession = some w' ∧ w'.reinitAfter = some (seconds 600)
    ∧ ¬ BackoffGrows 86400 (.initial daily) (blindDay ++ [.beginSession]) := by
  have h : ((run World.step (.initial daily) blindDay).any fun w =>
      (w.step .beginSession).any fun w' => decide (w.outcome = some false
        ∧ w.reinitAfter = some (seconds 86400) ∧ w'.reinitAfter = some (seconds 600))) = true := by
    decide +kernel
  simp only [Option.any_eq_true, decide_eq_true_eq] at h
  obtain ⟨w, hr, w', hb, hout, hT, hT'⟩ := h
  refine ⟨w, w', hr, hout, hT, hb, hT', fun hgrows => ?_⟩
  obtain ⟨T, T', hT₁, hT₂, hle, -⟩ := ((hgrows blindDay .beginSession [] w w' rfl hr hb).1 rfl).grow
    hout
  rw [hT, Option.some.injEq] at hT₁
  rw [hT', Option.some.injEq] at hT₂
  rw [← hT₁, ← hT₂, seconds_le_iff] at hle
  omega

end Backoffs

end PgRos2
