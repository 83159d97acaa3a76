import PgRos2.Polling
import PgRos2.Proofs.Distinct
import PgRos2.Proofs.Pace
import PgRos2.Proofs.Parameters

/-!
# The pace of the parameter polls

A session has one poll at a time. What a step does to it is one of a few things (`step_poll`), and
so the polls of a session come one after the other, five seconds apart, each of them over by the
first tick that is nine seconds late (`poll_pace`): three for each of its stages.
-/

namespace PgRos2

open Lib

/-- What is seen of the polls. -/
inductive PollMark where
  | started
  | failed
  | ended
  deriving DecidableEq

/-- What a step shows of the polls. -/
def World.pollMark [Bounds] (w : World) : Event → Option PollMark
  | .startPoll answers => do
    let s ← w.session
    match s.phase with
    | .start nodes =>
      match Poll.start w.now nodes answers with
      | .ok _ => some .started
      | .error _ => some .failed
    | _ => none
  | .tick answers => do
    let s ← w.session
    let poll ← s.parameterPoll
    match poll.tick w.now answers with
    | .ok (_, none) => none
    | _ => some .ended
  | _ => none

/-- What a step does to the poll of a session and the time of the next one. -/
inductive PollChange [Bounds] (w : World) : Event → Option PollMark → Session → Session → Prop
  | keep {e : Event} {s s' : Session} (hpoll : s'.parameterPoll = s.parameterPoll)
    (hnext : s'.nextParameters = s.nextParameters)
    (hstart : ∀ nodes, s'.phase = .start nodes → s.phase = .start nodes
      ∨ s.parameterPoll = none ∧ s.nextParameters ≤ w.now) : PollChange w e none s s'
  | drop {e : Event} {s s' : Session} (hx : w.extension = none) (ho : (w.observed e).isSome)
    (hpoll : s'.parameterPoll = none) (hphase : s'.phase = .decide) : PollChange w e none s s'
  | go {s s' : Session} {poll poll' : Poll} (answers : TickAnswers)
    (hs : s.parameterPoll = some poll) (ht : poll.tick w.now answers = .ok (poll', none))
    (hpoll : s'.parameterPoll = some poll') (hnext : s'.nextParameters = s.nextParameters)
    (hphase : s'.phase = .graph) : PollChange w (.tick answers) none s s'
  | stop {s s' : Session} {poll : Poll} (answers : TickAnswers) (hs : s.parameterPoll = some poll)
    (hpoll : s'.parameterPoll = none) (hnext : s'.nextParameters = w.now + seconds 5)
    (hphase : s'.phase = .graph) : PollChange w (.tick answers) (some .ended) s s'
  | start {s s' : Session} {nodes : List Name} {poll : Poll} (answers : StartAnswers)
    (hs : s.phase = .start nodes) (ht : Poll.start w.now nodes answers = .ok poll)
    (hpoll : s'.parameterPoll = some poll) (hphase : s'.phase = .decide) :
    PollChange w (.startPoll answers) (some .started) s s'
  | fail {s s' : Session} {nodes : List Name} (answers : StartAnswers) (hs : s.phase = .start nodes)
    (hpoll : s'.parameterPoll = s.parameterPoll) (hnext : s'.nextParameters = w.now + seconds 5)
    (hphase : s'.phase = .decide) : PollChange w (.startPoll answers) (some .failed) s s'

section

variable [Rclrs] {w w' : World} {o : Observer} {s : Session}

theorem tick_poll (h : w.InPhase o s .poll) (answers : TickAnswers) :
    ∀ s' ∈ (w.tick o s answers).session,
      PollChange w (.tick answers) (w.pollMark (.tick answers)) s s' := by
  intro s' hs'
  have hsession := session_of_phase h
  unfold World.tick World.completePoll at hs'
  split at hs'
  · rename_i hpoll
    have hm : w.pollMark (.tick answers) = none := by simp [World.pollMark, hsession, hpoll]
    rw [hm]
    cases hs'
    exact .keep rfl rfl nofun
  · rename_i poll hpoll
    split at hs'
    · rename_i poll' ht
      have hm : w.pollMark (.tick answers) = none := by
        simp [World.pollMark, hsession, hpoll, ht]
      rw [hm]
      cases hs'
      exact .go answers hpoll ht rfl rfl rfl
    all_goals
      rename_i ht
      have hm : w.pollMark (.tick answers) = some .ended := by
        simp [World.pollMark, hsession, hpoll, ht]
      rw [hm]
      split at hs'
      · cases hs'
      · cases hs'
        exact .stop answers hpoll rfl rfl rfl

theorem startPoll_poll {nodes : List Name} (h : w.InPhase o s (.start nodes))
    (answers : StartAnswers) : ∀ s' ∈ (w.startPoll o s nodes answers).session,
      PollChange w (.startPoll answers) (w.pollMark (.startPoll answers)) s s' := by
  intro s' hs'
  have hsession := session_of_phase h
  unfold World.startPoll at hs'
  split at hs'
  · rename_i poll ht
    have hm : w.pollMark (.startPoll answers) = some .started := by
      simp [World.pollMark, hsession, h.2.2, ht]
    rw [hm]
    cases hs'
    exact .start answers h.2.2 ht rfl rfl
  · rename_i error ht
    have hm : w.pollMark (.startPoll answers) = some .failed := by
      simp [World.pollMark, hsession, h.2.2, ht]
    rw [hm]
    split at hs'
    · cases hs'
    · cases hs'
      exact .fail answers h.2.2 rfl rfl rfl

omit [Rclrs] in
theorem seen_poll (s : Session) (now : Time) (v : GraphSnapshot) :
    (s.seen now v).parameterPoll = s.parameterPoll
      ∧ (s.seen now v).nextParameters = s.nextParameters := by
  unfold Session.seen
  split <;> exact ⟨rfl, rfl⟩

omit [Rclrs] in
/-- A graph that was read starts a poll where none is under way and one is due. -/
theorem observe_of_ok_session (hdue : w.Due s) {ext : Extension} (hx : w.extension = some ext)
    (graph : RosGraph) :
    (w.observe o s (.ok graph)).session
      = let seen := Session.seen { s with dirty := false } w.now (GraphSnapshot.read o.name graph)
        some { seen with
          phase := if seen.parameterPoll.isNone ∧ w.now ≥ seen.nextParameters then
            .start (GraphSnapshot.read o.name graph).nodes else .decide } := by
  rw [World.observe, if_neg hdue, hx]
  rfl

theorem observe_poll (h : w.InPhase o s .graph) (graph : Except String RosGraph) :
    ∀ s' ∈ (w.observe o s graph).session, PollChange w (.observe graph) none s s' := by
  intro s' hs'
  by_cases hdue : w.Due s
  · rcases hx : w.extension with _ | ext
    · rw [World.observe_of_absent hdue hx] at hs'
      cases hs'
      refine .drop hx ?_ rfl rfl
      rw [observed_of_due h hdue]
      rfl
    · rcases graph with error | graph
      · rw [World.observe_of_error hdue hx] at hs'
        cases hs'
        exact .keep rfl rfl nofun
      · rw [observe_of_ok_session hdue hx graph] at hs'
        cases hs'
        obtain ⟨hpoll, hnext⟩ := seen_poll { s with dirty := false } w.now
          (GraphSnapshot.read o.name graph)
        refine .keep hpoll hnext fun nodes hp => .inr ?_
        simp only [hpoll, hnext, Option.isNone_iff_eq_none, ge_iff_le] at hp
        split at hp
        · assumption
        · cases hp
  · rw [World.observe_of_not_due hdue] at hs'
    cases hs'
    exact .keep rfl rfl nofun

end

section

variable [Rclrs] {w w' : World} {e : Event}

/-- A step that leaves the session as it is, or takes it. -/
theorem pollChange_same (h : w'.session = w.session ∨ w'.session = none) :
    ∀ s' ∈ w'.session, ∃ s ∈ w.session, PollChange w e none s s' := by
  intro s' hs'
  rcases h with h | h
  · exact ⟨s', h ▸ hs', .keep rfl rfl fun _ => .inl⟩
  · rw [h] at hs'
    cases hs'

/-- Nothing of the polls moves with the subscriptions. -/
theorem SubscriptionStep.pollChange {o : Observer} {s : Session} (hs : w.session = some s)
    (h : SubscriptionStep w o s w') :
    ∀ s' ∈ w'.session, ∃ s ∈ w.session, PollChange w e none s s' := by
  obtain ⟨ext, subscriptions, phase, dirty, _, _, -, hphase, rfl⟩ := h
  intro s' hs'
  cases hs'
  refine ⟨s, hs, .keep rfl rfl fun nodes hstart => .inl ?_⟩
  obtain heq | hne := hphase
  · exact heq ▸ hstart
  · exact absurd hstart (hne nodes)

theorem step_poll (h : w.step e = some w') (hb : e ≠ .beginSession) :
    ∀ s' ∈ w'.session, ∃ s ∈ w.session, PollChange w e (w.pollMark e) s s' := by
  have hs := step_spec h
  cases e with
  | startWorker pid =>
    obtain ⟨-, rfl⟩ := hs
    exact pollChange_same (.inr rfl)
  | crash | terminate | abort => exact hs ▸ pollChange_same (.inr rfl)
  | fail error =>
    obtain ⟨o, -, rfl⟩ := hs
    exact pollChange_same (.inr rfl)
  | beginSession => exact absurd rfl hb
  | createExtension =>
    obtain ⟨-, rfl⟩ := hs
    exact pollChange_same (.inl rfl)
  | flush =>
    obtain ⟨o, s, now, hp, rfl⟩ := hs
    obtain hlost | hstep := flush_spec (w := w) (o := o) (s := s) now
    · exact pollChange_same (.inr (by rw [hlost]; rfl))
    · exact hstep.pollChange (session_of_phase hp)
  | tick answers =>
    obtain ⟨o, s, hp, rfl⟩ := hs
    exact fun s' hs' => ⟨s, session_of_phase hp, tick_poll hp answers s' hs'⟩
  | observe graph =>
    obtain ⟨o, s, hp, rfl⟩ := hs
    exact fun s' hs' => ⟨s, session_of_phase hp, observe_poll hp graph s' hs'⟩
  | startPoll answers =>
    obtain ⟨o, s, nodes, hp, rfl⟩ := hs
    exact fun s' hs' => ⟨s, session_of_phase hp, startPoll_poll hp answers s' hs'⟩
  | message _ _ _ | graphChange | spun | readDesired _ | writeBack | decide =>
    obtain ⟨o, s, ho, hs, hstep⟩ := SubscriptionStep.of_spec hs trivial
    exact hstep.pollChange (by rw [World.session, ho, Option.bind_some, hs])
  | _ => exact hs ▸ pollChange_same (.inl rfl)

end

/-! ## Deadlines -/

theorem Stage.rank_le (stage : Stage) : stage.rank ≤ 2 := by
  cases stage <;> simp [rank]

/-- A poll goes on before its deadline only, and has three more seconds in its next stage. -/
theorem Poll.tick_deadline {poll poll' : Poll} {now : Time} {answers : TickAnswers}
    (h : poll.tick now answers = .ok (poll', none)) :
    now < poll.deadline
      ∧ (poll'.deadline = poll.deadline ∧ poll'.stage.rank = poll.stage.rank
        ∨ poll'.deadline = now + seconds 3 ∧ poll'.stage.rank = poll.stage.rank + 1) := by
  obtain ⟨clients, stage, deadline⟩ := poll
  unfold tick at h
  split at h
  · cases h
  rename_i hnow
  refine ⟨not_le.mp hnow, ?_⟩
  cases stage with
  | ready =>
    obtain ⟨ready, -, h⟩ := except_bind_eq_ok h
    rcases ready with _ | _
    · cases h
      exact .inl ⟨rfl, rfl⟩
    · obtain ⟨-, -, h⟩ := except_bind_eq_ok h
      cases h
      exact .inr ⟨rfl, rfl⟩
  | listing results =>
    obtain ⟨results', -, h⟩ := except_bind_eq_ok h
    rcases hl : results'.mapM id with _ | lists <;> simp only [hl] at h
    · cases h
      exact .inl ⟨rfl, rfl⟩
    · obtain ⟨-, -, h⟩ := except_bind_eq_ok h
      cases h
      exact .inr ⟨rfl, rfl⟩
  | getting results names =>
    obtain ⟨results', -, h⟩ := except_bind_eq_ok h
    rcases hl : results'.mapM id with _ | responses <;> simp only [hl] at h
    · cases h
      exact .inl ⟨rfl, rfl⟩
    · obtain ⟨ps, -, h⟩ := except_bind_eq_ok h
      cases h

/-- The poll was started at `t`, and each stage took three seconds at most. -/
def Poll.StartedAt (poll : Poll) (t : Time) : Prop :=
  poll.deadline ≤ t + seconds (3 * (poll.stage.rank + 1))

theorem Poll.StartedAt.start {now : Time} {nodes : List Name} {answers : StartAnswers} {poll : Poll}
    (h : Poll.start now nodes answers = .ok poll) : poll.StartedAt now := by
  obtain ⟨clients, -, h⟩ := except_bind_eq_ok h
  cases h
  exact le_rfl

theorem later_deadline {t d now : ℤ} {r : ℕ} (hd : d ≤ t + (3 * (r + 1) : ℕ) * 1000000)
    (hnow : now < d) : now + (3 : ℕ) * 1000000 ≤ t + (3 * (r + 1 + 1) : ℕ) * 1000000 := by
  push_cast at *
  omega

theorem Poll.StartedAt.go {poll poll' : Poll} {t now : Time} {answers : TickAnswers}
    (h : poll.StartedAt t) (ht : poll.tick now answers = .ok (poll', none)) :
    poll'.StartedAt t := by
  obtain ⟨hnow, ⟨hd, hr⟩ | ⟨hd, hr⟩⟩ := tick_deadline ht
  · rw [StartedAt, hd, hr]
    exact h
  · rw [StartedAt, hd, hr]
    exact later_deadline h hnow

theorem late_of_nine {t d now : ℤ} {r : ℕ} (hd : d ≤ t + (3 * (r + 1) : ℕ) * 1000000) (hr : r ≤ 2)
    (hnow : t + (9 : ℕ) * 1000000 ≤ now) : d ≤ now := by
  push_cast at *
  omega

theorem Poll.StartedAt.late {poll : Poll} {t now : Time} (h : poll.StartedAt t)
    (hnow : t + seconds 9 ≤ now) : poll.deadline ≤ now :=
  late_of_nine h poll.stage.rank_le hnow

/-! ## Runs -/

section Runs

variable [Rclrs] {w w' w₀ w₁ : World} {e : Event} {es : List Event}

/-- What is seen of the polls, and when. -/
def World.pollTime (w : World) (e : Event) : Option (Time × PollMark) :=
  (w.pollMark e).map (w.now, ·)

/-- A poll that was started ends, and after one that ended or could not be started five seconds
pass. -/
def PollMark.Follows (a b : Time × PollMark) : Prop :=
  match a.2 with
  | .started => b.2 = .ended ∧ a.1 ≤ b.1
  | _ => b.2 ≠ .ended ∧ a.1 + seconds 5 ≤ b.1

/-- The session knows of the last poll. -/
def PollKnown (last : Option (Time × PollMark)) (now : Time) (s : Session) : Prop :=
  match last with
  | some (t, .started) => ∃ poll ∈ s.parameterPoll, poll.StartedAt t ∧ t ≤ now
  | some (t, _) => s.parameterPoll = none ∧ t + seconds 5 ≤ s.nextParameters
  | none => s.parameterPoll = none

def PollPace (last : Option (Time × PollMark)) (w : World) : Prop :=
  ∀ s ∈ w.session, PollKnown last w.now s
    ∧ ∀ nodes, s.phase = .start nodes → s.parameterPoll = none ∧ s.nextParameters ≤ w.now

/-- Every discovery finds the extension. -/
def Installed (w : World) (e : Event) : Prop := ∀ p ∈ w.observed e, w.extension.isSome

instance (w : World) (e : Event) : Decidable (Installed w e) :=
  inferInstanceAs (Decidable (∀ p ∈ w.observed e, _))

omit [Rclrs] in
theorem PollKnown.wait {last : Option (Time × PollMark)} {now now' : Time} {s s' : Session}
    (h : PollKnown last now s) (hpoll : s'.parameterPoll = s.parameterPoll)
    (hnext : s'.nextParameters = s.nextParameters) (hle : now ≤ now') :
    PollKnown last now' s' := by
  rcases last with _ | ⟨t, _ | _ | _⟩
  · exact hpoll.trans h
  · obtain ⟨poll, hp, hstart, ht⟩ := h
    exact ⟨poll, hpoll ▸ hp, hstart, ht.trans hle⟩
  · exact ⟨hpoll.trans h.1, hnext ▸ h.2⟩
  · exact ⟨hpoll.trans h.1, hnext ▸ h.2⟩

theorem pollPace_step {last : Option (Time × PollMark)} (hI : PollPace last w)
    (hb : e ≠ .beginSession) (hx : Installed w e) (h : w.step e = some w') :
    PollPace ((w.pollTime e).or last) w' := by
  intro s' hs'
  obtain ⟨s, hs, hchange⟩ := step_poll h hb s' hs'
  obtain ⟨hknown, hphase⟩ := hI s hs
  have hle := step_now h
  have htime : w.pollTime e = (w.pollMark e).map (w.now, ·) := rfl
  generalize w.pollMark e = mark at hchange htime
  rw [htime]
  cases hchange with
  | keep hpoll hnext hstart =>
    refine ⟨hknown.wait hpoll hnext hle, fun nodes hp => ?_⟩
    rw [hpoll, hnext]
    rcases hstart nodes hp with hp | ⟨hp, hdue⟩
    · exact ⟨(hphase nodes hp).1, (hphase nodes hp).2.trans hle⟩
    · exact ⟨hp, hdue.trans hle⟩
  | drop hx' ho hpoll hphase' =>
    obtain ⟨p, ho⟩ := Option.isSome_iff_exists.mp ho
    have hinstalled := hx p ho
    rw [hx'] at hinstalled
    cases hinstalled
  | go answers hpoll ht hpoll' hnext hphase' =>
    refine ⟨?_, fun nodes hp => by rw [hphase'] at hp; cases hp⟩
    -- a poll is under way, so the last mark is its start
    rcases last with _ | ⟨t, _ | _ | _⟩
    · exact absurd (hpoll.symm.trans hknown) (by simp)
    · obtain ⟨poll, hp, hstart, hle'⟩ := hknown
      rw [hpoll] at hp
      cases hp
      exact ⟨_, hpoll', hstart.go ht, hle'.trans hle⟩
    · exact absurd (hpoll.symm.trans hknown.1) (by simp)
    · exact absurd (hpoll.symm.trans hknown.1) (by simp)
  | stop answers hpoll hpoll' hnext hphase' =>
    exact ⟨⟨hpoll', hnext ▸ le_rfl⟩, fun nodes hp => by rw [hphase'] at hp; cases hp⟩
  | start answers hp ht hpoll hphase' =>
    exact ⟨⟨_, hpoll, .start ht, hle⟩, fun nodes hp => by rw [hphase'] at hp; cases hp⟩
  | fail answers hp hpoll hnext hphase' =>
    refine ⟨⟨hpoll.trans (hphase _ hp).1, hnext ▸ le_rfl⟩, fun nodes hp => ?_⟩
    rw [hphase'] at hp
    cases hp

/-- What is seen of a poll is seen of a session that has none under way and is due for one, or that
has one. -/
theorem pollMark_eq_some {mark : PollMark} (h : w.pollMark e = some mark) :
    ∃ s ∈ w.session, (mark ≠ .ended ∧ ∃ nodes, s.phase = .start nodes)
      ∨ mark = .ended ∧ s.parameterPoll ≠ none := by
  unfold World.pollMark at h
  split at h
  · obtain ⟨s, hs, h⟩ := Option.bind_eq_some_iff.mp h
    refine ⟨s, hs, .inl ?_⟩
    split at h
    · rename_i nodes hp
      split at h <;> cases h
      · exact ⟨nofun, nodes, hp⟩
      · exact ⟨nofun, nodes, hp⟩
    · cases h
  · obtain ⟨s, hs, h⟩ := Option.bind_eq_some_iff.mp h
    obtain ⟨poll, hp, h⟩ := Option.bind_eq_some_iff.mp h
    refine ⟨s, hs, .inr ⟨?_, by rw [hp]; nofun⟩⟩
    split at h
    · cases h
    · exact (Option.some.inj h).symm
  · cases h

theorem pollPace_follows {last : Option (Time × PollMark)} (hI : PollPace last w)
    {mark : PollMark} (h : w.pollMark e = some mark) :
    ∀ l ∈ last, PollMark.Follows l (w.now, mark) := by
  obtain ⟨s, hs, hmark⟩ := pollMark_eq_some h
  obtain ⟨hknown, hphase⟩ := hI s hs
  rintro ⟨t, kind⟩ hl
  rw [Option.mem_def.mp hl] at hknown
  rcases hmark with ⟨hne, nodes, hp⟩ | ⟨rfl, hp⟩
  · obtain ⟨hnone, hdue⟩ := hphase nodes hp
    cases kind with
    | started =>
      obtain ⟨poll, hpoll, -⟩ := hknown
      rw [hnone] at hpoll
      cases hpoll
    | failed => exact ⟨hne, hknown.2.trans hdue⟩
    | ended => exact ⟨hne, hknown.2.trans hdue⟩
  · cases kind with
    | started =>
      obtain ⟨-, -, -, hle⟩ := hknown
      exact ⟨rfl, hle⟩
    | failed => exact absurd hknown.1 hp
    | ended => exact absurd hknown.1 hp

/-- Within a session whose discoveries all find the extension, polls come one after the other, and
five seconds after one ended or could not be started; and the first tick that is nine seconds late
ends the poll that was started last. -/
theorem poll_pace {w : World} (hb : w.step .beginSession = some w₀) (hes : .beginSession ∉ es)
    (hr : run World.step w₀ es = some w₁) (hg : Along World.step Installed w₀ es) :
    (history World.step World.pollTime w₀ es).IsChain PollMark.Follows
      ∧ ∀ t, (history World.step World.pollTime w₀ es).getLast? = some (t, .started) →
        t + seconds 9 ≤ w₁.now → ∀ answers w₂, w₁.step (.tick answers) = some w₂ →
          w₁.pollMark (.tick answers) = some .ended
            ∧ ∀ s ∈ w₂.session, s.parameterPoll = none := by
  have hb' : Along World.step (fun _ e => e ≠ .beginSession) w₀ es :=
    along_of_forall fun _ he => ne_of_mem_of_not_mem he hes
  have hstart : w₀.session = some (.start w.now) := by
    obtain ⟨o, reinitAfter, -, rfl⟩ := step_spec hb
    rfl
  have hrun : (history World.step World.pollTime w₀ es).IsChain PollMark.Follows
      ∧ PollPace (history World.step World.pollTime w₀ es).getLast? w₁ := by
    refine run_chain (I := PollPace) ?_ ?_ ?_ (hb'.and hg) hr
    · intro w e w' last hI hg h hmark
      have hnext := pollPace_step hI hg.1 hg.2 h
      rwa [hmark, Option.none_or] at hnext
    · intro w e w' last a hI hg h hmark
      have hnext := pollPace_step hI hg.1 hg.2 h
      rw [hmark, Option.some_or] at hnext
      obtain ⟨mark, hm, rfl⟩ := Option.map_eq_some_iff.mp hmark
      exact ⟨pollPace_follows hI hm, hnext⟩
    · intro s hs
      rw [hstart] at hs
      cases hs
      exact ⟨rfl, nofun⟩
  refine ⟨hrun.1, fun t hlast hlate answers w₂ h => ?_⟩
  obtain ⟨o, s, hp, -⟩ := step_spec h
  have hs := session_of_phase hp
  obtain ⟨hknown, -⟩ := hrun.2 s hs
  rw [hlast] at hknown
  obtain ⟨poll, hpoll, hstarted, -⟩ := hknown
  have hmark : w₁.pollMark (.tick answers) = some .ended := by
    have htick : poll.tick w₁.now answers
        = .error s!"parameter {Poll.stageName poll.stage} timed out after 3 seconds" :=
      if_pos (hstarted.late hlate)
    simp [World.pollMark, hs, Option.mem_def.mp hpoll, htick]
  refine ⟨hmark, fun s' hs' => ?_⟩
  obtain ⟨s, -, hchange⟩ := step_poll h nofun s' hs'
  rw [hmark] at hchange
  cases hchange with
  | stop _ _ hnone => exact hnone

end Runs

section Witness

open Reference

/-- A poll that nobody answers for nine seconds. -/
def unansweredPoll : List Event :=
  .advance 1000000 :: toGraph .idle
    ++ [.observe (.ok talker), .startPoll .offered, .decide, .advance 9000000, .spun, .flush,
      .readDesired (.error "SPI error: Connect")]

theorem unansweredPoll_one : .beginSession ∉ unansweredPoll := by
  simp [unansweredPoll, toGraph]

theorem poll_pace_unanswered : ∃ w₀ w₁ w₂, run World.step w₀ unansweredPoll = some w₁
    ∧ w₁.step (.tick .idle) = some w₂
    ∧ (history World.step World.pollTime w₀ unansweredPoll).getLast? = some (seconds 1, .started)
    ∧ w₁.pollMark (.tick .idle) = some .ended := by
  have h : ((run World.step (.initial .default) [.createExtension, .startWorker 1]).any fun w =>
      (w.step .beginSession).any fun w₀ => (run World.step w₀ unansweredPoll).any fun w₁ =>
        (w₁.step (.tick .idle)).any fun _ => decide
          ((history World.step World.pollTime w₀ unansweredPoll).getLast?
              = some (seconds 1, .started)
            ∧ seconds 1 + seconds 9 ≤ w₁.now
            ∧ Along World.step Installed w₀ unansweredPoll)) = true := by
    decide +kernel
  simp only [Option.any_eq_true, decide_eq_true_eq] at h
  obtain ⟨w, -, w₀, hb, w₁, hr, w₂, hstep, hlast, hlate, hg⟩ := h
  obtain ⟨hmark, -⟩ := (poll_pace hb unansweredPoll_one hr hg).2 _ hlast hlate _ w₂ hstep
  exact ⟨w₀, w₁, w₂, hr, hstep, hlast, hmark⟩

end Witness

end PgRos2
