import PgRos2.Lib.Run
import PgRos2.Proofs.Blind

/-!
# The pace of a session

What a step leaves of the running session, as far as the tables of the subscriptions go
(`step_session`): its phase, and when the next flush and the next read are due. A flush sets the
time of the next one and a reconcile that of the next read, also where it ends in a write-back. So
within a session both keep their distance, whatever clients and settings do in between
(`session_pace`).
-/

namespace PgRos2

open Lib

/-- The running session. -/
def World.session (w : World) : Option Session := w.worker.bind Observer.session

/-- A phase that neither flushes nor reconciles. -/
def Phase.Idle (p : Phase) : Prop := p.flushing = none ∧ p.reading = none ∧ p.writing = none

/-- What a step does to the session's phase and to what is due next. -/
inductive SessionStep [Bounds] (w : World) : Event → Session → Session → Prop
  | turn {e : Event} {s s' : Session} (he : e ≠ .flush) (he' : ∀ answers, e ≠ .readDesired answers)
    (hf : s'.nextMessageFlush = s.nextMessageFlush)
    (hn : s'.nextSubscriptionPoll = s.nextSubscriptionPoll)
    (hp : s'.phase = s.phase ∨ s.phase.Idle ∧ s'.phase.Idle) : SessionStep w e s s'
  | spun {s : Session} (hp : s.phase = .spin) :
    SessionStep w .spun s { s with phase := .flush w.now }
  | skipFlush {s : Session} {now : Time} (hp : s.phase = .flush now) (hw : ¬ w.Flushes) :
    SessionStep w .flush s { s with phase := .read now }
  | flush {s : Session} {now : Time} (hp : s.phase = .flush now) (hw : w.Flushes) :
    SessionStep w .flush s
      { s with
        phase := .read now
        nextMessageFlush := w.now + millis (max w.settings.messagePollMs 1) }
  | skipRead {answers : Except String SubscribeAnswers} {s : Session} {now : Time}
    (hp : s.phase = .read now) (hw : ¬ w.Reads) :
    SessionStep w (.readDesired answers) s { s with phase := .poll }
  | read {answers : Except String SubscribeAnswers} {s : Session} {now : Time}
    (hp : s.phase = .read now) (hw : w.Reads) :
    SessionStep w (.readDesired answers) s
      { s with
        phase := .poll
        nextSubscriptionPoll := w.now + millis (max w.settings.subscriptionPollMs 1) }
  | readWrite {answers : Except String SubscribeAnswers} {s : Session} {now : Time} (pass : Pass)
    (hp : s.phase = .read now) (hw : w.Reads) :
    SessionStep w (.readDesired answers) s { s with phase := .write pass }
  | wrote {s : Session} {pass : Pass} (hp : s.phase = .write pass) :
    SessionStep w .writeBack s
      { s with
        phase := .poll
        nextSubscriptionPoll := w.now + millis (max w.settings.subscriptionPollMs 1) }

section

variable {w w' : World} {o : Observer} {s : Session}

theorem session_of_phase {p : Phase} (h : w.InPhase o s p) : w.session = some s := by
  simp [World.session, h.1, h.2.1]

theorem reads_iff {now : Time} (h : w.InPhase o s (.read now)) :
    w.Reads ↔ ¬ now < s.nextSubscriptionPoll := by
  obtain ⟨ho, hs, hp⟩ := h
  simp [World.Reads, ho, hs, hp, Phase.reading]

/-- The parameter steps keep what is due next. -/
theorem PollStep.schedule (h : PollStep w o s w') : ∀ s' ∈ w'.session,
    s'.nextMessageFlush = s.nextMessageFlush ∧ s'.nextSubscriptionPoll = s.nextSubscriptionPoll
      ∧ s'.phase.Idle := by
  intro s' hs'
  obtain rfl | ⟨f, previousParameters, parameterExtension, phase, _, _, -, hp, rfl⟩ := h
  · cases hs'
  · cases hs'
    obtain rfl | rfl := hp
    · exact ⟨rfl, rfl, rfl, rfl, rfl⟩
    · exact ⟨rfl, rfl, rfl, rfl, rfl⟩

theorem observe_schedule (s : Session) (graph : Except String RosGraph) :
    ∀ s' ∈ (w.observe o s graph).session,
      s'.nextMessageFlush = s.nextMessageFlush ∧ s'.nextSubscriptionPoll = s.nextSubscriptionPoll
        ∧ s'.phase.Idle := by
  intro s' hs'
  by_cases hdue : w.Due s
  · rcases hx : w.extension with _ | ext
    · rw [World.observe_of_absent hdue hx] at hs'
      cases hs'
      exact ⟨rfl, rfl, rfl, rfl, rfl⟩
    · rcases graph with error | graph
      · rw [World.observe_of_error hdue hx] at hs'
        cases hs'
        exact ⟨rfl, rfl, rfl, rfl, rfl⟩
      · obtain ⟨phase, hphase, hobs⟩ := World.observe_of_ok (o := o) hdue hx graph
        rw [hobs] at hs'
        cases hs'
        refine ⟨?_, ?_, ?_⟩
        · unfold Session.seen
          split <;> rfl
        · unfold Session.seen
          split <;> rfl
        · rcases hphase with rfl | rfl <;> exact ⟨rfl, rfl, rfl⟩
  · rw [World.observe_of_not_due hdue] at hs'
    cases hs'
    exact ⟨rfl, rfl, rfl, rfl, rfl⟩

end

section

variable [Rclrs] {w w' : World} {e : Event}

/-- A step that leaves the session as it is. -/
theorem sessionStep_same (he : e ≠ .flush) (he' : ∀ answers, e ≠ .readDesired answers)
    (h : w'.session = w.session ∨ w'.session = none) :
    ∀ s' ∈ w'.session, ∃ s ∈ w.session, SessionStep w e s s' := by
  intro s' hs'
  rcases h with h | h
  · exact ⟨s', h ▸ hs', .turn he he' rfl rfl (.inl rfl)⟩
  · rw [h] at hs'
    cases hs'

/-- A step of a session that is no beginning. -/
theorem step_session (h : w.step e = some w') (hb : e ≠ .beginSession) :
    ∀ s' ∈ w'.session, ∃ s ∈ w.session, SessionStep w e s s' := by
  have hs := step_spec h
  cases e with
  | startWorker pid =>
    obtain ⟨-, rfl⟩ := hs
    exact sessionStep_same nofun nofun (.inr rfl)
  | crash | abort => exact hs ▸ sessionStep_same nofun nofun (.inr rfl)
  | fail error =>
    obtain ⟨o, -, rfl⟩ := hs
    exact sessionStep_same nofun nofun (.inr rfl)
  | beginSession => exact absurd rfl hb
  | terminate => exact hs ▸ sessionStep_same nofun nofun (.inr rfl)
  | createExtension =>
    obtain ⟨-, rfl⟩ := hs
    exact sessionStep_same nofun nofun (.inl rfl)
  | message topic type message =>
    obtain ⟨o, s, hp, -, rfl⟩ := hs
    exact sessionStep_same nofun nofun (.inl (session_of_phase hp).symm)
  | graphChange =>
    obtain ⟨o, s, hp, rfl⟩ := hs
    intro s' hs'
    cases hs'
    exact ⟨s, session_of_phase hp, .turn nofun nofun rfl rfl (.inl rfl)⟩
  | spun =>
    obtain ⟨o, s, hp, rfl⟩ := hs
    intro s' hs'
    cases hs'
    exact ⟨s, session_of_phase hp, .spun hp.2.2⟩
  | flush =>
    obtain ⟨o, s, now, hp, rfl⟩ := hs
    intro s' hs'
    refine ⟨s, session_of_phase hp, ?_⟩
    unfold World.flush at hs'
    split at hs'
    · rename_i hdue
      cases hs'
      exact .skipFlush hp.2.2 fun hw => (flushes_iff hp).mp hw hdue
    · rename_i hdue
      split at hs'
      · cases hs'
      · cases hs'
        exact .flush hp.2.2 ((flushes_iff hp).mpr hdue)
  | readDesired answers =>
    obtain ⟨o, s, now, hp, rfl⟩ := hs
    intro s' hs'
    refine ⟨s, session_of_phase hp, ?_⟩
    unfold World.readDesired at hs'
    split at hs'
    · rename_i hdue
      cases hs'
      exact .skipRead hp.2.2 fun hw => (reads_iff hp).mp hw hdue
    · rename_i hdue
      have hreads := (reads_iff hp).mpr hdue
      split at hs'
      · cases hs'
        exact .read hp.2.2 hreads
      · simp only [] at hs'
        split at hs'
        · cases hs'
          exact .read hp.2.2 hreads
        · cases hs'
          exact .readWrite _ hp.2.2 hreads
  | writeBack =>
    obtain ⟨o, s, pass, hp, rfl⟩ := hs
    intro s' hs'
    cases hs'
    exact ⟨s, session_of_phase hp, .wrote hp.2.2⟩
  | tick answers =>
    obtain ⟨o, s, hp, rfl⟩ := hs
    intro s' hs'
    obtain ⟨hf, hn, hidle⟩ := (tick_spec s answers).schedule s' hs'
    have hp' : s.phase.Idle := by rw [hp.2.2]; exact ⟨rfl, rfl, rfl⟩
    exact ⟨s, session_of_phase hp, .turn nofun nofun hf hn (.inr ⟨hp', hidle⟩)⟩
  | observe graph =>
    obtain ⟨o, s, hp, rfl⟩ := hs
    intro s' hs'
    obtain ⟨hf, hn, hidle⟩ := observe_schedule s graph s' hs'
    have hp' : s.phase.Idle := by rw [hp.2.2]; exact ⟨rfl, rfl, rfl⟩
    exact ⟨s, session_of_phase hp, .turn nofun nofun hf hn (.inr ⟨hp', hidle⟩)⟩
  | startPoll answers =>
    obtain ⟨o, s, nodes, hp, rfl⟩ := hs
    intro s' hs'
    obtain ⟨hf, hn, hidle⟩ := (startPoll_spec s nodes answers).schedule s' hs'
    have hp' : s.phase.Idle := by rw [hp.2.2]; exact ⟨rfl, rfl, rfl⟩
    exact ⟨s, session_of_phase hp, .turn nofun nofun hf hn (.inr ⟨hp', hidle⟩)⟩
  | decide =>
    obtain ⟨o, s, hp, rfl⟩ := hs
    intro s' hs'
    cases hs'
    refine ⟨s, session_of_phase hp, .turn nofun nofun rfl rfl (.inr ⟨?_, ?_⟩)⟩
    · rw [hp.2.2]
      exact ⟨rfl, rfl, rfl⟩
    · split <;> exact ⟨rfl, rfl, rfl⟩
  | _ => exact hs ▸ sessionStep_same nofun nofun (.inl rfl)

end

/-! ## Runs -/

theorem millis_mono {m n : ℕ} (h : m ≤ n) : millis m ≤ millis n := by
  show (m * 1000 : ℤ) ≤ n * 1000
  omega

section Runs

variable [Rclrs] {w w' w₀ w₁ : World} {e : Event} {es : List Event} {m n : ℕ}

/-- When a step drains the mailboxes. -/
def World.flushTime (w : World) : Event → Option Time
  | .flush => if w.Flushes then some w.now else none
  | _ => none

/-- When a step reads the subscriptions. -/
def World.readTime (w : World) : Event → Option Time
  | .readDesired _ => if w.Reads then some w.now else none
  | _ => none

/-- The settings in force poll messages every `m` milliseconds at least, and subscriptions every
`n`. -/
def PollsAtLeast (m n : ℕ) (w : World) : Prop :=
  m ≤ max w.settings.messagePollMs 1 ∧ n ≤ max w.settings.subscriptionPollMs 1

instance (m n : ℕ) (w : World) : Decidable (PollsAtLeast m n w) :=
  inferInstanceAs (Decidable (_ ∧ _))

/-- The next flush keeps its distance to the last. -/
def FlushPace (m : ℕ) (last : Option Time) (w : World) : Prop :=
  ∀ s ∈ w.session, (∀ now ∈ s.phase.flushing, now ≤ w.now)
    ∧ ∀ t ∈ last, t + millis m ≤ s.nextMessageFlush

/-- The next read keeps its distance to the last, once what that one found is written back. -/
def ReadPace (n : ℕ) (last : Option Time) (w : World) : Prop :=
  ∀ s ∈ w.session, (∀ now ∈ s.phase.flushing, now ≤ w.now) ∧ (∀ now ∈ s.phase.reading, now ≤ w.now)
    ∧ ∀ t ∈ last, t ≤ w.now ∧ (s.phase.writing = none → t + millis n ≤ s.nextSubscriptionPoll)

theorem flushTime_eq_some {t : Time} (h : w.flushTime e = some t) :
    e = .flush ∧ w.Flushes ∧ t = w.now := by
  unfold World.flushTime at h
  split at h
  · rw [Option.ite_none_right_eq_some] at h
    exact ⟨rfl, h.1, (Option.some.inj h.2).symm⟩
  · cases h

theorem readTime_eq_some {t : Time} (h : w.readTime e = some t) :
    (∃ answers, e = .readDesired answers) ∧ w.Reads ∧ t = w.now := by
  unfold World.readTime at h
  split at h
  · rw [Option.ite_none_right_eq_some] at h
    exact ⟨⟨_, rfl⟩, h.1, (Option.some.inj h.2).symm⟩
  · cases h

theorem flushPace_step {last : Option Time} (hI : FlushPace m last w) (hb : e ≠ .beginSession)
    (hm : m ≤ max w.settings.messagePollMs 1) (h : w.step e = some w') :
    FlushPace m ((w.flushTime e).or last) w' := by
  intro s' hs'
  obtain ⟨s, hs, hstep⟩ := step_session h hb s' hs'
  obtain ⟨hnow, hlast⟩ := hI s hs
  have hle := step_now h
  cases hstep with
  | turn he he' hf hn hp =>
    have hnone : w.flushTime e = none := by
      cases e with
      | flush => exact absurd rfl he
      | _ => rfl
    rw [hnone, Option.none_or, hf]
    refine ⟨fun now h => ?_, hlast⟩
    rcases hp with hp | ⟨-, hp⟩
    · exact (hnow now (hp ▸ h)).trans hle
    · rw [hp.1] at h
      cases h
  | spun hp =>
    refine ⟨fun now h => ?_, hlast⟩
    cases h
    exact hle
  | skipFlush hp hw =>
    have hnone : w.flushTime .flush = none := if_neg hw
    rw [hnone]
    exact ⟨nofun, hlast⟩
  | flush hp hw =>
    have hsome : w.flushTime .flush = some w.now := if_pos hw
    rw [hsome]
    refine ⟨nofun, fun t ht => ?_⟩
    cases ht
    exact Int.add_le_add_left (millis_mono hm) w.now
  | _ => exact ⟨nofun, hlast⟩

theorem readPace_step {last : Option Time} (hI : ReadPace n last w) (hb : e ≠ .beginSession)
    (hn : n ≤ max w.settings.subscriptionPollMs 1) (h : w.step e = some w') :
    ReadPace n ((w.readTime e).or last) w' := by
  intro s' hs'
  obtain ⟨s, hs, hstep⟩ := step_session h hb s' hs'
  obtain ⟨hflush, hread, hlast⟩ := hI s hs
  have hle := step_now h
  have hgap := millis_mono hn
  cases hstep with
  | turn he he' hf hn' hp =>
    have hnone : w.readTime e = none := by
      cases e with
      | readDesired answers => exact absurd rfl (he' answers)
      | _ => rfl
    rw [hnone, Option.none_or, hn']
    rcases hp with hp | ⟨hp, hp'⟩
    · rw [hp]
      exact ⟨fun now h => (hflush now h).trans hle, fun now h => (hread now h).trans hle,
        fun t ht => ⟨(hlast t ht).1.trans hle, (hlast t ht).2⟩⟩
    · rw [hp'.1, hp'.2.1]
      exact ⟨nofun, nofun, fun t ht => ⟨(hlast t ht).1.trans hle, fun _ => (hlast t ht).2 hp.2.2⟩⟩
  | spun hp =>
    refine ⟨fun now h => ?_, nofun, fun t ht => ⟨(hlast t ht).1.trans hle, fun _ => ?_⟩⟩
    · cases h
      exact hle
    · exact (hlast t ht).2 (by rw [hp]; rfl)
  | skipFlush hp hw =>
    refine ⟨nofun, fun now h => ?_, fun t ht => ⟨(hlast t ht).1.trans hle, fun _ => ?_⟩⟩
    · cases h
      exact (hflush _ (by rw [hp]; rfl)).trans hle
    · exact (hlast t ht).2 (by rw [hp]; rfl)
  | flush hp hw =>
    refine ⟨nofun, fun now h => ?_, fun t ht => ⟨(hlast t ht).1.trans hle, fun _ => ?_⟩⟩
    · cases h
      exact (hflush _ (by rw [hp]; rfl)).trans hle
    · exact (hlast t ht).2 (by rw [hp]; rfl)
  | skipRead hp hw =>
    have hnone : ∀ answers, w.readTime (.readDesired answers) = none := fun _ => if_neg hw
    rw [hnone]
    exact ⟨nofun, nofun, fun t ht => ⟨(hlast t ht).1.trans hle, fun _ =>
      (hlast t ht).2 (by rw [hp]; rfl)⟩⟩
  | read hp hw =>
    have hsome : ∀ answers, w.readTime (.readDesired answers) = some w.now := fun _ => if_pos hw
    rw [hsome]
    refine ⟨nofun, nofun, fun t ht => ?_⟩
    cases ht
    exact ⟨hle, fun _ => Int.add_le_add_left hgap w.now⟩
  | readWrite pass hp hw =>
    have hsome : ∀ answers, w.readTime (.readDesired answers) = some w.now := fun _ => if_pos hw
    rw [hsome]
    refine ⟨nofun, nofun, fun t ht => ?_⟩
    cases ht
    exact ⟨hle, nofun⟩
  | wrote hp =>
    refine ⟨nofun, nofun, fun t ht => ⟨(hlast t ht).1.trans hle, fun _ => ?_⟩⟩
    exact Int.add_le_add (hlast t ht).1 hgap

omit [Rclrs] in
/-- A flush is not due before its time. -/
theorem flush_after {last : Option Time} (hI : FlushPace m last w) (hw : w.Flushes) :
    ∀ t ∈ last, t + millis m ≤ w.now := by
  obtain ⟨o, ho, s, hs, now, hp, hdue⟩ := hw
  obtain ⟨hnow, hlast⟩ := hI s (by simp [World.session, Option.mem_def.mp ho, Option.mem_def.mp hs])
  rw [not_or, not_lt] at hdue
  exact fun t ht => ((hlast t ht).trans hdue.2).trans (hnow now hp)

omit [Rclrs] in
theorem read_after {last : Option Time} (hI : ReadPace n last w) (hw : w.Reads) :
    ∀ t ∈ last, t + millis n ≤ w.now := by
  obtain ⟨o, ho, s, hs, now, hp, hdue⟩ := hw
  obtain ⟨-, hnow, hlast⟩ :=
    hI s (by simp [World.session, Option.mem_def.mp ho, Option.mem_def.mp hs])
  rw [not_lt] at hdue
  have hwrite : s.phase.writing = none := by
    unfold Phase.reading at hp
    split at hp
    · rename_i h
      rw [h]
      rfl
    · cases hp
  exact fun t ht => (((hlast t ht).2 hwrite).trans hdue).trans (hnow now hp)

/-- Within a session the mailboxes are drained at least `m` milliseconds apart and the subscriptions
read at least `n` apart, where the settings in force always ask for that much. -/
theorem session_pace {w : World} (hb : w.step .beginSession = some w₀) (hes : .beginSession ∉ es)
    (hr : run World.step w₀ es = some w₁)
    (hg : Along World.step (fun w _ => PollsAtLeast m n w) w₀ es) :
    (history World.step World.flushTime w₀ es).IsChain (fun s t => s + millis m ≤ t)
      ∧ (history World.step World.readTime w₀ es).IsChain (fun s t => s + millis n ≤ t) := by
  have hb' : Along World.step (fun _ e => e ≠ .beginSession) w₀ es :=
    along_of_forall fun _ he => ne_of_mem_of_not_mem he hes
  have hstart : w₀.session = some (.start w.now) := by
    obtain ⟨o, reinitAfter, -, rfl⟩ := step_spec hb
    rfl
  constructor
  · refine (run_chain (I := FlushPace m) ?_ ?_ ?_ (hb'.and hg) hr).1
    · intro w e w' last hI hg h hmark
      have hnext := flushPace_step hI hg.1 hg.2.1 h
      rwa [hmark, Option.none_or] at hnext
    · intro w e w' last t hI hg h hmark
      have hnext := flushPace_step hI hg.1 hg.2.1 h
      rw [hmark, Option.some_or] at hnext
      obtain ⟨-, hw, rfl⟩ := flushTime_eq_some hmark
      exact ⟨flush_after hI hw, hnext⟩
    · intro s hs
      rw [hstart] at hs
      cases hs
      exact ⟨nofun, nofun⟩
  · refine (run_chain (I := ReadPace n) ?_ ?_ ?_ (hb'.and hg) hr).1
    · intro w e w' last hI hg h hmark
      have hnext := readPace_step hI hg.1 hg.2.2 h
      rwa [hmark, Option.none_or] at hnext
    · intro w e w' last t hI hg h hmark
      have hnext := readPace_step hI hg.1 hg.2.2 h
      rw [hmark, Option.some_or] at hnext
      obtain ⟨-, hw, rfl⟩ := readTime_eq_some hmark
      exact ⟨read_after hI hw, hnext⟩
    · intro s hs
      rw [hstart] at hs
      cases hs
      exact ⟨nofun, nofun, nofun⟩

end Runs

section Witness

open Reference

/-- Two iterations a quarter of a second apart. -/
def readsTwice : List Event :=
  toGraph .idle ++ [.observe (.ok talker), .advance 250000] ++ toGraph .idle

theorem readsTwice_one : .beginSession ∉ readsTwice := by
  simp [readsTwice, toGraph]

theorem session_pace_readsTwice : ∃ w₀ w₁, run World.step w₀ readsTwice = some w₁
    ∧ (history World.step World.readTime w₀ readsTwice).length = 2
    ∧ (history World.step World.readTime w₀ readsTwice).IsChain
      (fun s t => s + millis 250 ≤ t) := by
  have h : ((run World.step (.initial .default) [.createExtension, .startWorker 1]).any fun w =>
      (w.step .beginSession).any fun w₀ => (run World.step w₀ readsTwice).any fun _ => decide
        ((history World.step World.readTime w₀ readsTwice).length = 2
          ∧ Along World.step (fun w _ => PollsAtLeast 10 250 w) w₀ readsTwice)) = true := by
    decide +kernel
  simp only [Option.any_eq_true, decide_eq_true_eq] at h
  obtain ⟨w, -, w₀, hb, w₁, hr, hlen, hg⟩ := h
  exact ⟨w₀, w₁, hr, hlen, (session_pace hb readsTwice_one hr hg).2⟩

end Witness

end PgRos2
