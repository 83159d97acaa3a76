import PgRos2.Proofs.Mailbox
import PgRos2.Proofs.PollPace
import PgRos2.Proofs.Text

/-!
# What can end the worker

A worker ends because PostgreSQL ends it, because ROS fails it, or because a transaction aborts. An
SQL error such as a lock timeout can abort any of its transactions and nothing else of what it does
(`transacts_of_abort`). What ROS told it aborts two of them, and only where a table refuses it: a
flush, on a message that reads back and has a U+0000 in it, and a rewrite of the parameters, on such
a value or on a name that the index cannot hold (`worker_ends_iff`). No parameter is inserted twice,
since the poll of a session comes from `start` and its own ticks (`run_distinct`).
-/

namespace PgRos2

open Lib

/-- A poll gives no snapshot of repeated keys, in every state of the system. -/
def World.PollsOnce (w : World) : Prop :=
  ∀ s ∈ w.session, ∀ poll ∈ s.parameterPoll, poll.Distinct

section Worker

variable [Rclrs] {w w' : World} {o : Observer} {s : Session} {e : Event} {es : List Event}

theorem pollsOnce_step (hI : w.PollsOnce) (h : w.step e = some w') : w'.PollsOnce := by
  by_cases hb : e = .beginSession
  · subst hb
    obtain ⟨o, reinitAfter, -, rfl⟩ := step_spec h
    intro s hs poll hpoll
    cases hs
    cases hpoll
  · intro s' hs' poll' hpoll'
    obtain ⟨s, hs, hchange⟩ := step_poll h hb s' hs'
    generalize w.pollMark e = mark at hchange
    cases hchange with
    | keep hpoll _ _ => exact hI s hs poll' (hpoll ▸ hpoll')
    | drop _ _ hpoll _ =>
      rw [hpoll] at hpoll'
      cases hpoll'
    | go answers hpoll ht hgo _ _ =>
      rw [hgo] at hpoll'
      cases hpoll'
      exact (Poll.tick_distinct (hI s hs _ hpoll) ht).1
    | stop _ _ hpoll _ _ =>
      rw [hpoll] at hpoll'
      cases hpoll'
    | start answers _ ht hpoll _ =>
      rw [hpoll] at hpoll'
      cases hpoll'
      exact Poll.start_distinct ht
    | fail _ _ hpoll _ _ => exact hI s hs poll' (hpoll ▸ hpoll')

theorem run_distinct {settings : Settings} (hr : run World.step (.initial settings) es = some w) :
    w.PollsOnce :=
  run_invariant (I := World.PollsOnce) (fun _ _ _ => pollsOnce_step) hr fun s hs => by cases hs

/-! ## The two transactions -/

/-- A flush of what `payload` produced aborts when a message that reads back has a U+0000 in it. -/
theorem flush_eq_none_iff_text {topics : LiveMap} (hp : Produced topics) (now : Time)
    (ext : Extension) :
    flush topics now (some ext) = none ↔ ∃ topic live sequence text j,
      topics.lookup topic = some live ∧ live.Carries topic sequence text j ∧ Reparses j
        ∧ ¬ IsText j := by
  rw [flush_eq_none_iff]
  constructor
  · rintro ⟨topic, live, ⟨sequence, v⟩, hl, hm, hv⟩
    obtain ⟨text, hpend, hread⟩ := Live.message_eq_some hm
    obtain ⟨j, hc⟩ := hp.carries hl hpend
    obtain ⟨-, hno⟩ | ⟨hre, v', hv', hiff⟩ := hc.fromStrLimited
    · rw [hno] at hread
      cases hread
    · rw [hv', Option.some.injEq] at hread
      subst hread
      refine ⟨topic, live, sequence, text, j, hl, hc, hre, fun ht => ?_⟩
      have hsome := hiff.mpr ht
      rw [hv] at hsome
      cases hsome
  · rintro ⟨topic, live, sequence, text, j, hl, hc, hre, hno⟩
    obtain ⟨hnot, -⟩ | ⟨-, v, hv, hiff⟩ := hc.fromStrLimited
    · exact absurd hre hnot
    · refine ⟨topic, live, (sequence, v), hl, by simp [Live.message, hc.1, hv], ?_⟩
      rw [← Option.not_isSome_iff_eq_none]
      exact fun hsome => hno (hiff.mp hsome)

/-! ## The worker -/

/-- The events that end the worker: PostgreSQL ends it, ROS fails it, an SQL error aborts the
transaction that is to run, or that of a flush or of a poll aborts on what a table refuses. -/
def World.Fatal (w : World) : Event → Prop
  | .crash | .fail _ | .terminate => True
  | .abort => ∃ o ∈ w.worker, ∃ s ∈ o.session, w.transacts o s = true
  | .flush => w.Flushes ∧ w.extension.isSome ∧ ∃ topic live sequence text j,
    w.live topic = some live ∧ live.Carries topic sequence text j ∧ Reparses j ∧ ¬ IsText j
  | .tick answers => ∃ o ∈ w.worker, ∃ s ∈ o.session, ∃ poll ∈ s.parameterPoll, ∃ poll' ps,
    poll.tick w.now answers = .ok (poll', some ps) ∧ ∃ ext ∈ w.extension,
      PgRos2.rewrites ext ps o.previousParameters o.parameterExtension = true
        ∧ ∃ p ∈ ps, ¬ p.Storable
  | _ => False

theorem flush_ends_iff {now : Time} (hp : w.InPhase o s (.flush now))
    (hproduced : Produced o.subscriptions) :
    (w.flush o s now).worker = none ↔ w.Fatal .flush := by
  have hflushes := flushes_iff hp
  have hlive := live_of_worker hp.1
  unfold World.flush
  by_cases hdue : o.subscriptions.entries = [] ∨ now < s.nextMessageFlush
  · rw [if_pos hdue]
    exact iff_of_false nofun fun h => hflushes.mp h.1 hdue
  · rw [if_neg hdue]
    simp only [World.Fatal, hflushes, hlive, hdue, not_false_eq_true, true_and]
    rcases hx : w.extension with _ | ext
    · exact iff_of_false nofun fun h => by cases h.1
    · rw [← flush_eq_none_iff_text hproduced w.now ext]
      rcases PgRos2.flush o.subscriptions w.now (some ext) with _ | extension
      · exact iff_of_true rfl ⟨rfl, rfl⟩
      · exact iff_of_false nofun nofun

theorem completePoll_ends_iff (result : Except String (List Parameter)) :
    (w.completePoll o s result).worker = none
      ↔ persist w.extension o.pid w.now result o.previousParameters o.parameterExtension
        = none := by
  unfold World.completePoll
  split
  · rename_i h
    exact iff_of_true rfl h
  · rename_i h
    exact iff_of_false nofun (by rw [h]; nofun)

/-- A failure is told in one statement, which takes any text. -/
theorem persist_error_ne_none (ext : Option Extension) (pid : ℕ) (now : Time) (error : String)
    (previous : Option (List Parameter)) (previousExtension : Option Oid) :
    persist ext pid now (.error error) previous previousExtension ≠ none := by
  rcases ext with _ | ext <;> nofun

theorem tick_ends_iff (hp : w.InPhase o s .poll) (hpolls : w.PollsOnce) (answers : TickAnswers) :
    (w.tick o s answers).worker = none ↔ w.Fatal (.tick answers) := by
  have hfatal : w.Fatal (.tick answers) ↔ ∃ poll ∈ s.parameterPoll, ∃ poll' ps,
      poll.tick w.now answers = .ok (poll', some ps) ∧ ∃ ext ∈ w.extension,
        PgRos2.rewrites ext ps o.previousParameters o.parameterExtension = true
          ∧ ∃ p ∈ ps, ¬ p.Storable := by
    simp [World.Fatal, hp.1, hp.2.1]
  rw [hfatal]
  unfold World.tick
  rcases hpoll : s.parameterPoll with _ | poll
  · exact iff_of_false nofun nofun
  dsimp only
  rcases ht : poll.tick w.now answers with error | ⟨poll', _ | ps⟩
  · dsimp only
    rw [completePoll_ends_iff]
    refine iff_of_false (persist_error_ne_none _ _ _ _ _ _) ?_
    rintro ⟨poll₁, hpoll₁, poll', ps, h, -⟩
    cases hpoll₁
    rw [ht] at h
    cases h
  · refine iff_of_false nofun ?_
    rintro ⟨poll₁, hpoll₁, poll', ps, h, -⟩
    cases hpoll₁
    rw [ht] at h
    cases h
  · dsimp only
    rw [completePoll_ends_iff]
    have hk : (ps.map Parameter.key).Nodup :=
      (Poll.tick_distinct (hpolls s (session_of_phase hp) poll hpoll) ht).2 ps rfl
    rcases hx : w.extension with _ | ext
    · refine iff_of_false nofun ?_
      rintro ⟨-, -, -, -, -, ext, hext, -⟩
      cases hext
    · rw [persist_eq_none_iff hk]
      constructor
      · intro h
        exact ⟨poll, rfl, poll', ps, ht, ext, rfl, h⟩
      · rintro ⟨poll₁, hpoll₁, poll'', ps', h, ext', hext, hrest⟩
        cases hpoll₁
        cases hext
        rw [ht] at h
        cases h
        exact hrest

theorem startPoll_survives (nodes : List Name) (answers : StartAnswers) :
    (w.startPoll o s nodes answers).worker ≠ none := by
  unfold World.startPoll
  split
  · nofun
  · split
    · rename_i h
      exact absurd h (persist_error_ne_none _ _ _ _ _ _)
    · nofun

omit [Rclrs] in
theorem observe_survives (graph : Except String RosGraph) :
    (w.observe o s graph).worker ≠ none := by
  unfold World.observe
  split_ifs
  · nofun
  · dsimp only
    split <;> nofun

omit [Rclrs] in
theorem readDesired_survives (now : Time) (answers : Except String SubscribeAnswers) :
    (w.readDesired o s now answers).worker ≠ none := by
  unfold World.readDesired
  split_ifs
  · nofun
  · dsimp only
    split
    · nofun
    · split_ifs <;> nofun

/-- An SQL error ends the worker where a transaction is to run. -/
theorem transacts_of_abort (h : w.step .abort = some w') :
    (∃ o ∈ w.worker, ∃ s ∈ o.session, w.transacts o s = true) ∧ w'.worker = none := by
  simp only [World.step, World.workerStep, World.sessionStep] at h
  split at h
  · cases h
  · rename_i o ho
    split at h
    · cases h
    · rename_i s hs
      split at h
      · rename_i htransacts
        cases h
        exact ⟨⟨o, ho, s, hs, htransacts⟩, rfl⟩
      · cases h

/-- In every reachable state a step ends the worker just when it is one of the fatal ones. -/
theorem worker_ends_iff {settings : Settings} (hr : run World.step (.initial settings) es = some w)
    (hw : w.worker.isSome) (h : w.step e = some w') : w'.worker = none ↔ w.Fatal e := by
  have halive : w.worker ≠ none := Option.isSome_iff_ne_none.mp hw
  have hs := step_spec h
  cases e with
  | crash => exact iff_of_true (hs ▸ rfl) trivial
  | fail error =>
    obtain ⟨o, -, rfl⟩ := hs
    exact iff_of_true rfl trivial
  | abort =>
    obtain ⟨htransacts, hnone⟩ := transacts_of_abort h
    exact iff_of_true hnone htransacts
  | terminate => exact iff_of_true (hs ▸ rfl) trivial
  | flush =>
    obtain ⟨o, s, now, hp, rfl⟩ := hs
    refine flush_ends_iff hp fun topic live sequence text hl hpend => ?_
    have hwaits := run_waits hr topic live ((live_of_worker hp.1 topic).trans hl)
    obtain ⟨-, T, message, -, hpay⟩ := hwaits.pending sequence text hpend
    exact ⟨T, message, live.limit, hpay⟩
  | tick answers =>
    obtain ⟨o, s, hp, rfl⟩ := hs
    exact tick_ends_iff hp (run_distinct hr) answers
  | startWorker pid => exact absurd hs.1 halive
  | createExtension =>
    obtain ⟨-, rfl⟩ := hs
    exact iff_of_false halive id
  | beginSession =>
    obtain ⟨o, reinitAfter, -, rfl⟩ := hs
    exact iff_of_false nofun id
  | message topic T message =>
    obtain ⟨o, s, -, -, rfl⟩ := hs
    exact iff_of_false nofun id
  | graphChange =>
    obtain ⟨o, s, -, rfl⟩ := hs
    exact iff_of_false nofun id
  | spun =>
    obtain ⟨o, s, -, rfl⟩ := hs
    exact iff_of_false nofun id
  | readDesired answers =>
    obtain ⟨o, s, now, -, rfl⟩ := hs
    exact iff_of_false (readDesired_survives now answers) id
  | writeBack =>
    obtain ⟨o, s, pass, -, rfl⟩ := hs
    exact iff_of_false nofun id
  | observe graph =>
    obtain ⟨o, s, -, rfl⟩ := hs
    exact iff_of_false (observe_survives graph) id
  | startPoll answers =>
    obtain ⟨o, s, nodes, -, rfl⟩ := hs
    exact iff_of_false (startPoll_survives nodes answers) id
  | decide =>
    obtain ⟨o, s, -, rfl⟩ := hs
    exact iff_of_false nofun id
  | _ => exact iff_of_false (hs ▸ halive) id

end Worker

section Witness

open Reference

/-- A worker about to write a text with a U+0000 in it. -/
def hearsNul : List Event :=
  servesChat ++ [.tick .idle, .observe (.error "timeout"), .message "/chat" stringType ("\x00", ()),
    .spun]

theorem worker_ends_iff_nul : ∃ w w', run World.step (.initial .default) hearsNul = some w
    ∧ w.step .flush = some w' ∧ w'.worker = none ∧ w.Fatal .flush := by
  have h : ((run World.step (.initial .default) hearsNul).any fun w => w.worker.isSome
      && (w.step .flush).any fun w' => w'.worker.isNone) = true := by
    decide +kernel
  simp only [Option.any_eq_true, Bool.and_eq_true, Option.isNone_iff_eq_none] at h
  obtain ⟨w, hr, hw, w', hstep, hnone⟩ := h
  exact ⟨w, w', hr, hstep, hnone, (worker_ends_iff hr hw hstep).mp hnone⟩

end Witness

end PgRos2
