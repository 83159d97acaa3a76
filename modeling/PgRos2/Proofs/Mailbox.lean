import Mathlib.Algebra.Order.BigOperators.Group.List
import PgRos2.Proofs.Agreement
import PgRos2.Proofs.Messaging

/-!
# What waits in the mailboxes

A step does one of a few things to the live subscription of a topic (`step_live`): its callback
hears a message, a flush takes what waits, a read makes or stops it. So what waits in a mailbox is
the encoding of a message that was delivered to that topic, within the limit the callback was given
(`run_waits`), and all of it together takes no more room than one message a topic
(`mailboxes_hold`).
-/

namespace PgRos2

open Lib

/-- What a step does to the live subscription of a topic. -/
inductive LiveStep [Rclrs] (t : String) (w : World) : Event → Option Live → Option Live → Prop
  | keep (e : Event) (live : Option Live) : LiveStep t w e live live
  | stop (e : Event) (live : Option Live) : LiveStep t w e live none
  | hear {T : MessageType} (message : T.Val) (live : Live) :
    LiveStep t w (.message t T message) (some live) (some (live.callback t message))
  | drain (live : Live) : LiveStep t w .flush (some live) (some live.drained)
  | subscribe (answers : SubscribeAnswers) (messageType : String) :
    LiveStep t w (.readDesired (.ok answers)) none
      (some ⟨messageType, max w.settings.messageMaxBytes 1, .empty⟩)

/-- The bytes of the message that waits. -/
def Mailbox.held (mailbox : Mailbox) : ℕ :=
  (mailbox.pending.map fun p => p.2.utf8ByteSize).getD 0

/-- What waits in a mailbox came of messages that were delivered to the topic: one that `payload`
encoded, and the error of one that it did not. -/
structure Live.Waits [Rclrs] (es : List Event) (topic : String) (live : Live) : Prop where
  pending : ∀ sequence text, live.mailbox.pending = some (sequence, text) →
    sequence ≤ live.mailbox.sequence ∧ ∃ (T : MessageType) (message : T.Val),
      Event.message topic T message ∈ es
        ∧ payload topic live.messageType sequence message live.limit = .ok text
  error : ∀ error, live.mailbox.error = some error →
    ∃ sequence ≤ live.mailbox.sequence, ∃ (T : MessageType) (message : T.Val),
      Event.message topic T message ∈ es
        ∧ payload topic live.messageType sequence message live.limit = .error error

section

variable {answers : SubscribeAnswers} {ttl limit : ℕ} {w : World} {o : Observer}

/-- A new subscription has the limit of the settings. -/
theorem subscribe_limit {topic : String} {requestedType : Option String} {live : Live}
    (h : subscribe answers topic requestedType limit = .ok live) : live.limit = limit := by
  unfold subscribe at h
  extract_lets create at h
  have hcreate (messageType : String) (h : create messageType = .ok live) : live.limit = limit := by
    obtain ⟨-, -, h⟩ := except_bind_eq_ok h
    split at h
    · cases h
      rfl
    · cases h
  split at h
  · split at h
    · exact hcreate _ h
    · obtain ⟨messageType, -, h⟩ := except_bind_eq_ok h
      exact hcreate messageType h
  · obtain ⟨messageType, -, h⟩ := except_bind_eq_ok h
    exact hcreate messageType h

/-- What the loop of `reconcile` finds live of a topic was live or is new. -/
theorem view_live {t : String} {live : Live}
    (h : (w.view answers ttl limit o t).live = some live) :
    o.subscriptions.lookup t = some live
      ∨ o.subscriptions.lookup t = none ∧ live = ⟨live.messageType, limit, .empty⟩ := by
  rw [World.view] at h
  rcases hrow : w.row t with _ | row <;> rw [hrow] at h
  · exact .inl h
  · rw [Option.map_some, TopicView.enterAll, TopicView.enter] at h
    split at h
    · cases h
    · dsimp only at h
      rcases hl : o.subscriptions.lookup t with _ | live'
      · rw [hl] at h
        dsimp only at h
        split at h
        · rename_i live' hsub
          cases h
          have hempty := (subscribe_eq_ok answers limit hsub).1
          exact .inr ⟨rfl, by rw [← hempty, ← subscribe_limit hsub]⟩
        · cases h
      · rw [hl] at h
        exact .inl h

/-- What `reconcile` leaves live was live or is new. -/
theorem reconciled_live {t : String} {live : Live}
    (h : (w.reconciled answers ttl limit o).1.lookup t = some live) :
    o.subscriptions.lookup t = some live
      ∨ o.subscriptions.lookup t = none ∧ live = ⟨live.messageType, limit, .empty⟩ := by
  by_cases hw : (w.view answers ttl limit o t).wanted
  · rw [reconciled_wanted answers ttl limit w o t hw] at h
    exact view_live h
  · rw [reconciled_unwanted answers ttl limit w o t hw] at h
    cases h

end

section

variable [Rclrs] {w w' : World} {o : Observer} {s : Session} {e : Event} {t : String}

theorem LiveStep.of_eq (h : w'.live t = w.live t) : LiveStep t w e (w.live t) (w'.live t) := by
  rw [h]
  exact .keep e _

theorem LiveStep.of_none (h : w'.live t = none) : LiveStep t w e (w.live t) (w'.live t) :=
  h ▸ .stop e (w.live t)

/-- A step in which the worker, if it goes on, keeps its subscriptions. -/
theorem LiveStep.of_worker (ho : w.worker = some o)
    (h : ∀ o' ∈ w'.worker, o'.subscriptions = o.subscriptions) :
    LiveStep t w e (w.live t) (w'.live t) := by
  rcases hw : w'.worker with _ | o'
  · exact .of_none (by rw [World.live, hw]; rfl)
  · exact .of_eq (by rw [live_of_worker hw, live_of_worker ho, h o' hw])

omit [Rclrs] in
theorem PollStep.subscriptions (h : PollStep w o s w') :
    ∀ o' ∈ w'.worker, o'.subscriptions = o.subscriptions := by
  intro o' ho'
  obtain rfl | ⟨f, previousParameters, parameterExtension, phase, _, _, -, -, rfl⟩ := h
  · cases ho'
  · cases ho'
    rfl

omit [Rclrs] in
theorem observe_subscriptions (graph : Except String RosGraph) :
    ∀ o' ∈ (w.observe o s graph).worker, o'.subscriptions = o.subscriptions := by
  intro o' ho'
  unfold World.observe at ho'
  split_ifs at ho'
  · cases ho'
    rfl
  · dsimp only at ho'
    split at ho' <;>
    · cases ho'
      rfl

theorem flush_live {now : Time} (ho : w.worker = some o) :
    LiveStep t w .flush (w.live t) ((w.flush o s now).live t) := by
  unfold World.flush
  split_ifs
  · exact .of_worker ho fun o' ho' => by cases ho'; rfl
  · split
    · exact .of_none rfl
    · rw [live_resume, live_of_worker ho, Table.lookup_mapVals]
      rcases o.subscriptions.lookup t with _ | live
      · exact .keep _ none
      · exact .drain live

theorem readDesired_live {now : Time} (ho : w.worker = some o)
    (answers : Except String SubscribeAnswers) :
    LiveStep t w (.readDesired answers) (w.live t) ((w.readDesired o s now answers).live t) := by
  rcases answers with error | answers
  · refine .of_worker ho fun o' ho' => ?_
    unfold World.readDesired at ho'
    split_ifs at ho' <;>
    · cases ho'
      rfl
  · by_cases hdue : now < s.nextSubscriptionPoll
    · rw [World.readDesired, if_pos hdue]
      exact .of_worker ho fun o' ho' => by cases ho'; rfl
    · have hlive : (w.readDesired o s now (.ok answers)).live t
          = (w.reconciled answers w.settings.subscriptionTtl
            (max w.settings.messageMaxBytes 1) o).1.lookup t := by
        rw [World.readDesired, if_neg hdue]
        dsimp only
        split_ifs <;> rfl
      rw [hlive, live_of_worker ho]
      rcases hl : (w.reconciled answers w.settings.subscriptionTtl
          (max w.settings.messageMaxBytes 1) o).1.lookup t with _ | live
      · exact .stop _ _
      · rcases reconciled_live hl with hkept | ⟨hnone, hnew⟩
        · rw [hkept]
          exact .keep _ _
        · rw [hnone, hnew]
          exact .subscribe answers live.messageType

theorem step_live (h : w.step e = some w') (t : String) :
    LiveStep t w e (w.live t) (w'.live t) := by
  have hs := step_spec h
  cases e with
  | startWorker pid =>
    obtain ⟨-, rfl⟩ := hs
    exact .of_none rfl
  | crash | abort => exact hs ▸ .of_none rfl
  | fail error =>
    obtain ⟨o, -, rfl⟩ := hs
    exact .of_none rfl
  | beginSession =>
    obtain ⟨o, reinitAfter, -, rfl⟩ := hs
    exact .of_none rfl
  | terminate => exact hs ▸ .of_none rfl
  | createExtension =>
    obtain ⟨-, rfl⟩ := hs
    exact .of_eq rfl
  | message topic T message =>
    obtain ⟨o, s, hp, ht, rfl⟩ := hs
    obtain ⟨live, hl⟩ := Table.mem_iff_lookup.mp ht
    rw [live_resume, live_of_worker hp.1, Table.lookup_update]
    split_ifs with htopic
    · subst htopic
      rw [hl]
      exact .hear message live
    · exact .keep _ _
  | graphChange =>
    obtain ⟨o, s, hp, rfl⟩ := hs
    exact .of_eq (live_of_worker hp.1 t).symm
  | spun =>
    obtain ⟨o, s, hp, rfl⟩ := hs
    exact .of_eq (live_of_worker hp.1 t).symm
  | flush =>
    obtain ⟨o, s, now, hp, rfl⟩ := hs
    exact flush_live hp.1
  | readDesired answers =>
    obtain ⟨o, s, now, hp, rfl⟩ := hs
    exact readDesired_live hp.1 answers
  | writeBack =>
    obtain ⟨o, s, pass, hp, rfl⟩ := hs
    exact .of_eq (live_of_worker hp.1 t).symm
  | tick answers =>
    obtain ⟨o, s, hp, rfl⟩ := hs
    exact .of_worker hp.1 (tick_spec s answers).subscriptions
  | observe graph =>
    obtain ⟨o, s, hp, rfl⟩ := hs
    exact .of_worker hp.1 (observe_subscriptions graph)
  | startPoll answers =>
    obtain ⟨o, s, nodes, hp, rfl⟩ := hs
    exact .of_worker hp.1 (startPoll_spec s nodes answers).subscriptions
  | decide =>
    obtain ⟨o, s, hp, rfl⟩ := hs
    exact .of_eq (live_of_worker hp.1 t).symm
  | _ => exact hs ▸ .of_eq rfl

end

/-! ## Runs -/

section Runs

variable [Rclrs] {w w' : World} {e : Event} {es : List Event} {topic : String} {live live' : Live}

theorem Live.Waits.later (h : live.Waits es topic) (e : Event) :
    live.Waits (es ++ [e]) topic where
  pending sequence text hp := by
    obtain ⟨hle, T, message, hmem, hpay⟩ := h.pending sequence text hp
    exact ⟨hle, T, message, List.mem_append_left _ hmem, hpay⟩
  error error he := by
    obtain ⟨sequence, hle, T, message, hmem, hpay⟩ := h.error error he
    exact ⟨sequence, hle, T, message, List.mem_append_left _ hmem, hpay⟩

/-- A callback leaves one of the two as it was, under a later number. -/
theorem Live.Waits.hear (h : live.Waits es topic) {T : MessageType} (message : T.Val) :
    (live.callback topic message).Waits (es ++ [.message topic T message]) topic := by
  have hlast : Event.message topic T message ∈ es ++ [.message topic T message] :=
    List.mem_append_right _ (List.mem_singleton_self _)
  have hlater := h.later (.message topic T message)
  rcases hr : payload topic live.messageType (live.mailbox.sequence + 1) message live.limit
    with error | text
  · rw [Live.callback_of_error hr]
    refine ⟨fun sequence text hp => ?_, fun error' he => ?_⟩
    · obtain ⟨hle, hrest⟩ := hlater.pending sequence text hp
      exact ⟨Nat.le_succ_of_le hle, hrest⟩
    · cases he
      exact ⟨_, le_rfl, T, message, hlast, hr⟩
  · rw [Live.callback_of_ok hr]
    refine ⟨fun sequence text' hp => ?_, fun error he => ?_⟩
    · cases hp
      exact ⟨le_rfl, T, message, hlast, hr⟩
    · obtain ⟨sequence, hle, hrest⟩ := hlater.error error he
      exact ⟨sequence, Nat.le_succ_of_le hle, hrest⟩

theorem callback_limit {T : MessageType} (live : Live) (topic : String) (message : T.Val) :
    (live.callback topic message).limit = live.limit := by
  unfold Live.callback
  dsimp only
  split <;> rfl

theorem waits_step (hI : ∀ live, w.live topic = some live → live.Waits es topic)
    (h : w.step e = some w') (hl : w'.live topic = some live') :
    live'.Waits (es ++ [e]) topic := by
  have hstep := step_live h topic
  rw [hl] at hstep
  generalize hw : w.live topic = before at hstep
  cases hstep with
  | keep => exact (hI live' hw).later e
  | hear message live => exact (hI live hw).hear message
  | drain live => exact ⟨nofun, nofun⟩
  | subscribe answers messageType => exact ⟨nofun, nofun⟩

/-- Whatever waits in a mailbox came of messages the run delivered. -/
theorem run_waits {settings : Settings} (hr : run World.step (.initial settings) es = some w) :
    ∀ topic live, w.live topic = some live → live.Waits es topic :=
  run_history (G := fun _ _ => True)
    (I := fun es w => ∀ topic live, w.live topic = some live → live.Waits es topic)
    (fun _ _ _ _ _ hI _ h topic _ hl => waits_step (hI topic) h hl) (fun _ _ hl => by cases hl)
    (along_true es _) hr

theorem limit_step {n : ℕ} (hn : w.settings.messageMaxBytes ≤ n)
    (hI : ∀ live, w.live topic = some live → live.limit ≤ max n 1)
    (h : w.step e = some w') (hl : w'.live topic = some live') : live'.limit ≤ max n 1 := by
  have hstep := step_live h topic
  rw [hl] at hstep
  generalize hw : w.live topic = before at hstep
  cases hstep with
  | keep => exact hI live' hw
  | hear message live => exact (callback_limit live topic message).symm ▸ hI live hw
  | drain live => exact hI live hw
  | subscribe answers messageType => exact max_le_max hn le_rfl

theorem Live.Waits.held_le (h : live.Waits es topic) : live.mailbox.held ≤ live.limit := by
  unfold Mailbox.held
  rcases hp : live.mailbox.pending with _ | ⟨sequence, text⟩
  · exact Nat.zero_le _
  · obtain ⟨-, T, message, -, hpay⟩ := h.pending sequence text hp
    obtain ⟨-, -, -, -, hsize⟩ := payload_eq_ok_iff.mp hpay
    exact hsize

/-- In every run the mailbox of a live topic holds what was encoded of one message delivered to it,
within the limit in force when it was subscribed, and the error of another; so the messages that
wait never take more room than one of the largest for each live topic. -/
theorem mailboxes_hold {settings : Settings} {n : ℕ}
    (hr : run World.step (.initial settings) es = some w)
    (hg : Along World.step (fun w _ => w.settings.messageMaxBytes ≤ n) (.initial settings) es) :
    (∀ topic live, w.live topic = some live → live.Waits es topic)
      ∧ ∀ o ∈ w.worker, (o.subscriptions.entries.map fun entry => entry.2.mailbox.held).sum
        ≤ o.subscriptions.entries.length * max n 1 := by
  have hwaits := run_waits hr
  have hlimit : ∀ topic live, w.live topic = some live → live.limit ≤ max n 1 :=
    run_inv (I := fun w => ∀ topic live, w.live topic = some live → live.limit ≤ max n 1)
      (fun _ _ _ hI hn h topic _ hl => limit_step hn (hI topic) h hl) hg hr fun _ _ hl => by
        cases hl
  refine ⟨hwaits, fun o ho => ?_⟩
  have hentry : ∀ entry ∈ o.subscriptions.entries, entry.2.mailbox.held ≤ max n 1 := by
    rintro ⟨topic, live⟩ hmem
    have hl : w.live topic = some live :=
      (live_of_worker ho topic).trans (Table.lookup_eq_some_iff.mpr hmem)
    exact (hwaits topic live hl).held_le.trans (hlimit topic live hl)
  have hsum := List.sum_le_card_nsmul
    (o.subscriptions.entries.map fun entry => entry.2.mailbox.held) (max n 1) fun held hheld => by
      obtain ⟨entry, hmem, rfl⟩ := List.mem_map.mp hheld
      exact hentry entry hmem
  simpa using hsum

end Runs

section Witness

open Reference

/-- A worker that has heard two messages since its last flush. -/
def hearsTwice : List Event :=
  servesChat ++ [.tick .idle, .observe (.error "timeout"), .message "/chat" stringType ("hi", ()),
    .message "/chat" stringType ("hello", ())]

theorem mailboxes_hold_hearsTwice : ∃ w o live,
    run World.step (.initial .default) hearsTwice = some w ∧ w.worker = some o
      ∧ w.live "/chat" = some live ∧ live.Waits hearsTwice "/chat"
      ∧ 0 < live.mailbox.held
      ∧ (o.subscriptions.entries.map fun entry => entry.2.mailbox.held).sum
        ≤ o.subscriptions.entries.length * max 1048576 1 := by
  have h : ((run World.step (.initial .default) hearsTwice).any fun w =>
      w.worker.any fun _ => (w.live "/chat").any fun live => decide (0 < live.mailbox.held
        ∧ Along World.step (fun w _ => w.settings.messageMaxBytes ≤ 1048576) (.initial .default)
          hearsTwice)) = true := by
    decide +kernel
  simp only [Option.any_eq_true, decide_eq_true_eq] at h
  obtain ⟨w, hr, o, ho, live, hl, hheld, hg⟩ := h
  obtain ⟨hwaits, hsum⟩ := mailboxes_hold hr hg
  exact ⟨w, o, live, hr, ho, hl, hwaits "/chat" live hl, hheld, hsum o ho⟩

end Witness

end PgRos2
