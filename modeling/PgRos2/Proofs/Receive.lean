import PgRos2.Receive
import PgRos2.Lib.Ledger
import PgRos2.Lib.Run
import PgRos2.Proofs.Payload

/-!
# No message goes unaccounted for

Beside a run of `receive` a ledger keeps where the number of each message is. The channel and the
notifications stand for the numbers the ledger has there, in order, and each counter counts the
numbers of its place, so a counter is only ever reset to nothing. Notifications are in the order of
their numbers, hence all different.
-/

namespace PgRos2

open Lib

namespace Receive

/-- Where the number of a message can be: the notifications, the channel, one of the two pending
counters, or a counter of the warning of that index. -/
inductive Place where
  | notified
  | queued
  | encodingPending
  | dropPending
  | encodingReported (warning : ℕ)
  | dropReported (warning : ℕ)
  deriving DecidableEq

/-- The places of a message that could not be encoded. -/
def Place.Encoding : Place → Prop
  | .encodingPending | .encodingReported _ => True
  | _ => False

/-- How many messages the state counts at a place. -/
def State.counted (s : State) : Place → ℕ
  | .notified => (s.committed.flatten ++ s.batch).length
  | .queued => s.channel.length
  | .encodingPending => s.encodingErrors
  | .dropPending => s.dropped
  | .encodingReported i => s.warnings[i]?.elim 0 Warning.encodingDrops
  | .dropReported i => s.warnings[i]?.elim 0 Warning.queueDrops

/-- The history kept beside a run: what the callback made of each message, and where its number
is. -/
abbrev History := Ledger Place (Except String String)

/-- The numbers of the item taken. -/
def recordTake (s : State) (taken : ℕ) (l : History) : History :=
  if taken < drainLimit then
    match s.channel with
    | [] => l
    | .ok _ :: _ => l.moveFirst .queued .notified
    | .error _ :: _ => l.moveFirst .queued .encodingPending
  else l

/-- The numbers a report warns of. The counters are reset with or without a warning. -/
def recordReport (s : State) (now : Time) (l : History) : History :=
  if s.nextReport ≤ now then
    if s.Warns then
      (l.moveAll .dropPending (.dropReported s.warnings.length)).moveAll .encodingPending
        (.encodingReported s.warnings.length)
    else (l.lose .dropPending).lose .encodingPending
  else l

theorem eraseDups_eq_self {α : Type} [DecidableEq α] : ∀ {xs : List α}, xs.Nodup →
    xs.eraseDups = xs
  | [], _ => rfl
  | x :: xs, h => by
    obtain ⟨hx, hxs⟩ := List.nodup_cons.mp h
    have hfilter : xs.filter (fun y => !y == x) = xs :=
      List.filter_eq_self.mpr fun y hy => by
        simpa using ne_of_mem_of_not_mem hy hx
    rw [List.eraseDups_cons, hfilter, eraseDups_eq_self hxs]

/-- What the warning of an index counts, once one more was given. -/
theorem elim_append_warning (warnings : List Warning) (w : Warning) (f : Warning → ℕ) (i : ℕ) :
    (warnings ++ [w])[i]?.elim 0 f
      = if i = warnings.length then f w else warnings[i]?.elim 0 f := by
  rcases Nat.lt_trichotomy i warnings.length with h | rfl | h
  · rw [if_neg h.ne, List.getElem?_append_left h]
  · rw [if_pos rfl, List.getElem?_concat_length]
    rfl
  · rw [if_neg h.ne', List.getElem?_eq_none (by simp; omega),
      List.getElem?_eq_none (Nat.le_of_lt h)]

/-- A notification is on the topic's channel and has the payload of the message of that number. -/
def Notifies (topic : String) (l : History) (n : ℕ) (note : Notification) : Prop :=
  note.channel = topic ∧ l.Numbers n (.ok note.payload)

@[simp]
theorem notifies_moveFirst (topic : String) (l : History) {p q : Place} :
    Notifies topic (l.moveFirst p q) = Notifies topic l := by
  unfold Notifies
  rw [Ledger.numbers_moveFirst]

@[simp]
theorem notifies_moveAll (topic : String) (l : History) {p q : Place} :
    Notifies topic (l.moveAll p q) = Notifies topic l := rfl

section Frame

variable {topic : String} {s : State}

@[simp]
theorem batch_discover (s : State) (answers : SubscribeAnswers) (now after : Time) :
    (s.discover topic answers now after).batch = s.batch := by
  unfold State.discover
  dsimp only
  split_ifs
  · rcases findType answers topic with error | _ | messageType <;> rfl
  · rfl

@[simp]
theorem batch_report (s : State) (now after : Time) :
    (s.report topic now after).batch = s.batch := by
  unfold State.report
  split_ifs <;> rfl

/-- What is notified and not committed is there only in a drain, or right after it. -/
def State.Committing (s : State) : Prop :=
  s.batch ≠ [] → s.notified = true ∧ (s.phase = .commit ∨ ∃ taken, s.phase = .drain taken)

theorem State.Committing.eq_nil (h : s.Committing) (hd : ∀ taken, s.phase ≠ .drain taken)
    (hc : s.phase ≠ .commit) : s.batch = [] := by
  by_contra hb
  rcases (h hb).2 with hp | ⟨taken, hp⟩
  · exact hc hp
  · exact hd taken hp

theorem State.Committing.take (h : s.Committing) (taken : ℕ) :
    (s.take topic taken).Committing := by
  have hkeep : ∀ phase : Phase, phase = .commit ∨ (∃ taken, phase = .drain taken) → s.batch ≠ [] →
      s.notified = true ∧ (phase = .commit ∨ ∃ taken, phase = .drain taken) :=
    fun _ hphase hb => ⟨(h hb).1, hphase⟩
  unfold State.take
  split_ifs
  · rcases s.channel with _ | ⟨error | payload, channel⟩
    · exact hkeep _ (.inl rfl)
    · exact hkeep _ (.inr ⟨_, rfl⟩)
    · exact fun _ => ⟨rfl, .inr ⟨_, rfl⟩⟩
  · exact hkeep _ (.inl rfl)

theorem State.Committing.commit (h : s.Committing) : s.commit.batch = [] := by
  unfold State.commit
  split_ifs with hn
  · rfl
  · by_contra hb
    exact hn (h hb).1

end Frame

section Accounts

variable [Rclrs]

/-- The number the callback gives a message. -/
def recordCallback (s : State) (topic : String) {T : MessageType} (message : T.Val)
    (l : History) : History :=
  match s.subscription with
  | none => l
  | some subscription =>
    l.issue (if s.channel.length < channelCapacity then .queued else .dropPending)
      (subscription.encode topic message)

/-- What a step does to the numbers. -/
def record (topic : String) (s : State) (a : Act) (l : History) : History :=
  match a, s.phase with
  | .callback _ message, _ => recordCallback s topic message l
  | .take, .drain taken => recordTake s taken l
  | .report now _, _ => recordReport s now l
  | _, _ => l

/-- The callback of the message of that number gave `item`. -/
def Encodes (topic : String) (n : ℕ) (item : Except String String) : Prop :=
  ∃ (messageType : String) (T : MessageType) (message : T.Val),
    payload topic messageType n message notifyLimit = item

/-- Every number issued is at one place, once, and the state is what the ledger says. -/
structure Accounted (topic : String) (s : State) (l : History) : Prop where
  issued : l.issued = s.sequence
  encoded : ∀ n item, l.Numbers n item → Encodes topic n item
  settled : l.Settled
  ordered : (l.held .notified ++ l.held .queued).Pairwise (· < ·)
  notified : List.Forall₂ (Notifies topic l) (l.held .notified) (s.committed.flatten ++ s.batch)
  queued : List.Forall₂ l.Numbers (l.held .queued) s.channel
  capacity : s.channel.length ≤ channelCapacity
  failed : ∀ p : Place, p.Encoding → ∀ n ∈ l.held p, ∃ error, l.Numbers n (.error error)
  counted : ∀ p, (l.held p).length = s.counted p

variable {topic : String} {s : State} {l : History}

theorem accounted_start (topic : String) (now : Time) : Accounted topic (start now) .empty where
  issued := rfl
  encoded _ _ h := by cases h
  settled := Ledger.settled_empty
  ordered := .nil
  notified := .nil
  queued := .nil
  capacity := Nat.zero_le _
  failed _ _ _ h := by cases h
  counted p := by cases p <;> rfl

/-- A number issued now comes after those notified and queued. -/
theorem Accounted.ordered_issue (h : Accounted topic s l) :
    (l.held .notified ++ (l.held .queued ++ [l.issued])).Pairwise (· < ·) := by
  rw [← List.append_assoc, List.pairwise_append]
  refine ⟨h.ordered, List.pairwise_singleton _ _, fun a ha b hb => ?_⟩
  rw [List.mem_singleton.mp hb]
  rcases List.mem_append.mp ha with ha | ha
  · exact h.settled.known _ a ha
  · exact h.settled.known _ a ha

/-- What the callback sends is queued, or its number is counted as a drop. -/
theorem Accounted.trySend (h : Accounted topic s l) {item : Except String String}
    (hitem : Encodes topic l.issued item) {subscription : Subscription}
    (hs : subscription.sequence = l.issued + 1) :
    Accounted topic ({ s with subscription := some subscription }.trySend item)
      (l.issue (if s.channel.length < channelCapacity then .queued else .dropPending) item) := by
  have hencoded : ∀ p n item', (l.issue p item).Numbers n item' → Encodes topic n item' := by
    intro p n item' hn
    rcases (Ledger.numbers_issue l).mp hn with hn | ⟨rfl, rfl⟩
    · exact h.encoded n item' hn
    · exact hitem
  have hkeep : ∀ p n item', l.Numbers n item' → (l.issue p item).Numbers n item' :=
    fun p n item' hn => (Ledger.numbers_issue l).mpr (.inl hn)
  have hnotified := fun p => h.notified.imp fun n note hn =>
    show Notifies topic (l.issue p item) n note from ⟨hn.1, hkeep p n _ hn.2⟩
  have hqueued := fun p => h.queued.imp (hkeep p)
  unfold State.trySend
  dsimp only
  split_ifs with hc
  · exact { h with
      issued := by simp [State.sequence, hs]
      encoded := hencoded _
      settled := h.settled.issue _ _
      ordered := by simpa using h.ordered_issue
      notified := by simpa using hnotified _
      queued := by
        have hlast : (l.issue .queued item).Numbers l.issued item := by simp
        simpa using Ledger.forall₂_concat (hqueued _) hlast
      capacity := by simpa [Nat.add_one_le_iff] using hc
      failed := fun p hp n hn => by
        have hne : p ≠ .queued := by
          rintro rfl
          exact hp
        rw [Ledger.held_issue, if_neg hne] at hn
        exact (h.failed p hp n hn).imp fun error => hkeep _ n _
      counted := by
        intro p
        have hp := h.counted p
        cases p <;> simpa [State.counted] using hp }
  · exact { h with
      issued := by simp [State.sequence, hs]
      encoded := hencoded _
      settled := h.settled.issue _ _
      ordered := by simpa using h.ordered
      notified := by simpa using hnotified _
      queued := by simpa using hqueued _
      failed := fun p hp n hn => by
        have hne : p ≠ .dropPending := by
          rintro rfl
          exact hp
        rw [Ledger.held_issue, if_neg hne] at hn
        exact (h.failed p hp n hn).imp fun error => hkeep _ n _
      counted := by
        intro p
        have hp := h.counted p
        cases p <;> simpa [State.counted] using hp }

theorem Accounted.callback (h : Accounted topic s l) {T : MessageType} {message : T.Val}
    {s' : State} (hs : s.callback topic message = some s') :
    Accounted topic s' (recordCallback s topic message l) := by
  unfold State.callback at hs
  unfold recordCallback
  rcases hsub : s.subscription with _ | subscription <;> simp only [hsub] at hs ⊢
  · cases hs
  have hl : l.issued = subscription.sequence := h.issued.trans (by rw [State.sequence, hsub])
  cases hs
  exact h.trySend ⟨subscription.messageType, T, message, by rw [hl, Subscription.encode]⟩
    (by rw [hl])

/-- Discovery subscribes before there is any number. -/
theorem Accounted.discover (h : Accounted topic s l) (answers : SubscribeAnswers)
    (now after : Time) : Accounted topic (s.discover topic answers now after) l := by
  unfold State.discover
  dsimp only
  split_ifs with hs
  · have hnone : s.subscription = none := Option.isNone_iff_eq_none.mp hs.1
    rcases findType answers topic with error | _ | messageType
    · exact { h with }
    · exact { h with }
    · exact { h with issued := by rw [h.issued, State.sequence, State.sequence, hnone] }
  · exact { h with }

/-- The item taken is notified, or its number is counted as an encoding error. -/
theorem Accounted.take (h : Accounted topic s l) (taken : ℕ) :
    Accounted topic (s.take topic taken) (recordTake s taken l) := by
  unfold State.take recordTake
  split_ifs with ht
  · have hqueued := h.queued
    have hcapacity := h.capacity
    rcases hc : s.channel with _ | ⟨error | payload, channel⟩ <;>
      rw [hc] at hqueued hcapacity <;> dsimp only
    · exact { h with
        queued := hqueued
        capacity := hcapacity
        counted := by
          intro p
          have hp := h.counted p
          cases p <;> simpa [State.counted, hc] using hp }
    all_goals
      obtain ⟨n, ns, hn, hns, hl⟩ := List.forall₂_cons_right_iff.mp hqueued
      have hheld := fun q r => Ledger.held_moveFirst l (q := q) hl r
    · exact { h with
        issued := l.issued_moveFirst.trans h.issued
        encoded := by simpa using h.encoded
        settled := h.settled.moveFirst (by decide)
        ordered := by simpa [hheld] using h.ordered.sublist (by simp [hl])
        notified := by simpa [hheld, Notifies] using h.notified
        queued := by simpa [hheld] using hns
        capacity := Nat.le_of_succ_le hcapacity
        failed := fun p hp m hm => by
          rw [hheld] at hm
          rw [Ledger.numbers_moveFirst]
          split_ifs at hm with hp' hp'
          · rcases List.mem_append.mp hm with hm | hm
            · exact h.failed .encodingPending trivial m hm
            · exact List.mem_singleton.mp hm ▸ ⟨error, hn⟩
          · cases hp' ▸ hp
          · exact h.failed p hp m hm
        counted := by
          intro p
          have hp := h.counted p
          cases p <;> simpa [State.counted, hheld, hl, hc] using hp }
    · have hnotified := Ledger.forall₂_concat h.notified
        (show Notifies topic l n ⟨topic, payload⟩ from ⟨rfl, hn⟩)
      exact { h with
        issued := l.issued_moveFirst.trans h.issued
        encoded := by simpa using h.encoded
        settled := h.settled.moveFirst (by decide)
        ordered := by simpa [hheld, hl] using h.ordered
        notified := by simpa [hheld, State.notify] using hnotified
        queued := by simpa [hheld] using hns
        capacity := Nat.le_of_succ_le hcapacity
        failed := fun p hp m hm => by
          rw [hheld] at hm
          rw [Ledger.numbers_moveFirst]
          split_ifs at hm with hp' hp'
          · cases hp' ▸ hp
          · cases hp' ▸ hp
          · exact h.failed p hp m hm
        counted := by
          intro p
          have hp := h.counted p
          cases p <;> simpa [State.counted, State.notify, hheld, hl, hc, ← Nat.add_assoc] using hp }
  · exact { h with }

/-- A commit keeps every notification. -/
theorem Accounted.commit (h : Accounted topic s l) : Accounted topic s.commit l := by
  unfold State.commit
  split_ifs
  · exact { h with
      notified := by simpa using h.notified
      counted := by
        intro p
        have hp := h.counted p
        cases p <;> simpa [State.counted] using hp }
  · exact { h with }

/-- A report moves the numbers counted to its warning. Without a warning there are none. -/
theorem Accounted.report (h : Accounted topic s l) (now after : Time) :
    Accounted topic (s.report topic now after) (recordReport s now l) := by
  unfold State.report recordReport
  split_ifs with hn hw
  · exact { h with
      settled := (h.settled.moveAll (by simp)).moveAll (by simp)
      ordered := by simpa using h.ordered
      notified := by simpa using h.notified
      queued := by simpa using h.queued
      failed := fun p hp n hm => by
        cases p with
        | encodingPending => simp at hm
        | encodingReported i =>
          have hm : n ∈ l.held (.encodingReported i) ∨ n ∈ l.held .encodingPending := by
            by_cases hi : i = s.warnings.length
            · simpa [hi] using hm
            · exact .inl (by simpa [hi] using hm)
          rcases hm with hm | hm
          · exact h.failed _ hp n hm
          · exact h.failed .encodingPending trivial n hm
        | _ => cases hp
      counted := by
        intro p
        have hp := h.counted p
        cases p with
        | encodingReported i =>
          have hpending := h.counted .encodingPending
          by_cases hi : i = s.warnings.length
          · have hnil : l.held (.encodingReported s.warnings.length) = [] := by
              simpa [State.counted, hi] using hp
            simpa [State.counted, hi, hnil] using hpending
          · simpa [State.counted, hi, elim_append_warning] using hp
        | dropReported i =>
          have hpending := h.counted .dropPending
          by_cases hi : i = s.warnings.length
          · have hnil : l.held (.dropReported s.warnings.length) = [] := by
              simpa [State.counted, hi] using hp
            simpa [State.counted, hi, hnil] using hpending
          · simpa [State.counted, hi, elim_append_warning] using hp
        | notified | queued => simpa [State.counted] using hp
        | encodingPending | dropPending => simp [State.counted] }
  · -- both counters are zero, so nothing is lost
    obtain ⟨hd, he⟩ := not_or.mp hw
    have hd : s.dropped = 0 := Nat.eq_zero_of_not_pos hd
    have he : s.encodingErrors = 0 := Nat.eq_zero_of_not_pos he
    have hdrop := List.eq_nil_of_length_eq_zero ((h.counted .dropPending).trans hd)
    have hencoding := List.eq_nil_of_length_eq_zero ((h.counted .encodingPending).trans he)
    rw [Ledger.lose_eq_self l hdrop, Ledger.lose_eq_self l hencoding]
    exact { h with
      counted := by
        intro p
        have hp := h.counted p
        cases p <;> simpa [State.counted, hd, he] using hp }
  · exact { h with }

/-- All a step can be. -/
def StepSpec (topic : String) (s : State) : Act → State → Prop
  | .callback _ message, s' => s.callback topic message = some s'
  | .spun outcome, s' => s.phase = .spin
    ∧ s' = { s with phase := match outcome with | .ok _ => .discover | .error error => .over error }
  | .discover answers now after, s' =>
    s.phase = .discover ∧ s' = s.discover topic answers now after
  | .take, s' => ∃ taken, s.phase = .drain taken ∧ s' = s.take topic taken
  | .commit, s' => s.phase = .commit ∧ s' = s.commit
  | .report now after, s' => s.phase = .report ∧ s' = s.report topic now after

theorem step_spec {a : Act} {s' : State} (hs : step topic s a = some s') :
    StepSpec topic s a s' := by
  unfold step at hs
  split at hs
  · cases hs
  · exact hs
  all_goals cases hs
  · exact ⟨‹_›, rfl⟩
  · exact ⟨‹_›, rfl⟩
  · exact ⟨‹_›, rfl⟩
  · exact ⟨_, ‹_›, rfl⟩
  · exact ⟨‹_›, rfl⟩
  · exact ⟨‹_›, rfl⟩

/-- A step keeps the accounts. -/
theorem Accounted.step (h : Accounted topic s l) {a : Act} {s' : State}
    (hs : step topic s a = some s') : Accounted topic s' (record topic s a l) := by
  have hspec := step_spec hs
  cases a with
  | callback T message => exact h.callback hspec
  | spun outcome =>
    obtain ⟨-, rfl⟩ := hspec
    exact { h with }
  | discover answers now after =>
    obtain ⟨-, rfl⟩ := hspec
    exact h.discover answers now after
  | take =>
    obtain ⟨taken, hp, rfl⟩ := hspec
    have hr : record topic s .take l = recordTake s taken l := by simp [record, hp]
    exact hr ▸ h.take taken
  | commit =>
    obtain ⟨-, rfl⟩ := hspec
    exact h.commit
  | report now after =>
    obtain ⟨-, rfl⟩ := hspec
    exact h.report now after

/-- The callback is none of the loop's business. -/
theorem callback_frame {T : MessageType} {message : T.Val} {s' : State}
    (hs : s.callback topic message = some s') :
    s'.phase = s.phase ∧ s'.notified = s.notified ∧ s'.batch = s.batch := by
  unfold State.callback at hs
  split at hs
  · cases hs
  · cases hs
    unfold State.trySend
    split_ifs <;> exact ⟨rfl, rfl, rfl⟩

theorem State.Committing.step (h : s.Committing) {a : Act} {s' : State}
    (hs : step topic s a = some s') : s'.Committing := by
  have hspec := step_spec hs
  cases a with
  | callback T message =>
    obtain ⟨hp, hn, hb⟩ := callback_frame hspec
    rw [State.Committing, hp, hn, hb]
    exact h
  | spun outcome =>
    obtain ⟨hp, rfl⟩ := hspec
    exact fun hb => absurd (h.eq_nil (by simp [hp]) (by simp [hp])) hb
  | discover answers now after =>
    obtain ⟨hp, rfl⟩ := hspec
    exact fun hb => absurd ((batch_discover s answers now after).trans
      (h.eq_nil (by simp [hp]) (by simp [hp]))) hb
  | take =>
    obtain ⟨taken, -, rfl⟩ := hspec
    exact h.take taken
  | commit =>
    obtain ⟨hp, rfl⟩ := hspec
    exact fun hb => absurd h.commit hb
  | report now after =>
    obtain ⟨hp, rfl⟩ := hspec
    exact fun hb => absurd ((batch_report s now after).trans
      (h.eq_nil (by simp [hp]) (by simp [hp]))) hb

/-- A step with its history. -/
def recordedStep (topic : String) (x : State × History) (a : Act) :
    Option (State × History) :=
  (step topic x.1 a).map fun s => (s, record topic x.1 a x.2)

theorem step_of_recorded {x x' : State × History} {a : Act}
    (h : recordedStep topic x a = some x') : step topic x.1 a = some x'.1 := by
  rw [recordedStep, Option.map_eq_some_iff] at h
  obtain ⟨s', hs, rfl⟩ := h
  exact hs

/-- Every run has its history. -/
theorem exists_recorded : ∀ {acts : List Act} {s s' : State} (l : History),
    run (step topic) s acts = some s' →
    ∃ l', run (recordedStep topic) (s, l) acts = some (s', l')
  | [], s, s', l, hr => ⟨l, by rw [run_nil, Option.some.injEq] at hr; rw [hr, run_nil]⟩
  | a :: acts, s, s', l, hr => by
    obtain ⟨m, hm, hr⟩ := run_cons_eq_some.mp hr
    obtain ⟨l', hl'⟩ := exists_recorded (record topic s a l) hr
    exact ⟨l', run_cons_eq_some.mpr ⟨(m, record topic s a l), by simp [recordedStep, hm], hl'⟩⟩

theorem Encodes.unique {n m : ℕ} {text : String} (hn : Encodes topic n (.ok text))
    (hm : Encodes topic m (.ok text)) : n = m := by
  obtain ⟨messageType, T, message, hn⟩ := hn
  obtain ⟨messageType', T', message', hm⟩ := hm
  obtain ⟨j, -, hj⟩ := parse_payload hn
  obtain ⟨j', -, hj'⟩ := parse_payload hm
  rw [hj, Option.some.injEq] at hj'
  exact (envelope_inj hj').2.2.1

theorem Encodes.size_le {n : ℕ} {text : String} (h : Encodes topic n (.ok text)) :
    text.utf8ByteSize ≤ 7999 := by
  obtain ⟨messageType, T, message, h⟩ := h
  obtain ⟨j, -, -, -, hsize⟩ := payload_eq_ok_iff.mp h
  exact hsize

/-- All notifications are different. -/
theorem Accounted.nodup (h : Accounted topic s l) : (s.committed.flatten ++ s.batch).Nodup :=
  Ledger.nodup_of_forall₂
    (fun n m _ hn hm => (h.encoded n _ hn.2).unique (h.encoded m _ hm.2)) h.notified
    (h.settled.once .notified)

theorem Accounted.delivered (h : Accounted topic s l) :
    ∀ batch ∈ s.batch :: s.committed, batch.Nodup ∧ delivered batch = batch := by
  intro batch hb
  have hnodup := h.nodup
  have hb : batch.Nodup := by
    rcases List.mem_cons.mp hb with rfl | hb
    · exact hnodup.of_append_right
    · exact (List.nodup_flatten.mp hnodup.of_append_left).1 batch hb
  exact ⟨hb, eraseDups_eq_self hb⟩

theorem Accounted.size_le (h : Accounted topic s l) :
    ∀ note ∈ s.committed.flatten ++ s.batch, note.payload.utf8ByteSize ≤ 7999 := by
  intro note hnote
  obtain ⟨n, -, hn⟩ := Ledger.exists_of_forall₂ h.notified hnote
  exact (h.encoded n _ hn.2).size_le

/-- Whatever the schedule, every message that reached the callback is at one place, once; the
notifications are in the order of their numbers, fit, and are all delivered. -/
theorem receive_accounts (topic : String) (now : Time) {acts : List Act}
    (hr : run (step topic) (start now) acts = some s) :
    ∃ l, run (recordedStep topic) (start now, .empty) acts = some (s, l)
      ∧ Accounted topic s l
      ∧ (∀ note ∈ s.committed.flatten ++ s.batch, note.payload.utf8ByteSize ≤ 7999)
      ∧ (∀ batch ∈ s.batch :: s.committed, batch.Nodup ∧ Receive.delivered batch = batch)
      ∧ (s.phase = .spin → s.batch = []) := by
  obtain ⟨l, hl⟩ := exists_recorded .empty hr
  have hcommit : s.Committing :=
    run_invariant (fun s a s' h hs => h.step hs) hr (by simp [State.Committing, start])
  have h : Accounted topic s l := by
    refine run_invariant (I := fun x => Accounted topic x.1 x.2) (fun x a x' h hs => ?_) hl
      (accounted_start topic now)
    rw [recordedStep, Option.map_eq_some_iff] at hs
    obtain ⟨m, hm, rfl⟩ := hs
    exact h.step hm
  exact ⟨l, hl, h, h.size_le, h.delivered,
    fun hp => hcommit.eq_nil (by simp [hp]) (by simp [hp])⟩

end Accounts

section Witness

open Reference

/-- A message of samples, which cannot be encoded when there are any. -/
def samplesType : MessageType :=
  ⟨"test/msg/Samples", .cons "samples" (.sequence (.message "test/msg/Sample"
    (.cons "value" (.simple (.prim .longDouble)) .nil))) .nil, by
      simp [Fields.Distinct, FieldType.Distinct, ElemType.Distinct, Fields.names]⟩

def advertised : SubscribeAnswers :=
  ⟨fun _ => .ok [("/samples", ["test/msg/Samples"])], fun _ => .ok (), fun _ _ => .ok ()⟩

/-- Three messages arrive during the drain, the second of which cannot be encoded. -/
def threeSamples : List Act :=
  [.spun (.ok ()), .discover advertised 0 0, .callback samplesType ([], ()),
    .callback samplesType ([(0#128, ())], ()), .take, .callback samplesType ([], ()), .take, .take,
    .take, .commit, .report 0 0]

theorem receive_accounts_samples : ∃ s l,
    run (step "/samples") (start 0) threeSamples = some s ∧ Accounted "/samples" s l
      ∧ l.held .notified = [0, 2] ∧ l.held (.encodingReported 0) = [1] := by
  have h : ((run (recordedStep "/samples") (start 0, .empty) threeSamples).any fun x =>
      decide (x.2.held .notified = [0, 2] ∧ x.2.held (.encodingReported 0) = [1])) = true := by
    decide +kernel
  simp only [Option.any_eq_true, decide_eq_true_eq] at h
  obtain ⟨⟨s, l⟩, hl, hnotified, hreported⟩ := h
  have hr := run_project (fun _ _ _ => step_of_recorded) hl
  obtain ⟨l', hl', h, -⟩ := receive_accounts "/samples" 0 hr
  cases hl.symm.trans hl'
  exact ⟨s, l, hr, h, hnotified, hreported⟩

end Witness

end Receive

end PgRos2
