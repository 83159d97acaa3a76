import PgRos2.Messaging
import PgRos2.Proofs.Flush
import PgRos2.Proofs.Payload
import PgRos2.Proofs.Worker
import Mathlib.Data.List.Induction

/-!
# The last error of a topic

A run of callbacks and flushes means to one topic what its beats mean to a slot (`run_slot`). The
slot keeps an error past a later message, and a flush shows it after the message, so the last error
is that of the last message just when none before it waits for the same flush
(`lastError_schedules`).
-/

namespace PgRos2

open Lib

/-! ## Slots -/

theorem results_append (bs bs' : List Beat) : results (bs ++ bs') = results bs ++ results bs' :=
  List.filterMap_append

/-- A slot holds an error when one was heard since the last flush. -/
theorem foldl_beat_error {s : Slot} (hs : s.error = none) (bs : List Beat) :
    (bs.foldl Slot.beat s).error ≠ none ↔ ∃ before error between,
      bs = before ++ .heard (.error error) :: between ∧ .flush ∉ between := by
  induction bs using List.reverseRecOn with
  | nil => simp [hs]
  | append_singleton bs b ih =>
    rw [List.foldl_append]
    simp only [List.foldl_cons, List.foldl_nil]
    rcases b with (error | text) | _
    · simp only [Slot.beat, ne_eq, reduceCtorEq, not_false_eq_true, true_iff]
      exact ⟨bs, error, [], rfl, by simp⟩
    · refine ih.trans ⟨?_, ?_⟩
      · rintro ⟨before, error, between, rfl, hf⟩
        exact ⟨before, error, between ++ [.heard (.ok text)], by simp, by simpa using hf⟩
      · rintro ⟨before, error, between, h, hf⟩
        rcases List.eq_nil_or_concat between with rfl | ⟨between', b, rfl⟩
        · have := (List.append_inj' h rfl).2
          simp at this
        · rw [List.concat_eq_append, ← List.cons_append, ← List.append_assoc] at h
          exact ⟨before, error, between', (List.append_inj' h rfl).1, fun hm => hf (by simp [hm])⟩
    · simp only [Slot.beat, ne_eq, not_true_eq_false, false_iff]
      rintro ⟨before, error, between, h, hf⟩
      rcases List.eq_nil_or_concat between with rfl | ⟨between', b, rfl⟩
      · have := (List.append_inj' h rfl).2
        simp at this
      · rw [List.concat_eq_append, ← List.cons_append, ← List.append_assoc] at h
        have := (List.append_inj' h rfl).2
        simp only [List.cons.injEq, and_true] at this
        exact hf (by simp [← this])

/-- Flushes change nothing after a flush. -/
theorem foldl_beat_flushes (shown : Option String) : ∀ bs : List Beat, (∀ b ∈ bs, b = .flush) →
    bs.foldl Slot.beat ⟨false, none, shown⟩ = ⟨false, none, shown⟩
  | [], _ => rfl
  | b :: bs, h => by
    rw [h b List.mem_cons_self, List.foldl_cons]
    exact foldl_beat_flushes shown bs fun b hb => h b (List.mem_cons_of_mem _ hb)

theorem exists_last {last : Except String String} (bs : List Beat)
    (h : (results bs).getLast? = some last) :
    ∃ before after, bs = before ++ .heard last :: after ∧ ∀ b ∈ after, b = .flush := by
  induction bs using List.reverseRecOn with
  | nil => simp [results] at h
  | append_singleton bs b ih =>
    rw [results_append] at h
    rcases b with result | _
    · have hr : results [.heard result] = [result] := rfl
      rw [hr, List.getLast?_concat, Option.some.injEq] at h
      exact ⟨bs, [], by rw [h], by simp⟩
    · have hr : results [Beat.flush] = [] := rfl
      rw [hr, List.append_nil] at h
      obtain ⟨before, after, rfl, hf⟩ := ih h
      refine ⟨before, after ++ [.flush], by simp, fun b hb => ?_⟩
      rcases List.mem_append.mp hb with hb | hb
      · exact hf b hb
      · exact List.mem_singleton.mp hb

/-- The last callback stands in one place. -/
theorem last_unique {before before' after after' : List Beat} {x y : Except String String}
    (h : before ++ .heard x :: after = before' ++ .heard y :: after')
    (hf : ∀ b ∈ after, b = .flush) (hf' : ∀ b ∈ after', b = .flush) : before = before' ∧ x = y := by
  rcases List.append_eq_append_iff.mp h with ⟨l, rfl, hl⟩ | ⟨l, rfl, hl⟩
  · rcases l with _ | ⟨b, l⟩
    · simp only [List.nil_append, List.cons.injEq, Beat.heard.injEq] at hl
      exact ⟨by simp, hl.1⟩
    · rw [List.cons_append, List.cons.injEq] at hl
      have := hf (.heard y) (by rw [hl.2]; simp)
      cases this
  · rcases l with _ | ⟨b, l⟩
    · simp only [List.nil_append, List.cons.injEq, Beat.heard.injEq] at hl
      exact ⟨by simp, hl.1.symm⟩
    · rw [List.cons_append, List.cons.injEq] at hl
      have := hf' (.heard x) (by rw [hl.2]; simp)
      cases this

/-- After a flush the error that is shown is that of the last message, unless an earlier one has
masked it. -/
theorem shown_iff {s : Slot} (hs : s.error = none) {bs : List Beat} {last : Except String String}
    (hend : bs.getLast? = some .flush) (hlast : (results bs).getLast? = some last) :
    (bs.foldl Slot.beat s).shown = expectedError (some last) ↔ ¬ Masked bs := by
  obtain ⟨before, after, rfl, hf⟩ := exists_last bs hlast
  rcases after with _ | ⟨b, after⟩
  · simp at hend
  obtain rfl := hf b List.mem_cons_self
  have hfl := fun shown =>
      foldl_beat_flushes shown after fun b hb => hf b (List.mem_cons_of_mem _ hb)
  have herror := foldl_beat_error hs before
  rw [List.foldl_append, List.foldl_cons, List.foldl_cons]
  generalize before.foldl Slot.beat s = σ at herror
  rcases last with error | text
  · have hshown : (after.foldl Slot.beat ((σ.beat (.heard (.error error))).beat .flush)).shown
        = some error := by
      rw [show (σ.beat (.heard (.error error))).beat .flush = ⟨false, none, some error⟩ from rfl,
        hfl]
    rw [hshown]
    refine ⟨fun _ hm => ?_, fun _ => rfl⟩
    obtain ⟨before', error', between, text, after', h, -, hf'⟩ := hm
    rw [← List.cons_append, ← List.append_assoc] at h
    have := (last_unique h hf hf').2
    cases this
  · have hshown : (after.foldl Slot.beat ((σ.beat (.heard (.ok text))).beat .flush)).shown
        = σ.error := by
      rcases he : σ.error with _ | error
      · rw [show (σ.beat (.heard (.ok text))).beat .flush = ⟨false, none, none⟩ by
          simp [Slot.beat, he], hfl]
      · rw [show (σ.beat (.heard (.ok text))).beat .flush = ⟨false, none, some error⟩ by
          simp [Slot.beat, he], hfl]
    rw [hshown]
    refine Iff.trans ?_ (not_congr (herror.trans ⟨?_, ?_⟩))
    · exact not_not.symm
    · rintro ⟨before', error, between, rfl, hb⟩
      exact ⟨before', error, between, text, .flush :: after, by simp, hb, hf⟩
    · rintro ⟨before', error, between, text', after', h, hb, hf'⟩
      rw [← List.cons_append, ← List.append_assoc] at h
      exact ⟨before', error, between, (last_unique h hf hf').1, hb⟩

/-! ## A run is a run of a slot -/

section Runs

variable [Rclrs] {t : String}

/-- The slot of a topic. -/
def slotOf (m : Messaging) (t : String) (live : Live) : Slot :=
  ⟨live.mailbox.pending.isSome, live.mailbox.error, m.lastError t⟩

/-- The encoded payloads parse again. -/
def Reparse (results : List (Except String String)) : Prop :=
  ∀ text, .ok text ∈ results → (Value.fromStrLimited text).isSome

/-- What is pending parses again. -/
def Live.Readable (live : Live) : Prop :=
  ∀ p ∈ live.mailbox.pending, (Value.fromStrLimited p.2).isSome

theorem Live.callback_of_ok {T : MessageType} {live : Live} {message : T.Val} {text : String}
    (h : payload t live.messageType (live.mailbox.sequence + 1) message live.limit = .ok text) :
    live.callback t message = { live with mailbox := ⟨live.mailbox.sequence + 1,
      some (live.mailbox.sequence + 1, text), live.mailbox.error⟩ } := by
  unfold callback
  simp only [h]

theorem Live.callback_of_error {T : MessageType} {live : Live} {message : T.Val} {error : String}
    (h : payload t live.messageType (live.mailbox.sequence + 1) message live.limit
      = .error error) :
    live.callback t message = { live with mailbox := ⟨live.mailbox.sequence + 1,
      live.mailbox.pending, some error⟩ } := by
  unfold callback
  simp only [h]

theorem Messaging.step_callback {m m' : Messaging} {topic : String} {T : MessageType}
    {message : T.Val} (h : m.step (.callback topic T message) = some m') :
    m' = { m with topics := m.topics.update topic fun live => live.callback topic message } := by
  simp only [step] at h
  split at h
  · exact (Option.some.inj h).symm
  · cases h

theorem Messaging.step_flush {m m' : Messaging} {now : Time} (h : m.step (.flush now) = some m') :
    ∃ ext, flush m.topics now (some m.ext) = some (some ext)
      ∧ m' = ⟨m.topics.mapVals fun _ live => live.drained, ext⟩ := by
  simp only [step] at h
  split at h
  · rename_i ext hf
    exact ⟨ext, hf, (Option.some.inj h).symm⟩
  · cases h

theorem Live.callback_readable {T : MessageType} {live : Live} {message : T.Val}
    (h : live.Readable) (hp : Reparse
      [payload t live.messageType (live.mailbox.sequence + 1) message live.limit]) :
    (live.callback t message).Readable := by
  rcases hr : payload t live.messageType (live.mailbox.sequence + 1) message live.limit
    with error | text
  · rw [Live.callback_of_error hr]
    exact h
  · rw [Live.callback_of_ok hr]
    intro p hpending
    cases hpending
    exact hp text (by rw [hr]; exact List.mem_singleton_self _)

theorem Live.message_isSome {live : Live} (h : live.Readable) :
    live.message.isSome = live.mailbox.pending.isSome := by
  unfold message
  rcases hp : live.mailbox.pending with _ | ⟨sequence, text⟩
  · rfl
  · obtain ⟨value, hv⟩ := Option.isSome_iff_exists.mp (h _ hp)
    simp [hv]

theorem Live.errors_eq {live : Live} (h : live.Readable) :
    live.errors = live.mailbox.error.toList := by
  unfold errors
  rcases hp : live.mailbox.pending with _ | ⟨sequence, text⟩
  · rfl
  · obtain ⟨value, hv⟩ := Option.isSome_iff_exists.mp (h _ hp)
    simp only [hv]
    rfl

/-- A flush does to the last error what it does to the slot. -/
theorem flushed_lastError {live : Live} (h : live.Readable) (now : Time) (row : Subscription) :
    (row.flushed now live).lastError = (Slot.beat
      ⟨live.mailbox.pending.isSome, live.mailbox.error, row.lastError⟩ .flush).shown := by
  unfold Subscription.flushed
  rw [Live.errors_eq h, Live.message_isSome h]
  rcases live.mailbox.error with _ | error
  · cases live.mailbox.pending.isSome <;> rfl
  · cases live.mailbox.pending.isSome <;> rfl

/-- What a run does to a topic, its beats do to the slot of the topic. -/
theorem run_slot : ∀ {acts : List Messaging.Act} {m m' : Messaging} {live : Live},
    m.topics.lookup t = some live → (m.ext.subscriptions.lookup t).isSome → live.Readable →
      Reparse (results (beatsOf t live acts)) → run Messaging.step m acts = some m' →
      ∃ live', m'.topics.lookup t = some live'
        ∧ slotOf m' t live' = (beatsOf t live acts).foldl Slot.beat (slotOf m t live)
  | [], m, m', live, hl, _, _, _, hr => by
    cases hr
    exact ⟨live, hl, rfl⟩
  | .callback topic type message :: acts, m, m', live, hl, hrow, hread, hp, hr => by
    obtain ⟨m₁, hs, hr⟩ := run_cons_eq_some.mp hr
    obtain rfl := Messaging.step_callback hs
    by_cases ht : t = topic
    · subst ht
      rw [beatsOf, if_pos rfl] at hp ⊢
      have hp₁ : Reparse [payload t live.messageType (live.mailbox.sequence + 1) message
          live.limit] := fun text hm => hp text (by
        rw [List.mem_singleton] at hm
        rw [← hm]
        exact List.mem_cons_self)
      have hp₂ : Reparse (results (beatsOf t (live.callback t message) acts)) :=
        fun text hm => hp text (List.mem_cons_of_mem _ hm)
      have hl₁ : (m.topics.update t fun live => live.callback t message).lookup t
          = some (live.callback t message) := by simp [hl]
      obtain ⟨live', hl', hslot⟩ := run_slot (m := { m with
        topics := m.topics.update t fun live => live.callback t message })
        hl₁ hrow (Live.callback_readable hread hp₁) hp₂ hr
      refine ⟨live', hl', ?_⟩
      rw [hslot, List.foldl_cons]
      congr 1
      rcases hp : payload t live.messageType (live.mailbox.sequence + 1) message live.limit
        with error | text
      · rw [Live.callback_of_error hp]
        rfl
      · rw [Live.callback_of_ok hp]
        rfl
    · rw [beatsOf, if_neg (Ne.symm ht)] at hp ⊢
      exact run_slot (m := { m with
        topics := m.topics.update topic fun live => live.callback topic message })
        (by simp [hl, ht]) hrow hread hp hr
  | .flush now :: acts, m, m', live, hl, hrow, hread, hp, hr => by
    obtain ⟨m₁, hs, hr⟩ := run_cons_eq_some.mp hr
    obtain ⟨ext, hf, rfl⟩ := Messaging.step_flush hs
    obtain ⟨ext', he, -, htopic⟩ := flush_topic hf
    cases he
    obtain ⟨row, hrow⟩ := Option.isSome_iff_exists.mp hrow
    have hrow' : ext.subscriptions.lookup t = some (row.flushed now live) := by
      rw [(htopic t).2, hrow, hl]
      rfl
    have hp₂ : Reparse (results (beatsOf t live.drained acts)) :=
      fun text hm => hp text (by rw [beatsOf]; exact hm)
    have hl₁ : (m.topics.mapVals fun _ live => live.drained).lookup t = some live.drained := by
      simp [hl]
    obtain ⟨live', hl', hslot⟩ := run_slot hl₁ (by simp [hrow'])
      (fun p hpending => by cases hpending) hp₂ hr
    refine ⟨live', hl', ?_⟩
    rw [hslot, beatsOf, List.foldl_cons]
    congr 1
    have hshown := flushed_lastError hread now row
    simp only [slotOf, Messaging.lastError, hrow, hrow', Option.bind_some, hshown]
    rfl

/-- What clients see at the end of a schedule that ends with a flush. -/
theorem lastError_iff {m m' : Messaging} {live : Live} {acts : List Messaging.Act}
    {last : Except String String} (hl : m.topics.lookup t = some live)
    (hempty : live.mailbox.pending = none ∧ live.mailbox.error = none)
    (hrow : (m.ext.subscriptions.lookup t).isSome) (hr : run Messaging.step m acts = some m')
    (hp : Reparse (results (beatsOf t live acts)))
    (hend : (beatsOf t live acts).getLast? = some .flush)
    (hlast : (results (beatsOf t live acts)).getLast? = some last) :
    m'.lastError t = expectedError (some last) ↔ ¬ Masked (beatsOf t live acts) := by
  obtain ⟨live', -, hslot⟩ := run_slot hl hrow (fun p hpending => by
    rw [hempty.1] at hpending
    cases hpending) hp hr
  have hs : (slotOf m t live).error = none := hempty.2
  rw [← shown_iff hs hend hlast, ← hslot]
  rfl

/-- Two schedules of flushes among the same results leave the same last error, that of the last
message, just when in neither a message that could not be encoded waits for the flush of the last
one that could. -/
theorem lastError_schedules {m m₁ m₂ : Messaging} {live : Live} {acts₁ acts₂ : List Messaging.Act}
    (hl : m.topics.lookup t = some live)
    (hempty : live.mailbox.pending = none ∧ live.mailbox.error = none)
    (hrow : (m.ext.subscriptions.lookup t).isSome)
    (h₁ : run Messaging.step m acts₁ = some m₁) (h₂ : run Messaging.step m acts₂ = some m₂)
    (hsame : results (beatsOf t live acts₂) = results (beatsOf t live acts₁))
    (hp : Reparse (results (beatsOf t live acts₁)))
    (hne : results (beatsOf t live acts₁) ≠ [])
    (hend₁ : (beatsOf t live acts₁).getLast? = some .flush)
    (hend₂ : (beatsOf t live acts₂).getLast? = some .flush) :
    (m₁.lastError t = m₂.lastError t
        ∧ m₁.lastError t = expectedError (results (beatsOf t live acts₁)).getLast?)
      ↔ ¬ Masked (beatsOf t live acts₁) ∧ ¬ Masked (beatsOf t live acts₂) := by
  obtain ⟨last, hlast⟩ := Option.isSome_iff_exists.mp (List.getLast?_isSome.mpr hne)
  have hi₁ := lastError_iff hl hempty hrow h₁ hp hend₁ hlast
  have hi₂ := lastError_iff hl hempty hrow h₂ (hsame ▸ hp) hend₂ (hsame ▸ hlast)
  rw [hlast, ← hi₁, ← hi₂]
  constructor
  · rintro ⟨he, hx⟩
    exact ⟨hx, he ▸ hx⟩
  · rintro ⟨hx₁, hx₂⟩
    exact ⟨hx₁.trans hx₂.symm, hx₁⟩

end Runs

/-! ## The worker -/

section Worker

variable [Rclrs] {w w' : World} {o : Observer} {s : Session} {ext : Extension}

/-- A callback of the worker's is one here. -/
theorem message_step (ho : w.worker = some o) (hx : w.extension = some ext) {topic : String}
    {T : MessageType} {message : T.Val} (h : w.step (.message topic T message) = some w') :
    ∃ o', w'.worker = some o' ∧ w'.extension = some ext
      ∧ Messaging.step ⟨o.subscriptions, ext⟩ (.callback topic T message)
        = some ⟨o'.subscriptions, ext⟩ := by
  obtain ⟨o', s, ⟨ho', -, -⟩, ht, rfl⟩ := step_spec h
  obtain rfl : o = o' := Option.some.inj (ho.symm.trans ho')
  refine ⟨_, rfl, hx, ?_⟩
  simp only [Messaging.step, if_pos ht]

/-- A flush of the worker's that is due is one here, and ends the worker where it aborts. -/
theorem flush_step {now : Time} (hx : w.extension = some ext)
    (hdue : ¬ (o.subscriptions.entries = [] ∨ now < s.nextMessageFlush)) :
    ((w.flush o s now).worker = none
      ∧ Messaging.step ⟨o.subscriptions, ext⟩ (.flush w.now) = none)
    ∨ ∃ o' ext', (w.flush o s now).worker = some o' ∧ (w.flush o s now).extension = some ext'
      ∧ Messaging.step ⟨o.subscriptions, ext⟩ (.flush w.now) = some ⟨o'.subscriptions, ext'⟩ := by
  unfold World.flush
  rw [if_neg hdue, hx]
  simp only [Messaging.step]
  rcases hf : flush o.subscriptions w.now (some ext) with _ | r
  · exact .inl ⟨rfl, rfl⟩
  · obtain ⟨ext', rfl, -, -⟩ := flush_topic hf
    exact .inr ⟨_, ext', rfl, rfl, rfl⟩

end Worker

section Witness

open Reference

/-- A topic with the least byte limit there is, of which nothing has been heard. -/
def chatter : Live := ⟨"std_msgs/msg/String", 1024, .empty⟩

def chat : Messaging where
  topics := AList.insert "/chat" chatter ∅
  ext := (Extension.new 1).insertSubscription "/chat" none 0 none

/-- More bytes than the least limit. -/
def longText : String := String.ofList (List.replicate 1100 'a')

/-- A message that is longer than the limit, and one that is not. -/
def longMessage : Messaging.Act := .callback "/chat" stringType (longText, ())

def shortMessage : Messaging.Act := .callback "/chat" stringType ("hi", ())

def together : List Messaging.Act := [longMessage, shortMessage, .flush 0]

def apart : List Messaging.Act := [longMessage, .flush 0, shortMessage, .flush 0]

theorem chat_results (acts : List Messaging.Act) (h : acts = together ∨ acts = apart) :
    results (beatsOf "/chat" chatter acts) = results (beatsOf "/chat" chatter together)
      ∧ (beatsOf "/chat" chatter acts).getLast? = some .flush := by
  rcases h with rfl | rfl <;> decide +kernel

theorem reparse_together : Reparse (results (beatsOf "/chat" chatter together)) := by
  have h : (results (beatsOf "/chat" chatter together)).all (fun result =>
      result.toOption.all fun text => (Value.fromStrLimited text).isSome) = true := by
    decide +kernel
  intro text hm
  exact List.all_eq_true.mp h (.ok text) hm

/-- A long message and then a short one, in one flush or in two: the last error is that of the long
one, or there is none. -/
theorem lastError_together : ∃ m₁ m₂, run Messaging.step chat together = some m₁
    ∧ run Messaging.step chat apart = some m₂
    ∧ results (beatsOf "/chat" chatter apart) = results (beatsOf "/chat" chatter together)
    ∧ Reparse (results (beatsOf "/chat" chatter together))
    ∧ expectedError (results (beatsOf "/chat" chatter together)).getLast? = none
    ∧ m₁.lastError "/chat" = some "encoded message exceeds the 1024 byte limit"
    ∧ m₂.lastError "/chat" = none := by
  have h : ((run Messaging.step chat together).any fun m₁ =>
      (run Messaging.step chat apart).any fun m₂ =>
        m₁.lastError "/chat" = some "encoded message exceeds the 1024 byte limit"
          && m₂.lastError "/chat" = none) = true := by decide +kernel
  simp only [Option.any_eq_true, Bool.and_eq_true, decide_eq_true_eq] at h
  obtain ⟨m₁, h₁, m₂, h₂, he₁, he₂⟩ := h
  exact ⟨m₁, m₂, h₁, h₂, (chat_results _ (.inr rfl)).1, reparse_together, by decide +kernel, he₁,
    he₂⟩

/-- With a flush between the two messages, and one before them or not, nothing is masked. -/
theorem lastError_apart : ∃ m₁ m₂, run Messaging.step chat apart = some m₁
    ∧ run Messaging.step chat (.flush 0 :: apart) = some m₂
    ∧ m₁.lastError "/chat" = none ∧ m₂.lastError "/chat" = none
    ∧ ¬ Masked (beatsOf "/chat" chatter apart)
    ∧ ¬ Masked (beatsOf "/chat" chatter (.flush 0 :: apart)) := by
  have h : ((run Messaging.step chat apart).any fun m₁ =>
      (run Messaging.step chat (.flush 0 :: apart)).any fun m₂ =>
        m₁.lastError "/chat" = none && m₂.lastError "/chat" = none) = true := by decide +kernel
  simp only [Option.any_eq_true, Bool.and_eq_true, decide_eq_true_eq] at h
  obtain ⟨m₁, h₁, m₂, h₂, he₁, he₂⟩ := h
  obtain ⟨hsame, hend⟩ := chat_results apart (.inr rfl)
  have hl : chat.topics.lookup "/chat" = some chatter := by decide +kernel
  have hm := lastError_schedules hl ⟨rfl, rfl⟩
    (by decide +kernel) h₁ h₂ (by decide +kernel) (by rw [hsame]; exact reparse_together)
    (by decide +kernel) hend (by decide +kernel)
  have hx : expectedError (results (beatsOf "/chat" chatter apart)).getLast? = none := by
    decide +kernel
  exact ⟨m₁, m₂, h₁, h₂, he₁, he₂, hm.mp ⟨he₁.trans he₂.symm, he₁.trans hx.symm⟩⟩

end Witness

end PgRos2
