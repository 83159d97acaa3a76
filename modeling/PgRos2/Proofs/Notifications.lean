import PgRos2.Lib.JsonPlain
import PgRos2.Proofs.Naming
import PgRos2.Proofs.Receive
import PgRos2.Proofs.Republish

/-!
# What a CALL notifies

The ledger of a run numbers what the callback made of each message, so the messages themselves stand
under those numbers among the ones heard (`Heard`). With the order of the notifications this places
every one of them: it is the encoding of one message, later messages come later, and PostgreSQL
takes it (`notifications_hold`).
-/

namespace PgRos2

open Lib

/-- What `pg_notify` takes: a channel that is a name, and a short text of one line. -/
structure Notification.Accepted (note : Notification) : Prop where
  nonempty : note.channel ≠ ""
  channel : note.channel.utf8ByteSize < nameDataLen
  payload : note.payload.utf8ByteSize < 8000
  plain : Json.Plain note.payload.toList

/-- An encoded message is text without control characters. -/
theorem payload_plain [Rclrs] {topic messageType text : String} {sequence limit : ℕ}
    {T : MessageType} {message : T.Val}
    (h : payload topic messageType sequence message limit = .ok text) :
    Json.Plain text.toList := by
  obtain ⟨j, hj, -, rfl, -⟩ := payload_eq_ok_iff.mp h
  rw [String.toList_ofList]
  exact Json.plain_text (envelope_valid topic messageType sequence (T.tree_valid hj))

namespace Receive

theorem subscribe_eq_ok {topic : String} {atomic : Option Bool} {now : Time} {s : State}
    (h : subscribe topic atomic now = .ok s) :
    atomic = some false ∧ validateTopic topic = .ok () ∧ s = start now := by
  unfold subscribe at h
  rcases hv : validateTopic topic with error | ⟨⟩ <;> rw [hv] at h
  · cases h
  · rcases atomic with _ | _ | _ <;> cases h
    exact ⟨rfl, rfl, rfl⟩

section Heard

variable [Bounds]

def Act.message : Act → Option (Σ T : MessageType, T.Val)
  | .callback T message => some ⟨T, message⟩
  | _ => none

/-- The messages that reached the callback, in order. -/
def heard (acts : List Act) : List (Σ T : MessageType, T.Val) := acts.filterMap Act.message

theorem heard_concat (acts : List Act) (a : Act) :
    heard (acts ++ [a]) = heard acts ++ a.message.toList := by
  rcases h : a.message with _ | m <;> simp [heard, h]

end Heard

section Calls

variable [Rclrs]

/-- The item is what the callback made of the message of that number. -/
def Encoded (topic : String) (acts : List Act) (n : ℕ) (item : Except String String) : Prop :=
  ∃ kind T, ∃ message : T.Val, (heard acts)[n]? = some ⟨T, message⟩
    ∧ payload topic kind n message notifyLimit = item

theorem Encoded.append {topic : String} {acts : List Act} {n : ℕ} {item : Except String String}
    (h : Encoded topic acts n item) (a : Act) : Encoded topic (acts ++ [a]) n item := by
  obtain ⟨kind, T, message, hn, hpay⟩ := h
  have hlt := (List.getElem?_eq_some_iff.mp hn).1
  refine ⟨kind, T, message, ?_, hpay⟩
  rwa [heard_concat, List.getElem?_append_left hlt]

/-- The numbers of the ledger are those of the messages heard. -/
structure Heard (topic : String) (acts : List Act) (x : State × History) : Prop where
  accounted : Accounted topic x.1 x.2
  issued : x.2.issued = (heard acts).length
  encoded : ∀ n item, x.2.Numbers n item → Encoded topic acts n item

variable {topic : String} {s : State} {l : History} {acts : List Act}

/-- Only the callback issues a number. -/
theorem items_record {a : Act} (ha : a.message = none) : (record topic s a l).items = l.items := by
  unfold record
  split
  · cases ha
  · unfold recordTake
    split_ifs
    · rcases s.channel with _ | ⟨error | payload, channel⟩
      · rfl
      · exact l.items_moveFirst
      · exact l.items_moveFirst
    · rfl
  · unfold recordReport
    split_ifs <;> rfl
  · rfl

theorem Heard.step (h : Heard topic acts (s, l)) {a : Act} {s' : State}
    (hs : step topic s a = some s') :
    Heard topic (acts ++ [a]) (s', record topic s a l) := by
  have haccounted := h.accounted.step hs
  rcases ha : a.message with _ | ⟨T, message⟩
  · have hitems : (record topic s a l).items = l.items := items_record ha
    refine ⟨haccounted, ?_, fun n item hn => ?_⟩
    · rw [heard_concat, ha, Option.toList_none, List.append_nil, ← h.issued, Ledger.issued, hitems,
        Ledger.issued]
    · unfold Ledger.Numbers at hn
      rw [hitems] at hn
      exact (h.encoded n item hn).append a
  · cases a with
    | callback T message =>
      obtain ⟨subscription, hsub⟩ : ∃ subscription, s.subscription = some subscription := by
        have hspec := step_spec hs
        unfold StepSpec State.callback at hspec
        rcases h : s.subscription with _ | subscription
        · simp [h] at hspec
        · exact ⟨subscription, rfl⟩
      have hsequence : l.issued = subscription.sequence := by
        rw [h.accounted.issued, State.sequence, hsub]
      have hrecord : record topic s (.callback T message) l
          = l.issue (if s.channel.length < channelCapacity then .queued else .dropPending)
            (subscription.encode topic message) := by
        unfold record recordCallback
        rw [hsub]
      refine ⟨haccounted, ?_, fun n item hn => ?_⟩
      · have hissued : l.issued = (heard acts).length := h.issued
        rw [hrecord, Ledger.issued_issue, heard_concat, List.length_append, hissued]
        rfl
      · rw [hrecord, Ledger.numbers_issue] at hn
        rcases hn with hn | ⟨rfl, rfl⟩
        · exact (h.encoded n item hn).append _
        · refine ⟨subscription.messageType, T, message, ?_, ?_⟩
          · rw [heard_concat, h.issued]
            exact List.getElem?_concat_length
          · rw [hsequence]
            rfl
    | _ => cases ha

theorem run_heard {now : Time} {x : State × History}
    (hr : run (recordedStep topic) (start now, .empty) acts = some x) : Heard topic acts x := by
  refine run_history (G := fun _ _ => True) (fun acts x a x' _ h _ hs => ?_)
    ⟨accounted_start topic now, rfl, fun n item hn => by cases hn⟩ (along_true acts _) hr
  rw [recordedStep, Option.map_eq_some_iff] at hs
  obtain ⟨s', hs, rfl⟩ := hs
  exact h.step hs

/-- A notification is one PostgreSQL takes, on the channel of the topic. It is the encoding of the
message of a number, and where `serde_json` reads it, and each finite float of the message back, a
publish of what it reads is one of that message. -/
def Holds (topic : String) (acts : List Act) (n : ℕ) (note : Notification) : Prop :=
  note.channel = topic ∧ note.Accepted ∧ ∃ kind T, ∃ message : T.Val,
    (heard acts)[n]? = some ⟨T, message⟩
      ∧ payload topic kind n message notifyLimit = .ok note.payload
      ∧ (T.ReadsBack message → ∀ value back, Value.fromStrLimited note.payload = some value →
        value.Preserved back → Republishes kind T message back)

theorem Heard.holds (h : Heard topic acts (s, l)) (hv : validateTopic topic = .ok ()) {n : ℕ}
    {note : Notification} (hn : Notifies topic l n note) : Holds topic acts n note := by
  obtain ⟨hname, hsize⟩ := (validateTopic_iff topic).mp hv
  obtain ⟨rfl, hnumber⟩ := hn
  obtain ⟨kind, T, message, hheard, hpay⟩ := h.encoded n _ hnumber
  obtain ⟨-, -, -, -, hlimit⟩ := payload_eq_ok_iff.mp hpay
  refine ⟨rfl, ⟨?_, ?_, ?_, payload_plain hpay⟩, kind, T, message, hheard, hpay,
    fun hreads value back hread hback => payload_republishes hpay hread hreads hback⟩
  · intro he
    obtain ⟨relative, hslash⟩ := hname.slash
    rw [he] at hslash
    cases hslash
  · exact Nat.lt_of_le_of_lt hsize (by decide)
  · exact Nat.lt_of_le_of_lt hlimit (by decide)

/-- The notifications of a CALL are those of messages heard, in their order, each on the channel of
the topic and one PostgreSQL takes. -/
theorem notifications_hold {atomic : Option Bool} {now : Time} {s₀ : State}
    (hs : subscribe topic atomic now = .ok s₀) (hr : run (step topic) s₀ acts = some s) :
    ∃ ns : List ℕ, ns.Pairwise (· < ·)
      ∧ List.Forall₂ (Holds topic acts) ns (s.committed.flatten ++ s.batch) := by
  obtain ⟨-, hv, rfl⟩ := subscribe_eq_ok hs
  obtain ⟨l, hl⟩ := exists_recorded .empty hr
  have h := run_heard hl
  refine ⟨l.held .notified, (List.pairwise_append.mp h.accounted.ordered).1, ?_⟩
  exact h.accounted.notified.imp fun _ _ hn => h.holds hv hn

end Calls

section Witness

open Reference

/-- Two of the three messages are notified. -/
theorem notifications_hold_samples : ∃ s ns,
    run (step "/samples") (start 0) threeSamples = some s
      ∧ (s.committed.flatten ++ s.batch).length = 2 ∧ ns.Pairwise (· < ·)
      ∧ List.Forall₂ (Holds "/samples" threeSamples) ns (s.committed.flatten ++ s.batch) := by
  have h : ((run (step "/samples") (start 0) threeSamples).any fun s =>
      decide ((s.committed.flatten ++ s.batch).length = 2)) = true := by
    decide +kernel
  simp only [Option.any_eq_true, decide_eq_true_eq] at h
  obtain ⟨s, hr, htwo⟩ := h
  have hs : subscribe "/samples" (some false) 0 = .ok (start 0) := by
    have hv : validateTopic "/samples" = .ok () := by decide +kernel
    unfold subscribe
    rw [hv]
    rfl
  obtain ⟨ns, hordered, hholds⟩ := notifications_hold hs hr
  exact ⟨s, ns, hr, htwo, hordered, hholds⟩

end Witness

end Receive

end PgRos2
