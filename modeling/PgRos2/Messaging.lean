import PgRos2.Messages
import PgRos2.Lib.Run

/-!
# Callbacks and flushes

What the worker does with messages between two passes of `reconcile`: a callback fills the mailbox
of its topic, and a flush writes all mailboxes to the tables.
-/

namespace PgRos2

open Lib

/-- The live subscriptions, and the installation they are flushed to. -/
structure Messaging where
  topics : LiveMap
  ext : Extension

namespace Messaging

inductive Act [Bounds] where
  | callback (topic : String) (type : MessageType) (message : type.Val)
  | flush (now : Time)

/-- What a client reads as the last error of a topic. -/
def lastError (m : Messaging) (t : String) : Option String :=
  (m.ext.subscriptions.lookup t).bind Subscription.lastError

variable [Rclrs]

/-- An aborted flush leaves nothing to go on with. -/
def step (m : Messaging) : Act → Option Messaging
  | .callback topic _ message =>
    if topic ∈ m.topics then
      some { m with topics := m.topics.update topic fun live => live.callback topic message }
    else none
  | .flush now =>
    match PgRos2.flush m.topics now (some m.ext) with
    | some (some ext) => some ⟨m.topics.mapVals fun _ live => live.drained, ext⟩
    | _ => none

end Messaging

/-! ## One topic -/

/-- What befalls one topic: a message of it is heard, with what its encoding came to, or a flush. -/
inductive Beat where
  | heard (result : Except String String)
  | flush
  deriving DecidableEq

/-- What there is of one topic: whether a message is pending, the error, and the last error in the
table. -/
structure Slot where
  pending : Bool
  error : Option String
  shown : Option String

/-- A flush shows the error, or else that a message was stored. -/
def Slot.beat (s : Slot) : Beat → Slot
  | .heard (.ok _) => { s with pending := true }
  | .heard (.error error) => { s with error := some error }
  | .flush => ⟨false, none, match s.error with
    | some error => some error
    | none => if s.pending then none else s.shown⟩

def Beat.result : Beat → Option (Except String String)
  | .heard result => some result
  | .flush => none

/-- The results of the callbacks of a topic, in order. -/
def results (beats : List Beat) : List (Except String String) := beats.filterMap Beat.result

/-- The last message was encoded, and one before it since the last flush was not. -/
def Masked (beats : List Beat) : Prop :=
  ∃ before error between text after,
    beats = before ++ .heard (.error error) :: (between ++ .heard (.ok text) :: after)
      ∧ .flush ∉ between ∧ ∀ b ∈ after, b = .flush

/-- The last error a topic should have after the results of its callbacks. -/
def expectedError : Option (Except String String) → Option String
  | some (.error error) => some error
  | _ => none

/-- What a run means for the topic `t`, whose subscription is `live`. -/
def beatsOf [Rclrs] (t : String) (live : Live) : List Messaging.Act → List Beat
  | [] => []
  | .callback topic _ message :: acts =>
    if topic = t then
      .heard (payload t live.messageType (live.mailbox.sequence + 1) message live.limit)
        :: beatsOf t (live.callback t message) acts
    else beatsOf t live acts
  | .flush _ :: acts => .flush :: beatsOf t live.drained acts

end PgRos2
