import PgRos2.Proofs.Mailbox
import PgRos2.Proofs.Preserved
import PgRos2.Proofs.Publish
import PgRos2.Proofs.Rows
import PgRos2.Proofs.Text

/-!
# From a peer to the table and back

Every row of `ros2.messages` came of a message that was delivered to its topic (`run_cached`). Where
`serde_json` reads each finite float of that message back, what a client reads of the row and
publishes under the type it tells is that message again, with NaN for each float that is not finite
and but for the sign of zeros (`stored_republishes`).
-/

namespace PgRos2

open Lib

/-- A row of `ros2.messages` came of a message that was delivered to its topic. -/
def Message.CameFrom [Rclrs] (es : List Event) (topic kind : String) (row : Message)
    (T : MessageType) (message : T.Val) : Prop :=
  Event.message topic T message ∈ es ∧ ∃ limit text value,
    payload topic kind row.sequence message limit = .ok text
      ∧ Value.fromStrLimited text = some value ∧ value.jsonb = some row.message

section Runs

variable [Rclrs] {w w' : World} {e : Event} {es : List Event} {topic : String} {row : Message}

/-- A new row is what waited in the topic's mailbox. -/
theorem cached_step (h : w.step e = some w') (hc : w'.cached topic = some row) :
    w.cached topic = some row ∨ ∃ live text value, w.live topic = some live
      ∧ live.mailbox.pending = some (row.sequence, text)
      ∧ Value.fromStrLimited text = some value ∧ value.jsonb = some row.message := by
  cases step_rows topic h with
  | keep _ _ hcached _ => exact .inl (hcached ▸ hc)
  | drop _ hcached =>
    rw [hcached] at hc
    cases hc
  | insert _ _ _ hcached => exact .inl (hcached ▸ hc)
  | delete _ hcached => exact .inl (hcached ▸ hc)
  | keepalive _ hcached => exact .inl (hcached ▸ hc)
  | @flush live hl _ _ hcached _ =>
    rw [hcached] at hc
    split at hc
    · rename_i m hm
      obtain ⟨text, hpending, hread⟩ := Live.message_eq_some hm
      obtain ⟨message, hv, rfl⟩ := Option.map_eq_some_iff.mp hc
      exact .inr ⟨live, text, m.2, hl, hpending, hread, hv⟩
    · exact .inl hc
  | write _ _ hcached =>
    rw [hcached] at hc
    split_ifs at hc
    exact .inl hc

/-- Every row came of a message that was delivered. -/
theorem run_cached {settings : Settings} (hr : run World.step (.initial settings) es = some w)
    (hc : w.cached topic = some row) :
    ∃ kind T, ∃ message : T.Val, row.CameFrom es topic kind T message := by
  refine run_history (G := fun _ _ => True) (I := fun es w => ∀ row, w.cached topic = some row →
    ∃ kind T, ∃ message : T.Val, row.CameFrom es topic kind T message) ?_
    (fun row hc => by cases hc) (along_true es _) hr row hc
  intro es w e w' hr hI _ h row hc
  rcases cached_step h hc with hc | ⟨live, text, value, hl, hpending, hread, hv⟩
  · obtain ⟨kind, T, message, hmem, hrest⟩ := hI row hc
    exact ⟨kind, T, message, List.mem_append_left _ hmem, hrest⟩
  · obtain ⟨-, T, message, hmem, hpay⟩ := (run_waits hr topic live hl).pending _ _ hpending
    exact ⟨live.messageType, T, message, List.mem_append_left _ hmem, live.limit, text, value, hpay,
      hread, hv⟩

end Runs

/-! ## What a client reads of a row -/

/-- The members of an envelope that was read. -/
theorem envelope_members [SerdeJson] {topic kind : String} {sequence : ℕ} {j : Json Json.Numeral}
    {value : Value} (h : Value.ofJson (envelope topic kind sequence j) = some value) :
    ∃ object w, value = .object object ∧ Value.ofJson j = some w
      ∧ object.lookup "message_type" = some (.string kind) ∧ object.lookup "message" = some w := by
  obtain ⟨object, hobj, rfl⟩ := Option.map_eq_some_iff.mp h
  obtain ⟨w, hw⟩ := Value.exists_of_ofMembers (m := ("message", j)) hobj (by simp)
  have htype :=
    Value.lookup_ofMembers (m := ("message_type", .string kind)) hobj (by simp) (by simp)
  have hmessage := Value.lookup_ofMembers (m := ("message", j)) hobj (by simp) (by simp)
  exact ⟨object, w, rfl, hw, htype, hmessage.trans hw⟩

section Republish

variable [Rclrs] {es : List Event} {topic kind : String} {row : Message} {T : MessageType}
  {message : T.Val}

/-- What comes back of a payload tells its type, and its message decodes to the one that was
encoded, with NaN for each float that is not finite and but for the sign of zeros. -/
theorem payload_decodes {sequence limit : ℕ} {text : String} {value : Value}
    (hpay : payload topic kind sequence message limit = .ok text)
    (hread : Value.fromStrLimited text = some value) (hr : T.ReadsBack message) {back : Value}
    (hback : value.Preserved back) :
    back.get "message_type" = some (.string kind) ∧ ∃ member, back.get "message" = some member
      ∧ ∃ message', decode T.default member = .ok message'
        ∧ T.unsigned message' = T.unsigned (T.orNan message) := by
  obtain ⟨j, hj, hparse⟩ := parse_payload hpay
  unfold Value.fromStrLimited at hread
  rw [hparse, Option.bind_some] at hread
  split_ifs at hread
  obtain ⟨object, w, rfl, hw, htype, hmessage⟩ := envelope_members hread
  obtain ⟨object₁, object', rfl, hobject, hperm⟩ := hback
  have hmembers := Value.Preserved.agree (Value.ofJson_distinct _ _ hread) hobject hperm
  obtain ⟨w', hw', hc, ho⟩ :=
    (ElemType.message T.name T.fields).overlay_tree T.distinct message hr j hj
  cases hw.symm.trans hw'
  have hdecode : decode T.default w = .ok (T.orNan message) := by
    rw [(decode_decodes T T.default (Value.ofJson_distinct j w hw)).1 hc]
    exact congrArg Except.ok (ho _)
  obtain ⟨hno, -⟩ | ⟨x, kind', hx, hl, -, hkind⟩ := hmembers "message_type"
  · rw [hno] at htype
    cases htype
  obtain ⟨hno, -⟩ | ⟨y, member, hy, hl', hdistinct, hmember⟩ := hmembers "message"
  · rw [hno] at hmessage
    cases hmessage
  cases htype.symm.trans hx
  cases hkind
  cases hmessage.symm.trans hy
  exact ⟨hl, member, hl', decode_preserved hdistinct hmember hdecode⟩

/-! ## What a client publishes of it -/

theorem run_sound {cs : List PublishCall} {b : Backend}
    (hr : run Backend.step .initial cs = some b) : b.Sound :=
  run_invariant (fun b c b' hb hs => by cases hs; exact (Backend.call_spec hb c).sound hb) hr
    fun key cached hcached => by simp [Backend.publishers, Backend.initial] at hcached

/-- A publish that returns handed over the decode of its JSON. -/
theorem call_handed {b : Backend} (hb : b.Sound) {c : PublishCall}
    (hload : c.answers.load kind = .ok T) (hd : decode T.default c.message = .ok message)
    (hok : (b.call c).1 = .ok kind) :
    (b.call c).2.handed = b.handed ++ [⟨⟨c.topic, kind⟩, T, message⟩] := by
  obtain ⟨T', message', hprepared, hhanded⟩ := ((Backend.call_spec hb c).ok kind hok).handed
  cases hload.symm.trans hprepared.loaded
  cases hd.symm.trans hprepared.decoded
  exact hhanded

/-- A publish of the message in `back`, under the type it tells, hands over that message, with NaN
for each float that is not finite and but for the sign of zeros. -/
def Republishes (kind : String) (T : MessageType) (message : T.Val) (back : Value) : Prop :=
  back.get "message_type" = some (.string kind)
    ∧ ∃ member, back.get "message" = some member
      ∧ ∀ cs b, run Backend.step .initial cs = some b → ∀ c : PublishCall,
        c.message = member → c.answers.load kind = .ok T → (b.call c).1 = .ok kind →
        ∃ message', T.unsigned message' = T.unsigned (T.orNan message)
          ∧ (b.call c).2.handed = b.handed ++ [⟨⟨c.topic, kind⟩, T, message'⟩]

theorem payload_republishes {sequence limit : ℕ} {text : String} {value : Value}
    (hpay : payload topic kind sequence message limit = .ok text)
    (hread : Value.fromStrLimited text = some value) (hr : T.ReadsBack message) {back : Value}
    (hback : value.Preserved back) : Republishes kind T message back := by
  obtain ⟨htype, member, hmember, message', hd, hsame⟩ := payload_decodes hpay hread hr hback
  refine ⟨htype, member, hmember, fun cs b hb c hmessage hload hok => ⟨message', hsame, ?_⟩⟩
  subst hmessage
  exact call_handed (run_sound hb) hload hd hok

/-- Every row of `ros2.messages` came of a message delivered to its topic. Whichever it came of, if
its floats read back, a publish of what a client reads of the row, under the type it tells, hands
over that message, with NaN for each float that is not finite and but for the sign of zeros. -/
theorem stored_republishes {settings : Settings} {w : World}
    (hr : run World.step (.initial settings) es = some w) (hc : w.cached topic = some row) :
    (∃ kind T, ∃ message : T.Val, row.CameFrom es topic kind T message)
      ∧ ∀ kind T, ∀ message : T.Val, row.CameFrom es topic kind T message → T.ReadsBack message →
        ∀ back, row.message.Preserved back → Republishes kind T message back := by
  refine ⟨run_cached hr hc, fun kind T message hcame hreads back hback => ?_⟩
  obtain ⟨-, limit, text, value, hpay, hread, hv⟩ := hcame
  exact payload_republishes hpay hread hreads ((Value.preserved_jsonb hv).trans hback)

end Republish

section Witness

open Reference

/-- A worker that has written a message. -/
def writesChat : List Event := hearsTwice ++ [.spun, .flush]

/-- A publish of JSON as a string message. -/
def publishBack (member : Value) : PublishCall :=
  ⟨"/chat", some "std_msgs/msg/String", member, matchedAnswers⟩

/-- The value is the text. -/
def isString (v : Option Value) (text : String) : Bool :=
  match v with
  | some (.string s) => s = text
  | _ => false

theorem eq_of_isString {v : Option Value} {text : String} (h : isString v text = true) :
    v = some (.string text) := by
  unfold isString at h
  split at h
  · rw [of_decide_eq_true h]
  · cases h

theorem stored_republishes_chat : ∃ w row member, ∃ message : stringType.Val,
    run World.step (.initial .default) writesChat = some w ∧ w.cached "/chat" = some row
      ∧ row.message.get "message" = some member
      ∧ (Backend.initial.call (publishBack member)).2.handed
        = [⟨⟨"/chat", "std_msgs/msg/String"⟩, stringType, message⟩] := by
  have h : ((run World.step (.initial .default) writesChat).any fun w =>
      (w.cached "/chat").any fun row => (row.message.get "message").any fun member =>
        isString (row.message.get "message_type") "std_msgs/msg/String"
          && decide ((Backend.initial.call (publishBack member)).1
            = .ok "std_msgs/msg/String")) = true := by
    decide +kernel
  simp only [Option.any_eq_true, Bool.and_eq_true, decide_eq_true_eq] at h
  obtain ⟨w, hr, row, hc, member, hmember, htype, hok⟩ := h
  obtain ⟨⟨kind, T, message, hcame⟩, hrest⟩ := stored_republishes hr hc
  have hmem := hcame.1
  have hsent : T = stringType := by
    simp only [writesChat, hearsTwice, servesChat, List.mem_append, List.mem_cons,
      List.not_mem_nil, or_false, reduceCtorEq, false_or] at hmem
    rcases hmem with hmem | hmem <;>
    · cases hmem
      rfl
  subst hsent
  obtain ⟨hkind, member', hmember', hpublish⟩ :=
    hrest _ _ _ hcame ⟨trivial, trivial⟩ row.message (.refl _)
  cases hmember.symm.trans hmember'
  cases (eq_of_isString htype).symm.trans hkind
  obtain ⟨message', -, hhanded⟩ :=
    hpublish [] .initial rfl (publishBack member) rfl rfl hok
  exact ⟨w, row, member, message', hr, hc, hmember, hhanded⟩

end Witness

end PgRos2
