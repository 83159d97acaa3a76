import PgRos2.Lib.Ensures
import PgRos2.Proofs.Payload
import PgRos2.Publish

/-!
# What a call publishes

A call that is prepared up to the wait for a subscriber hands one sample to the publisher of its
topic and type, and any other hands over none; an error leaves the publishers as they were
(`run_ensures`). So in every run of a backend each publisher is kept under the topic and type it
was created for (`publish_once`).
-/

namespace PgRos2

open Lib

theorem described_eq_ok {α : Type} {answer : Except String α} {a : α} :
    described answer = .ok a ↔ answer = .ok a := by
  cases answer <;> simp [described, Except.mapError]

section Calls

variable [Rclrs]

/-- Every publisher is kept under the topic and the type it was created for. -/
def Backend.Sound (b : Backend) : Prop :=
  ∀ key cached, b.publishers.lookup key = some cached → cached.publisher = ⟨key.1, key.2⟩

omit [Rclrs] in
/-- The type a call publishes: its own, or else the one the graph advertises. -/
def PublishCall.Resolves (c : PublishCall) (kind : String) : Prop :=
  match c.messageType with
  | some messageType => kind = messageType
  | none => discoverType c.topic (c.answers.discovering + seconds 5) c.answers.graph = .ok kind

/-- The call finds a valid name, a session, a type whose name parses and that loads, a message of
it in its JSON, a publisher and the end of the wait for a subscriber. -/
structure Prepared (b : Backend) (c : PublishCall) (kind : String) (T : MessageType)
    (message : T.Val) : Prop where
  named : validateTopic c.topic = .ok ()
  session : b.session = none → ∃ session, PublisherSession.new c.answers = .ok session
  resolved : c.Resolves kind
  parsed : c.answers.parse kind = .ok ()
  loaded : c.answers.load kind = .ok T
  decoded : decode T.default c.message = .ok message
  created : b.publishers.lookup (c.topic, kind) = none →
    ∃ publisher, createPublisher c.answers c.topic kind = .ok publisher
  matched : waitForSubscriber (c.answers.matching + seconds 2) c.answers.subscriptions = .ok ()

/-- The call fails in the check of its name, the session, its type, the decode of its JSON, the
creation of a publisher or the wait for a subscriber. -/
inductive Refused (b : Backend) (c : PublishCall) : Prop
  | name {e : String} (h : validateTopic c.topic = .error e)
  | session {e : Failure} (hs : b.session = none) (h : PublisherSession.new c.answers = .error e)
  | type {e : Failure} (ht : c.messageType = none)
      (h : discoverType c.topic (c.answers.discovering + seconds 5) c.answers.graph = .error e)
  | parse {kind e : String} (hk : c.Resolves kind) (h : c.answers.parse kind = .error e)
  | message {kind : String} {e : Failure} (hk : c.Resolves kind)
      (h : buildMessage c.answers kind c.message = .error e)
  | create {kind : String} {e : Failure} (hk : c.Resolves kind)
      (hn : b.publishers.lookup (c.topic, kind) = none)
      (h : createPublisher c.answers c.topic kind = .error e)
  | wait {e : Failure}
      (h : waitForSubscriber (c.answers.matching + seconds 2) c.answers.subscriptions = .error e)

/-- A call that returned handed over its sample, and its publisher is kept. -/
structure Published (b : Backend) (c : PublishCall) (kind : String) (b' : Backend) : Prop where
  handed : ∃ T message, Prepared b c kind T message
    ∧ b'.handed = b.handed ++ [⟨⟨c.topic, kind⟩, T, message⟩]
  publishers : ∀ key, b'.publishers.lookup key
    = if key = (c.topic, kind) then some ⟨⟨c.topic, kind⟩⟩ else b.publishers.lookup key

/-- A call that failed left the publishers, and handed over a sample only when it was prepared and
the publisher took it. -/
structure Failed (b : Backend) (c : PublishCall) (b' : Backend) : Prop where
  publishers : b'.publishers = b.publishers
  handed : b'.handed = b.handed ∨ ∃ kind T message, Prepared b c kind T message
    ∧ c.answers.publish = .ok () ∧ b'.handed = b.handed ++ [⟨⟨c.topic, kind⟩, T, message⟩]

section Call

variable {b b₁ : Backend} {c : PublishCall} {kind : String}

theorem Failed.of_eq (hp : b₁.publishers = b.publishers) (hh : b₁.handed = b.handed) :
    Failed b c b₁ := ⟨hp, .inl hh⟩

theorem Backend.publishers_congr (hs : b₁.session = b.session) : b₁.publishers = b.publishers := by
  unfold Backend.publishers
  rw [hs]

theorem Backend.publishers_insert (key : String × String) (cached : CachedPublisher)
    (hs : b.session.isSome = true) :
    (b.insert key cached).publishers = b.publishers.insert key cached := by
  obtain ⟨session, hs⟩ := Option.isSome_iff_exists.1 hs
  simp [Backend.publishers, Backend.insert, hs]

theorem buildMessage_eq_ok {answers : PublishAnswers} {message : Value}
    {dynamic : (T : MessageType) × T.Val} (h : buildMessage answers kind message = .ok dynamic) :
    answers.load kind = .ok dynamic.1 ∧ decode dynamic.1.default message = .ok dynamic.2 := by
  unfold buildMessage at h
  rcases hl : answers.load kind with error | T
  · rw [hl] at h
    cases h
  · rw [hl] at h
    simp only [described, Except.mapError] at h
    rcases hd : decode T.default message with e | value
    · simp only [hd, bind, Except.bind] at h
      cases h
    · simp only [hd, bind, Except.bind] at h
      cases h
      exact ⟨rfl, hd⟩

omit [Rclrs] in
theorem createPublisher_eq_ok {answers : PublishAnswers} {topic : String} {publisher : Publisher}
    (h : createPublisher answers topic kind = .ok publisher) : publisher = ⟨topic, kind⟩ := by
  unfold createPublisher at h
  split at h
  · exact (Except.ok.inj h).symm
  · cases h

/-- From the wait on, the two paths are one: the sample is handed over, and the executor drained. -/
theorem hand_ensures {T : MessageType} {message : T.Val} {publisher : Publisher} {span : Time}
    {after : PublishM String} (hp : b₁.publishers = b.publishers) (hh : b₁.handed = b.handed)
    (hprepared : waitForSubscriber (c.answers.matching + seconds 2) c.answers.subscriptions
      = .ok () → Prepared b c kind T message)
    (hpub : publisher = ⟨c.topic, kind⟩)
    (hafter : ∀ b₂ : Backend, b₂.session = b₁.session →
      b₂.handed = b.handed ++ [⟨⟨c.topic, kind⟩, T, message⟩] → Prepared b c kind T message →
      Ensures after b₂ (Published b c) fun _ => Failed b c) :
    Ensures (do
      ofExcept (waitForSubscriber (c.answers.matching + seconds 2) c.answers.subscriptions)
      publisher.publish c.answers ⟨T, message⟩
      ofExcept (flushExecutor (c.answers.flushing + span) c.answers.flushes)
      after) b₁ (Published b c) fun _ => Failed b c := by
  subst hpub
  refine .ofExcept_bind (fun _ _ => .of_eq hp hh) fun _ hmatched => ?_
  have hprepared := hprepared hmatched
  refine .bind ?_
  unfold Publisher.publish
  refine .ofExcept_bind (fun _ _ => .of_eq hp hh) fun _ hpublish => ?_
  have hhanded : b₁.handed ++ [⟨⟨c.topic, kind⟩, T, message⟩]
      = b.handed ++ [⟨⟨c.topic, kind⟩, T, message⟩] := by rw [hh]
  refine .ofExcept_bind (fun _ _ => ⟨hp, .inr ⟨kind, T, message, hprepared,
    described_eq_ok.1 hpublish, hhanded⟩⟩) fun _ _ => ?_
  exact hafter _ rfl hhanded hprepared

theorem resolve_ensures {E : Failure → Backend → Prop} (hE : ∀ e, E e b₁) :
    Ensures (match c.messageType with
      | some messageType => pure messageType
      | none => ofExcept
          (discoverType c.topic (c.answers.discovering + seconds 5) c.answers.graph)) b₁
      (fun kind b₂ => b₂ = b₁ ∧ c.Resolves kind) E := by
  unfold PublishCall.Resolves
  cases c.messageType with
  | some messageType => exact .pure ⟨rfl, rfl⟩
  | none => exact .ofExcept (fun e _ => hE e) fun _ hkind => ⟨rfl, hkind⟩

theorem publishWithSession_ensures (hb : b.Sound) (hp : b₁.publishers = b.publishers)
    (hh : b₁.handed = b.handed) (hs : b₁.session.isSome = true)
    (hnamed : validateTopic c.topic = .ok ())
    (hsession : b.session = none → ∃ session, PublisherSession.new c.answers = .ok session) :
    Ensures (publishWithSession c.answers c.topic c.messageType c.message) b₁ (Published b c)
      fun _ => Failed b c := by
  unfold publishWithSession
  refine .bind ((resolve_ensures fun _ => .of_eq hp hh).mono ?_ fun _ _ h => h)
  rintro kind _ ⟨rfl, hresolved⟩
  refine .ofExcept_bind (fun _ _ => .of_eq hp hh) fun _ hparsed => ?_
  refine .get_bind ?_
  rw [hp]
  split
  · rename_i cached hcached
    refine .ofExcept_bind (fun _ _ => .of_eq hp hh) fun dynamic hdynamic => ?_
    obtain ⟨hloaded, hdecoded⟩ := buildMessage_eq_ok hdynamic
    refine hand_ensures hp hh (fun hmatched => ⟨hnamed, hsession, hresolved,
      described_eq_ok.1 hparsed, hloaded, hdecoded, fun hnone => ?_, hmatched⟩)
      (hb _ _ hcached) fun b₂ hs₂ hh₂ hprepared => .pure ⟨⟨_, _, hprepared, hh₂⟩, fun key => ?_⟩
    · rw [hcached] at hnone
      cases hnone
    · rw [Backend.publishers_congr hs₂, hp]
      split
      · subst key
        rw [hcached, ← hb _ _ hcached]
      · rfl
  · rename_i hnone
    refine .ofExcept_bind (fun _ _ => .of_eq hp hh) fun dynamic hdynamic => ?_
    obtain ⟨hloaded, hdecoded⟩ := buildMessage_eq_ok hdynamic
    refine .ofExcept_bind (fun _ _ => .of_eq hp hh) fun publisher hcreate => ?_
    refine hand_ensures hp hh (fun hmatched => ⟨hnamed, hsession, hresolved,
      described_eq_ok.1 hparsed, hloaded, hdecoded, fun _ => ⟨publisher, hcreate⟩, hmatched⟩)
      (createPublisher_eq_ok hcreate) fun b₂ hs₂ hh₂ hprepared => .modify_bind
        (.pure ⟨⟨_, _, hprepared, hh₂⟩, fun key => ?_⟩)
    rw [Backend.publishers_insert _ _ (hs₂ ▸ hs), Backend.publishers_congr hs₂, hp,
      Table.lookup_insert, createPublisher_eq_ok hcreate]

omit [Rclrs] in
theorem PublisherSession.new_eq_ok {answers : PublishAnswers} {session : PublisherSession}
    (h : PublisherSession.new answers = .ok session) : session = ⟨∅⟩ := by
  unfold PublisherSession.new at h
  cases hc : described answers.context <;> cases hn : described answers.node <;>
    rw [hc, hn] at h <;> cases h
  rfl

theorem run_ensures (hb : b.Sound) (c : PublishCall) :
    Ensures c.run b (Published b c) fun _ => Failed b c := by
  unfold PublishCall.run
  refine .ofExcept_bind (fun _ _ => .of_eq rfl rfl) fun _ hnamed => ?_
  unfold withSession
  refine .get_bind ?_
  split
  · rename_i hnone
    rw [Option.isNone_iff_eq_none] at hnone
    refine .ofExcept_bind (fun _ _ => .of_eq rfl rfl) fun session hsession => .modify_bind ?_
    refine publishWithSession_ensures hb ?_ rfl rfl (described_eq_ok.1 hnamed)
      fun _ => ⟨session, hsession⟩
    unfold Backend.publishers
    rw [hnone, PublisherSession.new_eq_ok hsession]
  · rename_i hsome
    refine publishWithSession_ensures hb rfl rfl ?_ (described_eq_ok.1 hnamed) fun h => ?_
    · simpa [← Option.isSome_iff_ne_none] using hsome
    · rw [h] at hsome
      exact absurd rfl hsome

omit [Rclrs] in
theorem PublishCall.Resolves.unique {kind kind' : String} (h : c.Resolves kind)
    (h' : c.Resolves kind') : kind = kind' := by
  unfold PublishCall.Resolves at h h'
  cases ht : c.messageType <;> simp only [ht] at h h'
  · exact Except.ok.inj (h.symm.trans h')
  · rw [h, h']

/-- Where a call fails before its sample is taken, it was never prepared. -/
theorem Refused.not_prepared {T : MessageType} {message : T.Val} (h : Refused b c)
    (hp : Prepared b c kind T message) : False := by
  cases h with
  | name h => cases h.symm.trans hp.named
  | session hs h =>
    obtain ⟨session, hok⟩ := hp.session hs
    cases h.symm.trans hok
  | type ht h =>
    have hk := hp.resolved
    unfold PublishCall.Resolves at hk
    rw [ht] at hk
    cases h.symm.trans hk
  | parse hk h =>
    cases hk.unique hp.resolved
    cases h.symm.trans hp.parsed
  | message hk h =>
    cases hk.unique hp.resolved
    have hok : buildMessage c.answers kind c.message = .ok ⟨T, message⟩ := by
      simp [buildMessage, hp.loaded, hp.decoded, described, Except.mapError, bind, Except.bind,
        pure, Except.pure]
    cases h.symm.trans hok
  | create hk hn h =>
    cases hk.unique hp.resolved
    obtain ⟨publisher, hok⟩ := hp.created hn
    cases h.symm.trans hok
  | wait h => cases h.symm.trans hp.matched

/-- What a call in a backend does, and what it does not where it fails early. -/
structure Backend.CallSpec (b : Backend) (c : PublishCall) (r : Except Failure String)
    (b' : Backend) : Prop where
  ok : ∀ kind, r = .ok kind → Published b c kind b'
  error : ∀ e, r = .error e → Failed b c b'
  refused : Refused b c → (∃ e, r = .error e) ∧ b'.handed = b.handed
    ∧ b'.publishers = b.publishers
  once : ∃ samples : List Sample, samples.length ≤ 1 ∧ b'.handed = b.handed ++ samples

theorem Published.spec {b' : Backend} (h : Published b c kind b') :
    b.CallSpec c (.ok kind) b' := by
  obtain ⟨T, message, hprepared, hhanded⟩ := h.handed
  exact {
    ok := fun kind' hk => by
      cases hk
      exact h
    error := fun e he => by cases he
    refused := fun hr => (hr.not_prepared hprepared).elim
    once := ⟨_, le_rfl, hhanded⟩ }

theorem Failed.spec {b' : Backend} {e : Failure} (h : Failed b c b') :
    b.CallSpec c (.error e) b' where
  ok := fun kind hk => by cases hk
  error := fun _ _ => h
  refused := fun hr => by
    refine ⟨⟨e, rfl⟩, ?_, h.publishers⟩
    obtain heq | ⟨kind, T, message, hprepared, -, -⟩ := h.handed
    · exact heq
    · exact (hr.not_prepared hprepared).elim
  once := by
    obtain heq | ⟨kind, T, message, -, -, heq⟩ := h.handed
    · exact ⟨[], by simp, by simp [heq]⟩
    · exact ⟨_, le_rfl, heq⟩

theorem Backend.call_spec (hb : b.Sound) (c : PublishCall) :
    b.CallSpec c (b.call c).1 (b.call c).2 := by
  have hc := run_ensures hb c
  unfold Ensures at hc
  unfold Backend.call
  split at hc <;> rename_i hrun <;> rw [hrun]
  · exact hc.spec
  · exact hc.spec

theorem Backend.CallSpec.sound {r : Except Failure String} {b' : Backend}
    (h : b.CallSpec c r b') (hb : b.Sound) : b'.Sound := by
  intro key cached hcached
  cases r with
  | error e =>
    rw [(h.error e rfl).publishers] at hcached
    exact hb key cached hcached
  | ok kind =>
    rw [(h.ok kind rfl).publishers key] at hcached
    split at hcached
    · subst key
      cases hcached
      rfl
    · exact hb key cached hcached

end Call

/-- In every run of a backend its publishers are kept under what they were created for, and a call
hands over the decode of its own message, once, where it does not fail before. -/
theorem publish_once {cs : List PublishCall} {b : Backend}
    (hr : run Backend.step .initial cs = some b) :
    b.Sound ∧ ∀ c, b.CallSpec c (b.call c).1 (b.call c).2 := by
  have hb : b.Sound := by
    refine run_invariant (fun b c b' hb hs => ?_) hr fun key cached hcached => ?_
    · cases hs
      exact (Backend.call_spec hb c).sound hb
    · simp [Backend.publishers, Backend.initial] at hcached
  exact ⟨hb, Backend.call_spec hb⟩

end Calls

section Witness

open Reference

/-- A subscriber is matched, and the sample is flushed at the first look at the clock. -/
def matchedAnswers : PublishAnswers where
  context := .ok ()
  node := .ok ()
  discovering := 0
  graph := [⟨.ok [("/chat", ["std_msgs/msg/String"])], 0, .ok ()⟩]
  parse _ := .ok ()
  load _ := .ok stringType
  create _ _ := .ok ()
  matching := 0
  subscriptions := [⟨.ok 1, 0, .ok ()⟩]
  publish := .ok ()
  flushing := 0
  flushes := [(seconds 1, .ok ())]

def publishChat (data : Value) : PublishCall :=
  ⟨"/chat", none, .object [("data", data)], matchedAnswers⟩

/-- A publish, one of a number that does not decode, and one through the cached publisher. -/
theorem publish_once_chat : ∃ b b' : Backend,
    run Backend.step .initial [publishChat (.string "hi"), publishChat .null] = some b
      ∧ b.call (publishChat (.string "hello")) = (.ok "std_msgs/msg/String", b')
      ∧ Published b (publishChat (.string "hello")) "std_msgs/msg/String" b' := by
  have h : ((run Backend.step .initial [publishChat (.string "hi"), publishChat .null]).any
      fun b => decide ((b.call (publishChat (.string "hello"))).1 = .ok "std_msgs/msg/String"))
      = true := by
    decide +kernel
  simp only [Option.any_eq_true, decide_eq_true_eq] at h
  obtain ⟨b, hr, hok⟩ := h
  exact ⟨b, _, hr, Prod.ext hok rfl, ((publish_once hr).2 _).ok _ hok⟩

end Witness

end PgRos2
