import PgRos2.Lib.Run
import PgRos2.Proofs.Decode
import PgRos2.Proofs.Naming
import PgRos2.Proofs.Publish

/-!
# When a publish succeeds

A call succeeds on what it is given, what ROS answers to it and what the backend has published
before, and on nothing else (`publish_succeeds_iff`). Its three loops go on until a turn that stops
them, and the session and the publishers of a backend are those of its calls so far.
-/

namespace PgRos2

open Lib

/-! ## The loops -/

/-- A turn that finds no such topic in time, and spins. -/
def Turn.Misses (topic : String) (deadline : Time)
    (turn : Turn (List (String × List String))) : Prop :=
  ∃ topics, turn.answer = .ok topics ∧ topics.lookup topic = none ∧ turn.now < deadline
    ∧ turn.spin = .ok ()

/-- A turn that finds the topic with one type. -/
def Turn.Finds (topic kind : String) (turn : Turn (List (String × List String))) : Prop :=
  ∃ topics, turn.answer = .ok topics ∧ topics.lookup topic = some [kind]

/-- A turn that matches no subscription in time, and spins. -/
def Turn.Lonely (deadline : Time) (turn : Turn ℕ) : Prop :=
  turn.answer = .ok 0 ∧ turn.now < deadline ∧ turn.spin = .ok ()

/-- A turn that matches a subscription, or is late. -/
def Turn.Ready (deadline : Time) (turn : Turn ℕ) : Prop :=
  ∃ matched, turn.answer = .ok matched ∧ (0 < matched ∨ deadline ≤ turn.now)

theorem described_bind_iff {α β : Type} {answer : Except String α} {f : α → Except Failure β}
    {b : β} : (described answer >>= f) = .ok b ↔ ∃ a, answer = .ok a ∧ f a = .ok b := by
  rcases answer with error | a
  · exact iff_of_false nofun (by simp)
  · simp only [Except.ok.injEq, exists_eq_left']
    exact Iff.rfl

theorem discoverType_iff (topic kind : String) (deadline : Time) :
    ∀ turns, discoverType topic deadline turns = .ok kind
      ↔ Until (Turn.Misses topic deadline) (Turn.Finds topic kind) turns := by
  refine until_iff nofun fun turn turns => ?_
  rw [discoverType, described_bind_iff]
  constructor
  · rintro ⟨topics, ha, h⟩
    split at h
    · rename_i k hl
      cases h
      exact .inl ⟨topics, ha, hl⟩
    · cases h
    · rename_i hl
      split_ifs at h with hlate
      · cases h
      · obtain ⟨⟨⟩, hs, h⟩ := described_bind_iff.mp h
        exact .inr ⟨⟨topics, ha, hl, not_le.mp hlate, hs⟩, h⟩
  · rintro (⟨topics, ha, hl⟩ | ⟨⟨topics, ha, hl, hnow, hs⟩, h⟩) <;> refine ⟨topics, ha, ?_⟩
    · rw [hl]
      rfl
    · rw [hl, if_neg (not_le.mpr hnow)]
      exact described_bind_iff.mpr ⟨(), hs, h⟩

theorem waitForSubscriber_iff (deadline : Time) :
    ∀ turns, waitForSubscriber deadline turns = .ok ()
      ↔ Until (Turn.Lonely deadline) (Turn.Ready deadline) turns := by
  refine until_iff nofun fun turn turns => ?_
  rw [waitForSubscriber, described_bind_iff]
  constructor
  · rintro ⟨matched, ha, h⟩
    split_ifs at h with hdone
    · exact .inl ⟨matched, ha, hdone⟩
    · obtain ⟨hm, hlate⟩ := not_or.mp hdone
      obtain ⟨⟨⟩, hs, h⟩ := described_bind_iff.mp h
      rw [Nat.eq_zero_of_not_pos hm] at ha
      exact .inr ⟨⟨ha, not_le.mp hlate, hs⟩, h⟩
  · rintro (⟨matched, ha, hdone⟩ | ⟨⟨ha, hnow, hs⟩, h⟩)
    · refine ⟨matched, ha, ?_⟩
      rw [if_pos hdone]
      rfl
    · refine ⟨0, ha, ?_⟩
      rw [if_neg (not_or.mpr ⟨lt_irrefl 0, not_le.mpr hnow⟩)]
      exact described_bind_iff.mpr ⟨(), hs, h⟩

theorem flushExecutor_iff (deadline : Time) :
    ∀ turns, flushExecutor deadline turns = .ok ()
      ↔ Until (fun turn => turn.1 < deadline ∧ turn.2 = .ok ()) (fun turn => deadline ≤ turn.1)
        turns := by
  refine until_iff nofun fun turn turns => ?_
  obtain ⟨now, spin⟩ := turn
  rw [flushExecutor]
  split_ifs with hlate
  · exact iff_of_true rfl (.inl hlate)
  · rw [described_bind_iff]
    constructor
    · rintro ⟨⟨⟩, hs, h⟩
      exact .inr ⟨⟨not_le.mp hlate, hs⟩, h⟩
    · rintro (h | ⟨⟨-, hs⟩, h⟩)
      · exact absurd h hlate
      · exact ⟨(), hs, h⟩

/-! ## One call -/

section Calls

variable [Rclrs] {b : Backend} {c : PublishCall} {kind : String}

omit [Rclrs] in
theorem createPublisher_iff {answers : PublishAnswers} {topic : String} :
    (∃ publisher, createPublisher answers topic kind = .ok publisher)
      ↔ answers.create topic kind = .ok () := by
  unfold createPublisher
  split
  · rename_i ha
    exact iff_of_true ⟨_, rfl⟩ ha
  · rename_i error ha
    exact iff_of_false (by simp) (by simp [ha])

theorem buildMessage_iff {answers : PublishAnswers} {message : Value} (hd : message.Distinct) :
    (∃ dynamic, buildMessage answers kind message = .ok dynamic)
      ↔ ∃ T, answers.load kind = .ok T ∧ T.Conforms message := by
  unfold buildMessage
  simp only [described_bind_iff]
  constructor
  · rintro ⟨dynamic, T, hl, h⟩
    refine ⟨T, hl, ?_⟩
    by_contra hc
    obtain ⟨text, herror⟩ := (decode_decodes T T.default hd).2 hc
    rw [herror] at h
    cases h
  · rintro ⟨T, hl, hc⟩
    refine ⟨⟨T, T.overlay T.default message⟩, T, hl, ?_⟩
    rw [(decode_decodes T T.default hd).1 hc]
    rfl

/-- A publish once its type is known. -/
def publishResolved (answers : PublishAnswers) (topic : String) (message : Value)
    (resolved : String) : PublishM String := do
  ofExcept (described (answers.parse resolved))
  let key := (topic, resolved)
  match (← get).publishers.lookup key with
  | some cached =>
    let dynamic ← ofExcept (buildMessage answers resolved message)
    ofExcept (waitForSubscriber (answers.matching + seconds 2) answers.subscriptions)
    cached.publisher.publish answers dynamic
    ofExcept (flushExecutor (answers.flushing + millis 10) answers.flushes)
    return resolved
  | none =>
    let dynamic ← ofExcept (buildMessage answers resolved message)
    let publisher ← ofExcept (createPublisher answers topic resolved)
    ofExcept (waitForSubscriber (answers.matching + seconds 2) answers.subscriptions)
    publisher.publish answers dynamic
    ofExcept (flushExecutor (answers.flushing + millis 100) answers.flushes)
    modify fun b => b.insert key ⟨publisher⟩
    return resolved

/-- How long a publish spins once its sample is taken. -/
def flushSpan (kept : Bool) : Time := if kept then millis 10 else millis 100

/-- The call gets from its type to its end in a backend that keeps a publisher for it, or not. -/
structure PublishCall.Delivers (c : PublishCall) (kept : Bool) (kind : String) : Prop where
  parsed : c.answers.parse kind = .ok ()
  message : ∃ T, c.answers.load kind = .ok T ∧ T.Conforms c.message
  created : kept = false → c.answers.create c.topic kind = .ok ()
  matched : Until (Turn.Lonely (c.answers.matching + seconds 2))
    (Turn.Ready (c.answers.matching + seconds 2)) c.answers.subscriptions
  taken : c.answers.publish = .ok ()
  flushed : Until (fun turn => turn.1 < c.answers.flushing + flushSpan kept ∧ turn.2 = .ok ())
    (fun turn => c.answers.flushing + flushSpan kept ≤ turn.1) c.answers.flushes

theorem publishResolved_returns (hd : c.message.Distinct) (resolved : String) : Returns
    (publishResolved c.answers c.topic c.message resolved) b kind
      ↔ resolved = kind
        ∧ c.Delivers (b.publishers.lookup (c.topic, kind)).isSome kind := by
  unfold publishResolved Publisher.publish
  simp only [bind_assoc, Returns.ofExcept_bind_iff, Returns.get_bind_iff]
  rcases hl : b.publishers.lookup (c.topic, resolved) with _ | cached
  · simp only [Returns.ofExcept_bind_iff, Returns.modify_bind_iff, Returns.pure_iff]
    constructor
    · rintro ⟨⟨⟩, hp, dynamic, hm, publisher, hc, ⟨⟩, hw, ⟨⟩, ht, ⟨⟩, hf, rfl⟩
      refine ⟨rfl, described_eq_ok.mp hp, (buildMessage_iff hd).mp ⟨dynamic, hm⟩,
        fun _ => createPublisher_iff.mp ⟨publisher, hc⟩, (waitForSubscriber_iff _ _).mp hw,
        described_eq_ok.mp ht, ?_⟩
      simpa [flushSpan, hl] using (flushExecutor_iff _ _).mp hf
    · rintro ⟨rfl, hp, hm, hc, hw, ht, hf⟩
      obtain ⟨dynamic, hm⟩ := (buildMessage_iff hd).mpr hm
      obtain ⟨publisher, hc⟩ := createPublisher_iff.mpr (hc (by simp [hl]))
      refine ⟨(), described_eq_ok.mpr hp, dynamic, hm, publisher, hc, (),
        (waitForSubscriber_iff _ _).mpr hw, (), described_eq_ok.mpr ht, (), ?_, rfl⟩
      refine (flushExecutor_iff _ _).mpr ?_
      simpa [flushSpan, hl] using hf
  · simp only [Returns.ofExcept_bind_iff, Returns.modify_bind_iff, Returns.pure_iff]
    constructor
    · rintro ⟨⟨⟩, hp, dynamic, hm, ⟨⟩, hw, ⟨⟩, ht, ⟨⟩, hf, rfl⟩
      refine ⟨rfl, described_eq_ok.mp hp, (buildMessage_iff hd).mp ⟨dynamic, hm⟩,
        fun hnot => by simp [hl] at hnot, (waitForSubscriber_iff _ _).mp hw,
        described_eq_ok.mp ht, ?_⟩
      simpa [flushSpan, hl] using (flushExecutor_iff _ _).mp hf
    · rintro ⟨rfl, hp, hm, -, hw, ht, hf⟩
      obtain ⟨dynamic, hm⟩ := (buildMessage_iff hd).mpr hm
      refine ⟨(), described_eq_ok.mpr hp, dynamic, hm, (), (waitForSubscriber_iff _ _).mpr hw, (),
        described_eq_ok.mpr ht, (), ?_, rfl⟩
      refine (flushExecutor_iff _ _).mpr ?_
      simpa [flushSpan, hl] using hf

/-- The call names the type, or finds it in the graph in time. -/
def PublishCall.Types (c : PublishCall) (kind : String) : Prop :=
  c.messageType = some kind ∨ c.messageType = none
    ∧ Until (Turn.Misses c.topic (c.answers.discovering + seconds 5)) (Turn.Finds c.topic kind)
      c.answers.graph

theorem publishWithSession_returns (hd : c.message.Distinct) : Returns
    (publishWithSession c.answers c.topic c.messageType c.message) b kind
      ↔ c.Types kind ∧ c.Delivers (b.publishers.lookup (c.topic, kind)).isSome kind := by
  unfold PublishCall.Types
  cases c.messageType with
  | some messageType =>
    have heq : publishWithSession c.answers c.topic (some messageType) c.message
        = publishResolved c.answers c.topic c.message messageType := rfl
    rw [heq, publishResolved_returns hd]
    simp
  | none =>
    have heq : publishWithSession c.answers c.topic none c.message
        = ofExcept (discoverType c.topic (c.answers.discovering + seconds 5) c.answers.graph)
          >>= publishResolved c.answers c.topic c.message := rfl
    rw [heq, Returns.ofExcept_bind_iff]
    simp only [publishResolved_returns hd, discoverType_iff, reduceCtorEq, true_and, false_or]
    constructor
    · rintro ⟨resolved, hr, rfl, h⟩
      exact ⟨hr, h⟩
    · rintro ⟨hr, h⟩
      exact ⟨kind, hr, rfl, h⟩

/-- The call gets past its check of the name, and ROS gives it a context and a node. -/
def PublishCall.Opens (c : PublishCall) : Prop :=
  IsName c.topic.toList ∧ c.answers.context = .ok () ∧ c.answers.node = .ok ()

omit [Rclrs] in
theorem PublisherSession.new_eq_ok_iff {answers : PublishAnswers} {session : PublisherSession} :
    PublisherSession.new answers = .ok session
      ↔ answers.context = .ok () ∧ answers.node = .ok () ∧ session = ⟨∅⟩ := by
  unfold PublisherSession.new
  simp only [described_bind_iff]
  constructor
  · rintro ⟨⟨⟩, hc, ⟨⟩, hn, h⟩
    exact ⟨hc, hn, (Except.ok.inj h).symm⟩
  · rintro ⟨hc, hn, rfl⟩
    exact ⟨(), hc, (), hn, rfl⟩

theorem run_returns (hd : c.message.Distinct) : Returns c.run b kind
    ↔ IsName c.topic.toList ∧ (b.session = none → c.Opens) ∧ c.Types kind
      ∧ c.Delivers (b.publishers.lookup (c.topic, kind)).isSome kind := by
  unfold PublishCall.run withSession
  rw [Returns.ofExcept_bind_iff]
  simp only [described_eq_ok, Returns.get_bind_iff]
  rcases hs : b.session with _ | session
  · have hempty : b.publishers = ∅ := by simp [Backend.publishers, hs]
    simp only [Option.isNone_none, if_true, Returns.ofExcept_bind_iff, Returns.modify_bind_iff,
      publishWithSession_returns hd, PublisherSession.new_eq_ok_iff]
    constructor
    · rintro ⟨⟨⟩, hname, _, ⟨hc, hn, rfl⟩, hk, h⟩
      have hname := (validateTopic_iff _).mp hname
      refine ⟨hname, fun _ => ⟨hname, hc, hn⟩, hk, ?_⟩
      rw [hempty]
      exact h
    · rintro ⟨hname, ho, hk, h⟩
      obtain ⟨-, hc, hn⟩ := ho trivial
      rw [hempty] at h
      exact ⟨(), (validateTopic_iff _).mpr hname, _, ⟨hc, hn, rfl⟩, hk, h⟩
  · simp only [Option.isNone_some, Bool.false_eq_true, if_false,
      publishWithSession_returns hd]
    constructor
    · rintro ⟨⟨⟩, hname, hk, h⟩
      exact ⟨(validateTopic_iff _).mp hname, by simp, hk, h⟩
    · rintro ⟨hname, -, hk, h⟩
      exact ⟨(), (validateTopic_iff _).mpr hname, hk, h⟩

theorem call_returns : (b.call c).1 = .ok kind ↔ Returns c.run b kind := by
  unfold Backend.call Returns
  rcases c.run.run b with ⟨kind', b'⟩ | ⟨e, b'⟩ <;> simp

/-! ## The backend after a call -/

/-- A session that is there stays. -/
theorem publishResolved_opened (resolved : String) (h : b.session.isSome = true) :
    Ensures (publishResolved c.answers c.topic c.message resolved) b
      (fun _ b' => b'.session.isSome = true) fun _ b' => b'.session.isSome = true := by
  unfold publishResolved Publisher.publish
  refine .ofExcept_bind (fun _ _ => h) fun _ _ => .get_bind ?_
  split
  · refine .ofExcept_bind (fun _ _ => h) fun _ _ => .ofExcept_bind (fun _ _ => h) fun _ _ => ?_
    rw [bind_assoc]
    refine .ofExcept_bind (fun _ _ => h) fun _ _ => .modify_bind ?_
    exact .ofExcept_bind (fun _ _ => h) fun _ _ => .pure h
  · refine .ofExcept_bind (fun _ _ => h) fun _ _ => .ofExcept_bind (fun _ _ => h) fun _ _ => ?_
    refine .ofExcept_bind (fun _ _ => h) fun _ _ => ?_
    rw [bind_assoc]
    refine .ofExcept_bind (fun _ _ => h) fun _ _ => .modify_bind ?_
    refine .ofExcept_bind (fun _ _ => h) fun _ _ => .modify_bind (.pure ?_)
    simpa [Backend.insert] using h

theorem publishWithSession_opened (h : b.session.isSome = true) :
    Ensures (publishWithSession c.answers c.topic c.messageType c.message) b
      (fun _ b' => b'.session.isSome = true) fun _ b' => b'.session.isSome = true := by
  refine .bind ((resolve_ensures fun _ => h).mono ?_ fun _ _ h' => h')
  rintro kind _ ⟨rfl, -⟩
  exact publishResolved_opened kind h

/-- A session is there after a call that opens one, or where it was before. -/
theorem run_opened : Ensures c.run b
    (fun _ b' => b'.session.isSome = true ↔ b.session.isSome = true ∨ c.Opens)
    fun _ b' => b'.session.isSome = true ↔ b.session.isSome = true ∨ c.Opens := by
  unfold PublishCall.run
  refine .ofExcept_bind (fun e he => ?_) fun _ hname => ?_
  · rw [or_iff_left]
    rintro ⟨hname, -⟩
    rw [(validateTopic_iff _).mpr hname] at he
    cases he
  have hname := (validateTopic_iff _).mp (described_eq_ok.mp hname)
  unfold withSession
  refine .get_bind ?_
  split
  · rename_i hnone
    refine .ofExcept_bind (fun e he => ?_) fun session hs => .modify_bind ?_
    · rw [or_iff_left]
      rintro ⟨-, hc, hn⟩
      rw [PublisherSession.new_eq_ok_iff.mpr ⟨hc, hn, rfl⟩] at he
      cases he
    · obtain ⟨hc, hn, -⟩ := PublisherSession.new_eq_ok_iff.mp hs
      have hopens : b.session.isSome = true ∨ c.Opens := .inr ⟨hname, hc, hn⟩
      exact (publishWithSession_opened rfl).mono (fun _ _ h => iff_of_true h hopens)
        fun _ _ h => iff_of_true h hopens
  · rename_i hsome
    have hs : b.session.isSome = true := by simpa [Option.isSome_iff_ne_none] using hsome
    exact (publishWithSession_opened hs).mono (fun _ _ h => iff_of_true h (.inl hs))
      fun _ _ h => iff_of_true h (.inl hs)

theorem call_opened (b : Backend) (c : PublishCall) :
    (b.call c).2.session.isSome = true ↔ b.session.isSome = true ∨ c.Opens := by
  have h := run_opened (b := b) (c := c)
  unfold Ensures at h
  unfold Backend.call
  split at h <;> rename_i hrun <;> rw [hrun] <;> exact h

end Calls

/-! ## Runs -/

section Runs

variable [Rclrs] {b : Backend} {cs : List PublishCall}

/-- The topic and the type of a call that returns. -/
def Backend.returned (b : Backend) (c : PublishCall) : Option (String × String) :=
  match (b.call c).1 with
  | .ok kind => some (c.topic, kind)
  | .error _ => none

/-- The topics and types that calls of a new backend have published. -/
def published (cs : List PublishCall) : List (String × String) :=
  history Backend.step Backend.returned .initial cs

theorem run_session (hr : run Backend.step .initial cs = some b) :
    b.session.isSome = true ↔ ∃ c ∈ cs, c.Opens := by
  refine run_history (G := fun _ _ => True) (I := fun cs b =>
    b.session.isSome = true ↔ ∃ c ∈ cs, c.Opens) ?_ (by simp [Backend.initial])
    (along_true cs _) hr
  intro cs b c b' _ hI _ h
  cases h
  rw [call_opened, hI]
  simp only [List.mem_append, List.mem_singleton, or_and_right, exists_or, exists_eq_left]

/-- A backend keeps a publisher for each topic and type it has published, and no other. -/
theorem run_publishers (hr : run Backend.step .initial cs = some b) :
    b.Sound ∧ ∀ key, (b.publishers.lookup key).isSome = true ↔ key ∈ published cs := by
  refine run_history (G := fun _ _ => True) (I := fun cs b => b.Sound
    ∧ ∀ key, (b.publishers.lookup key).isSome = true ↔ key ∈ published cs) ?_
    ⟨fun key cached h => by simp [Backend.publishers, Backend.initial] at h,
      fun key => by simp [Backend.publishers, Backend.initial, published, history]⟩
    (along_true cs _) hr
  intro cs b c b' hr h₀ _ h
  obtain ⟨hb, hI⟩ := h₀
  cases h
  have hspec := Backend.call_spec hb c
  refine ⟨hspec.sound hb, fun key => ?_⟩
  unfold published Backend.returned at *
  rw [history_append hr, history_singleton, List.mem_append, ← hI]
  rcases hcall : (b.call c).1 with e | kind
  · rw [(hspec.error e hcall).publishers]
    simp
  · rw [(hspec.ok kind hcall).publishers]
    split
    · simp [*]
    · simp [*]

/-- In every run of a backend a call succeeds with a type exactly when its name is one of the
grammar, it or a call before it has opened a session, the type is the one it names or the one the
graph advertises in time, the type parses and loads, its JSON conforms to the type, a publisher of
the topic and type is kept or created, a subscription is matched or waited for long enough, and ROS
takes the sample and then spins as long as it is let. -/
theorem publish_succeeds_iff (hr : run Backend.step .initial cs = some b) {c : PublishCall}
    (hd : c.message.Distinct) (kind : String) : (b.call c).1 = .ok kind
      ↔ IsName c.topic.toList ∧ (∃ c' ∈ cs ++ [c], c'.Opens) ∧ c.Types kind
        ∧ c.Delivers ((c.topic, kind) ∈ published cs) kind := by
  have hkept : (b.publishers.lookup (c.topic, kind)).isSome
      = decide ((c.topic, kind) ∈ published cs) := by
    rw [Bool.eq_iff_iff, decide_eq_true_iff]
    exact (run_publishers hr).2 _
  have hopened : (b.session = none → c.Opens) ↔ ∃ c' ∈ cs ++ [c], c'.Opens := by
    simp only [List.mem_append, List.mem_singleton, or_and_right, exists_or, exists_eq_left,
      ← run_session hr, Option.isSome_iff_ne_none]
    tauto
  rw [call_returns, run_returns hd, hkept, hopened]

end Runs

section Witness

open Reference

/-- A publish through the publisher that is kept, which ROS would not create again. -/
def publishAgain : PublishCall :=
  ⟨"/chat", some "std_msgs/msg/String", .object [("data", .string "again")],
    { matchedAnswers with create := fun _ _ => .error "no type support" }⟩

theorem publish_succeeds_iff_again : ∃ b,
    run Backend.step .initial [publishChat (.string "hi")] = some b
      ∧ publishAgain.Delivers
        (("/chat", "std_msgs/msg/String") ∈ published [publishChat (.string "hi")])
        "std_msgs/msg/String" := by
  have h : ((run Backend.step .initial [publishChat (.string "hi")]).any fun b =>
      decide ((b.call publishAgain).1 = .ok "std_msgs/msg/String")) = true := by
    decide +kernel
  simp only [Option.any_eq_true, decide_eq_true_eq] at h
  obtain ⟨b, hr, hok⟩ := h
  have hd : publishAgain.message.Distinct := by
    simp [publishAgain, Value.Distinct, Value.DistinctMembers]
  obtain ⟨-, -, -, hdelivers⟩ := (publish_succeeds_iff hr hd "std_msgs/msg/String").mp hok
  exact ⟨b, hr, hdelivers⟩

end Witness

end PgRos2
