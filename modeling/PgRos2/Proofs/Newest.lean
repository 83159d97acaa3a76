import PgRos2.Lib.Newest
import PgRos2.Proofs.Messaging
import PgRos2.Proofs.Registry
import PgRos2.Proofs.Text

/-!
# The cached messages of a session

A topic of the system is the cell of a newest-wins cache: its callback numbers what it hears, its
mailbox is the slot and its row in `ros2.messages` is what a flush writes (`step_cell`). So in every
run of a session a row is the newest message of its live subscription, under its own topic, and none
is written twice (`newest_wins`).
-/

namespace PgRos2

open Lib Newest

/-! ## What is stored of a payload -/

/-- What `jsonb` keeps of a payload. -/
def storedAs [SerdeJson] (text : String) : Option Value :=
  (Value.fromStrLimited text).bind Value.jsonb

/-- A text the callback of a topic produces under a number. -/
def Produces [Rclrs] (topic : String) (sequence : ℕ) (text : String) : Prop :=
  ∃ (T : MessageType) (message : T.Val) (messageType : String) (limit : ℕ),
    payload topic messageType sequence message limit = .ok text

/-- A stored message tells its topic and its number, which is a `u64`. -/
structure Tells [SerdeJson] (topic : String) (sequence : ℕ) (message : Value) : Prop where
  topic : message.get "topic" = some (.string topic)
  number : message.get "sequence"
    = (Number.ofNumeral (.ofInt sequence)).map fun number => .number number.jsonb
  sequence : sequence < 2 ^ 64 → (message.get "sequence").bind Value.integer = some sequence

theorem Value.lookup_jsonbMembers {k : String} {v : Value} :
    ∀ {ms ms' : List (String × Value)}, jsonbMembers ms = some ms' → ms.lookup k = some v →
      ∃ v', v.jsonb = some v' ∧ ms'.lookup k = some v'
  | [], _, _, hv => by cases hv
  | (k', x) :: ms, ms', h, hv => by
    unfold jsonbMembers at h
    split at h
    · obtain ⟨x', hx, h⟩ := Option.bind_eq_some_iff.1 h
      obtain ⟨rest, hrest, h⟩ := Option.bind_eq_some_iff.1 h
      cases h
      rw [List.lookup_cons] at hv ⊢
      split at hv
      · cases hv
        exact ⟨x', hx, rfl⟩
      · exact lookup_jsonbMembers hrest hv
    · cases h

theorem tells_of_stored [Rclrs] {topic text : String} {sequence : ℕ} {message : Value}
    (hp : Produces topic sequence text) (hs : storedAs text = some message) :
    Tells topic sequence message := by
  obtain ⟨T, sent, messageType, limit, hp⟩ := hp
  obtain ⟨j, -, hparse⟩ := parse_payload hp
  obtain ⟨v, hv, hj⟩ := Option.bind_eq_some_iff.1 hs
  unfold Value.fromStrLimited at hv
  rw [hparse, Option.bind_some] at hv
  split at hv
  · obtain ⟨ms, hms, rfl⟩ := Option.map_eq_some_iff.1 hv
    obtain ⟨ms', hms', rfl⟩ := Option.map_eq_some_iff.1 hj
    have hget (m : String × Json Json.Numeral) (hm : m ∈ [("topic", Json.string topic),
        ("message_type", .string messageType), ("sequence", .number (.ofInt (sequence : ℤ))),
        ("message", j)]) :
        ∃ v v', Value.ofJson m.2 = some v ∧ v.jsonb = some v'
          ∧ Value.get (.object ms') m.1 = some v' := by
      have hl := Value.lookup_ofMembers hms (by simp) hm
      obtain ⟨v, hv⟩ := Value.exists_of_ofMembers hms hm
      obtain ⟨v', hj, hg⟩ := Value.lookup_jsonbMembers hms' (hl.trans hv)
      exact ⟨v, v', hv, hj, hg⟩
    obtain ⟨v, v', hv, hj, htopic⟩ := hget ("topic", .string topic) (by simp)
    obtain ⟨x, x', hx, hjx, hsequence⟩ := hget ("sequence", .number (.ofInt sequence)) (by simp)
    cases hv
    have hv' : v' = .string topic := by
      unfold Value.jsonb at hj
      split at hj
      · exact (Option.some.inj hj).symm
      · cases hj
    obtain ⟨number, hn, rfl⟩ := Option.map_eq_some_iff.1 hx
    cases hjx
    refine ⟨by rw [htopic, hv'], by rw [hsequence, hn]; rfl, fun hlt => ?_⟩
    obtain ⟨number', hn', hi⟩ := Value.ofNumeral_ofInt (i := sequence) (by omega) (by omega)
    obtain rfl : number = number' := Option.some.inj (hn.symm.trans hn')
    rw [hsequence, Option.bind_some]
    cases number with
    | float x => cases hi
    | _ => exact hi
  · cases hv

/-! ## The cell of a topic -/

namespace World

/-- A topic of the system as a cell. -/
def cell (t : String) (w : World) : Cell String Value where
  live := (w.live t).map fun live => (live.mailbox.sequence, live.mailbox.pending)
  row := (w.cached t).map fun m => (m.sequence, m.message)
  doomed := Decidable.decide (∃ pass ∈ w.pass, t ∈ pass.removed ++ pass.expired)

variable [Rclrs]

/-- What befalls the cell of a topic: its callback hears a message, a flush that is due writes it,
and a pass subscribes to it, or stops it and then deletes its row. -/
def note (t : String) (w : World) : Event → Option (Note String String Value)
  | .message topic _ message =>
    if topic = t then (w.live t).map fun live =>
      .heard (payload t live.messageType (live.mailbox.sequence + 1) message live.limit)
    else none
  | .flush =>
    if w.Flushes then w.worker.bind fun o => (o.subscriptions.lookup t).map fun _ =>
      .flushed (((flushMessages o.subscriptions).lookup t).bind fun m => m.2.jsonb.map (m.1, ·))
    else none
  | .readDesired answers => (w.step (.readDesired answers)).bind fun w' =>
      if (w'.cell t).doomed then some .stopped
      else if (w.live t).isNone ∧ (w'.live t).isSome then some .subscribed
      else none
  | .writeBack => if (w.cell t).doomed then some .deleted else none
  | _ => none

/-- What befell a topic in a run. -/
def notes (t : String) (w₀ : World) (es : List Event) : List (Note String String Value) :=
  history World.step (World.note t) w₀ es

/-- The run goes on within one session over one installation, and what a flush finds pending reads
back. -/
def InSession (w : World) : Event → Prop
  | .beginSession | .startWorker _ | .dropExtension => False
  | .flush => ∀ o ∈ w.worker, ∀ entry ∈ o.subscriptions.entries,
    ∀ p ∈ entry.2.mailbox.pending, (Value.fromStrLimited p.2).isSome = true
  | _ => True

end World

/-- The cells stay as they are. -/
structure KeepsCells (w w' : World) : Prop where
  live : ∀ t, w'.live t = w.live t
  cached : ∀ t, w'.cached t = w.cached t
  pass : w'.pass = w.pass

section Frames

variable {w w' : World} {o : Observer} {s : Session}

theorem KeepsCells.cell (h : KeepsCells w w') (t : String) : w'.cell t = w.cell t := by
  simp [World.cell, h.live, h.cached, h.pass]

theorem KeepsCells.of_resume (ho : w.worker = some o) {ext : Option Extension}
    (hcached : ∀ t, (ext.bind fun ext => ext.messages.lookup t) = w.cached t) (o' : Observer)
    (s' : Session) (hsub : o'.subscriptions = o.subscriptions) (hpass : s'.phase.writing = w.pass) :
    KeepsCells w ({ w with extension := ext }.resume o' s') :=
  ⟨fun t => by rw [live_resume, hsub, live_of_worker ho], hcached, hpass⟩

theorem KeepsCells.of_onExtension (w : World) {f : Extension → Extension}
    (hf : ∀ ext, (f ext).messages = ext.messages) : KeepsCells w (w.onExtension f) := by
  refine ⟨fun _ => rfl, fun t => ?_, rfl⟩
  simp [World.cached, World.onExtension, Option.bind_map, hf]

theorem PollStep.keepsCells (ho : w.worker = some o) (hp : w.pass = none) (h : PollStep w o s w')
    (hw : w'.worker.isSome = true) : KeepsCells w w' := by
  obtain rfl | ⟨f, previousParameters, parameterExtension, phase, _, _, hf, hs, rfl⟩ := h
  · cases hw
  · have hk : KeepsCells w (w.onExtension f) := .of_onExtension w fun ext => by
      obtain ⟨parameters, parameterStatus, heq⟩ := hf ext
      rw [heq]
    refine .of_resume ho hk.cached _ _ rfl ?_
    rw [hp]
    rcases hs with hs | hs <;> rw [hs] <;> rfl

theorem observe_keepsCells (ho : w.worker = some o) (hp : w.pass = none) {ext : Extension}
    (hx : w.extension = some ext) (graph : Except String RosGraph) :
    KeepsCells w (w.observe o s graph) := by
  by_cases hdue : w.Due s
  · have hrows (snapshot : Except String GraphSnapshot) (t : String) :=
      (persistSnapshot_rows (some ext) o.pid w.now snapshot o.previous o.extensionOid t).2
    rw [← hx] at hrows
    rcases graph with error | graph
    · rw [World.observe_of_error hdue hx, ← hx]
      exact .of_resume ho (hrows _) _ _ rfl hp.symm
    · obtain ⟨phase, hphase, hobs⟩ := World.observe_of_ok (o := o) hdue hx graph
      rw [hobs, ← hx]
      refine .of_resume ho (hrows _) _ _ rfl ?_
      rw [hp]
      rcases hphase with rfl | rfl <;> rfl
  · rw [World.observe_of_not_due hdue]
    exact .of_resume ho (fun _ => rfl) _ _ rfl hp.symm

end Frames

/-! ## A step of the system is a step of the cell -/

section Steps

variable [Rclrs] {w w' : World} {o : Observer} {s : Session} (t : String)

/-- What an event is to a cell: the step that is noted, or none. -/
def CellStep (w w' : World) : Option (Note String String Value) → Prop
  | none => w'.cell t = w.cell t
  | some note => Cell.Step (Produces t) storedAs (w.cell t) note (w'.cell t)

omit [Rclrs] in
theorem cell_of_pass (hp : w.pass = none) :
    w.cell t = ⟨(w.live t).map fun live => (live.mailbox.sequence, live.mailbox.pending),
      (w.cached t).map fun m => (m.sequence, m.message), false⟩ := by
  simp [World.cell, hp]

omit [Rclrs] in
theorem cell_resume (ext : Option Extension) (o : Observer) (hs : s.phase.writing = none) :
    ({ w with extension := ext }.resume o s).cell t = ⟨(o.subscriptions.lookup t).map fun live =>
      (live.mailbox.sequence, live.mailbox.pending),
      (ext.bind fun ext => ext.messages.lookup t).map fun m => (m.sequence, m.message), false⟩ := by
  have hp : ({ w with extension := ext }.resume o s).pass = none := hs
  exact cell_of_pass t hp

theorem message_cell {topic : String} {T : MessageType} {message : T.Val}
    (hp : w.InPhase o s .spin) (ht : topic ∈ o.subscriptions) :
    CellStep t w (w.resume { o with
        subscriptions := o.subscriptions.update topic (Live.callback · topic message) } s)
      (w.note t (.message topic T message)) := by
  have hpass : w.pass = none := pass_of_phase hp
  obtain ⟨ho, hs, hph⟩ := hp
  have hpass' : s.phase.writing = none := by
    rw [hph]
    rfl
  obtain ⟨live, hl⟩ := Table.mem_iff_lookup.mp ht
  by_cases htopic : topic = t
  · subst htopic
    have hlive : w.live topic = some live := by rw [live_of_worker ho, hl]
    simp only [World.note, if_true, hlive, Option.map_some, CellStep]
    rw [cell_of_pass topic hpass, cell_resume topic w.extension _ hpass', Table.lookup_update,
      if_pos rfl, hl, hlive, Option.map_some, Option.map_some, Option.map_some]
    rcases hr : payload topic live.messageType (live.mailbox.sequence + 1) message live.limit
      with error | text
    · rw [Live.callback_of_error hr]
      exact .error _ _ _ error
    · rw [Live.callback_of_ok hr]
      exact .ok ⟨T, message, live.messageType, live.limit, hr⟩ _ _
  · simp only [World.note, if_neg htopic, CellStep]
    rw [cell_of_pass t hpass, cell_resume t w.extension _ hpass', live_of_worker ho,
      Table.lookup_update, if_neg (Ne.symm htopic)]
    rfl

/-- A flush that goes on found every message it could read to be one that `jsonb` takes. -/
theorem stored_of_flush {topics : LiveMap} {now : Time} {ext : Extension} {r : Option Extension}
    {live : Live} {p : ℕ × String} (hf : flush topics now (some ext) = some r)
    (hl : topics.lookup t = some live) (hm : live.mailbox.pending = some p)
    (hread : (Value.fromStrLimited p.2).isSome) :
    ∃ value message, live.message = some (p.1, value) ∧ value.jsonb = some message
      ∧ storedAs p.2 = some message := by
  obtain ⟨value, hv⟩ := Option.isSome_iff_exists.1 hread
  have hmessage : live.message = some (p.1, value) := by simp [Live.message, hm, hv]
  have hj : value.jsonb ≠ none := fun hno => by
    have hnone := (flush_eq_none_iff topics now ext).2 ⟨t, live, (p.1, value), hl, hmessage, hno⟩
    rw [hf] at hnone
    cases hnone
  obtain ⟨message, hj⟩ := Option.ne_none_iff_exists'.1 hj
  refine ⟨value, message, hmessage, hj, ?_⟩
  unfold storedAs
  rw [hv, Option.bind_some, hj]

theorem flush_cell {now : Time} {ext : Extension} (hp : w.InPhase o s (.flush now))
    (hx : w.extension = some ext) (hg : w.InSession .flush)
    (hw : (w.flush o s now).worker.isSome = true) :
    CellStep t w (w.flush o s now) (w.note t .flush) := by
  have hpass : w.pass = none := pass_of_phase hp
  have hflushes := flushes_iff hp
  have ho := hp.1
  have hnote : w.note t .flush = if w.Flushes then (o.subscriptions.lookup t).map fun _ =>
      .flushed (((flushMessages o.subscriptions).lookup t).bind fun m => m.2.jsonb.map (m.1, ·))
      else none := by
    simp only [World.note, ho, Option.bind_some]
  rw [hnote]
  unfold World.flush at hw ⊢
  by_cases hdue : o.subscriptions.entries = [] ∨ now < s.nextMessageFlush
  · rw [if_pos hdue, if_neg (hflushes.not.mpr (not_not.mpr hdue))]
    have hk : KeepsCells w (w.resume o { s with phase := .read now }) :=
      .of_resume ho (fun _ => rfl) _ _ rfl hpass.symm
    exact hk.cell t
  rw [if_neg hdue] at hw ⊢
  rw [if_pos (hflushes.mpr hdue)]
  split at hw
  · cases hw
  rename_i r hf
  rw [hx] at hf
  obtain ⟨ext', rfl, -, htopic⟩ := flush_topic hf
  have hmessages := (htopic t).1
  have hrow : (w.cached t).map (fun m => (m.sequence, m.message))
      = (ext.messages.lookup t).map fun m => (m.sequence, m.message) := by
    simp [World.cached, hx]
  rw [flushMessages_lookup]
  rcases hl : o.subscriptions.lookup t with _ | live
  · simp only [Option.map_none, CellStep]
    rw [hl] at hmessages
    rw [cell_of_pass t hpass, cell_resume t _ _ rfl, live_of_worker ho, hl, hrow]
    simp [hl, hmessages]
  · rw [hl] at hmessages
    simp only [Option.map_some, Option.bind_some, CellStep] at hmessages ⊢
    rw [cell_of_pass t hpass, cell_resume t _ _ rfl, live_of_worker ho, hl, Table.lookup_mapVals,
      hl, hrow]
    rcases hm : live.mailbox.pending with _ | p
    · have hnone : live.message = none := by simp [Live.message, hm]
      rw [hnone] at hmessages ⊢
      simp only [Option.bind_some, Option.bind_none, Option.map_some, hm, hmessages]
      exact .idle _ _
    · obtain ⟨value, message, hmessage, hj, hr⟩ := stored_of_flush t hf hl hm
        (hg o ho ⟨t, live⟩ (Table.lookup_eq_some_iff.1 hl) p hm)
      rw [hmessage] at hmessages ⊢
      simp only [hj, hm, Option.map_some, Option.bind_some, hmessages]
      exact .store hr _ _

omit [Rclrs] in
/-- A read leaves the subscription of a topic, makes one or stops it; the row goes when it does. -/
theorem reconciled_topic (ho : w.worker = some o) (answers : SubscribeAnswers) (ttl limit : ℕ) :
    ((w.reconciled answers ttl limit o).1.lookup t = o.subscriptions.lookup t
        ∧ t ∉ (w.reconciled answers ttl limit o).2.removed
          ++ (w.reconciled answers ttl limit o).2.expired)
      ∨ (o.subscriptions.lookup t = none
        ∧ (∃ live, (w.reconciled answers ttl limit o).1.lookup t = some live
          ∧ live.mailbox = .empty)
        ∧ t ∉ (w.reconciled answers ttl limit o).2.removed
          ++ (w.reconciled answers ttl limit o).2.expired)
      ∨ ((w.reconciled answers ttl limit o).1.lookup t = none
        ∧ t ∈ (w.reconciled answers ttl limit o).2.removed
          ++ (w.reconciled answers ttl limit o).2.expired) := by
  have hf := view_finds answers ttl limit ho t
  have hw := reconciled_wanted answers ttl limit w o t
  have hu := reconciled_unwanted answers ttl limit w o t
  have hexpired := reconciled_expired answers ttl limit w o t
  have hremoved := reconciled_removed answers ttl limit w o t
  rw [List.mem_append, hexpired, hremoved]
  generalize w.view answers ttl limit o t = v at hf hw hu ⊢
  generalize w.registry.verdict answers ttl limit t = d at hf
  cases hf with
  | absent =>
    rcases hl : o.subscriptions.lookup t with _ | live
    · exact .inl ⟨hu id, by simp⟩
    · exact .inr (.inr ⟨hu id, by simp⟩)
  | expired => exact .inr (.inr ⟨hu id, by simp⟩)
  | kept hl => exact .inl ⟨(hw trivial).trans hl.symm, by simp⟩
  | subscribed hl hempty => exact .inr (.inl ⟨hl, ⟨_, hw trivial, hempty⟩, by simp⟩)
  | failed hl error => exact .inl ⟨(hw trivial).trans hl.symm, by simp⟩

omit [Rclrs] in
/-- A read that is due goes on to the write-back, unless the pass has nothing to write. -/
theorem readDesired_due {now : Time} (answers : SubscribeAnswers)
    (hdue : ¬ now < s.nextSubscriptionPoll) (pass : Pass) (hpass : pass = (w.reconciled answers
      w.settings.subscriptionTtl (max w.settings.messageMaxBytes 1) o).2) :
    ∃ s', w.readDesired o s now (.ok answers) = w.resume { o with
        subscriptions := (w.reconciled answers w.settings.subscriptionTtl
          (max w.settings.messageMaxBytes 1) o).1 } s'
      ∧ s'.phase = if pass.isEmpty then .poll else .write pass := by
  subst hpass
  rw [World.readDesired, if_neg hdue]
  by_cases hempty : (w.reconciled answers w.settings.subscriptionTtl
      (max w.settings.messageMaxBytes 1) o).2.isEmpty = true
  · refine ⟨_, if_pos hempty, ?_⟩
    rw [if_pos hempty]
  · refine ⟨_, if_neg hempty, ?_⟩
    rw [if_neg hempty]
    rfl

omit [Rclrs] in
/-- The cell after a read that is due. -/
theorem cell_readDesired {now : Time} (answers : SubscribeAnswers)
    (hdue : ¬ now < s.nextSubscriptionPoll) :
    (w.readDesired o s now (.ok answers)).cell t = ⟨((w.reconciled answers
        w.settings.subscriptionTtl (max w.settings.messageMaxBytes 1) o).1.lookup t).map fun live =>
          (live.mailbox.sequence, live.mailbox.pending),
      (w.cached t).map fun m => (m.sequence, m.message),
      decide (t ∈ (w.reconciled answers w.settings.subscriptionTtl
          (max w.settings.messageMaxBytes 1) o).2.removed
        ++ (w.reconciled answers w.settings.subscriptionTtl
          (max w.settings.messageMaxBytes 1) o).2.expired)⟩ := by
  obtain ⟨s', hw, hs'⟩ := readDesired_due (o := o) answers hdue _ rfl
  rw [hw]
  generalize w.reconciled answers w.settings.subscriptionTtl (max w.settings.messageMaxBytes 1) o
    = r at hs'
  have hpass : ∀ topics, (w.resume { o with subscriptions := topics } s').pass = s'.phase.writing :=
    fun _ => rfl
  simp only [World.cell, live_resume, hpass, hs']
  by_cases hempty : r.2.isEmpty = true
  · rw [if_pos hempty]
    simp only [Pass.isEmpty, Bool.and_eq_true, List.isEmpty_iff] at hempty
    rw [hempty.1.2, hempty.2]
    simp [Phase.writing, World.cached, World.resume]
  · rw [if_neg hempty]
    simp [Phase.writing, World.cached, World.resume]

theorem readDesired_cell {answers : Except String SubscribeAnswers}
    (h : w.step (.readDesired answers) = some w') :
    CellStep t w w' (w.note t (.readDesired answers)) := by
  have hnote : w.note t (.readDesired answers) = if (w'.cell t).doomed then some .stopped
      else if (w.live t).isNone ∧ (w'.live t).isSome then some .subscribed else none := by
    simp only [World.note, h, Option.bind_some]
  rw [hnote]
  obtain ⟨o, s, now, hp, rfl⟩ := step_spec h
  have hpass : w.pass = none := pass_of_phase hp
  have ho := hp.1
  have hquiet (hk : KeepsCells w (w.readDesired o s now answers)) :
      CellStep t w (w.readDesired o s now answers)
        (if ((w.readDesired o s now answers).cell t).doomed then some .stopped
          else if (w.live t).isNone ∧ ((w.readDesired o s now answers).live t).isSome
            then some .subscribed else none) := by
    rw [hk.cell, cell_of_pass t hpass, hk.live]
    rw [if_neg (by simp), if_neg (by cases w.live t <;> simp)]
    exact hk.cell t
  by_cases hdue : now < s.nextSubscriptionPoll
  · refine hquiet ?_
    rw [World.readDesired, if_pos hdue]
    exact .of_resume ho (fun _ => rfl) _ _ rfl hpass.symm
  rcases answers with error | answers
  · refine hquiet ?_
    rw [World.readDesired, if_neg hdue]
    exact .of_resume ho (fun _ => rfl) _ _ rfl hpass.symm
  have hcell := cell_readDesired (w := w) (o := o) t answers hdue
  have hlive : (w.readDesired o s now (.ok answers)).live t = (w.reconciled answers
      w.settings.subscriptionTtl (max w.settings.messageMaxBytes 1) o).1.lookup t := by
    obtain ⟨s', hw, -⟩ := readDesired_due (o := o) answers hdue _ rfl
    rw [hw, live_resume]
  obtain ⟨hkept, hd⟩ | ⟨hnone, ⟨live, hl, hempty⟩, hd⟩ | ⟨hnone, hd⟩ :=
    reconciled_topic t ho answers w.settings.subscriptionTtl (max w.settings.messageMaxBytes 1)
  · rw [decide_eq_false hd] at hcell
    rw [if_neg (by simp [hcell]), hlive, hkept, ← live_of_worker ho,
      if_neg (by cases w.live t <;> simp)]
    rw [CellStep, hcell, hkept, cell_of_pass t hpass, live_of_worker ho]
  · rw [decide_eq_false hd, hl] at hcell
    rw [if_neg (by simp [hcell]), hlive, hl, live_of_worker ho, hnone, if_pos (by simp)]
    rw [CellStep, hcell, cell_of_pass t hpass, live_of_worker ho, hnone, Option.map_some, hempty]
    exact .subscribe _
  · rw [decide_eq_true hd, hnone] at hcell
    rw [if_pos (by simp [hcell])]
    rw [CellStep, hcell, cell_of_pass t hpass]
    exact .stop _ _

theorem writeBack_cell {pass : Pass} (hp : w.InPhase o s (.write pass)) (hx : w.extension.isSome) :
    CellStep t w (w.writeBack o s pass) (w.note t .writeBack) := by
  have hpass : w.pass = some pass := pass_of_phase hp
  have ho := hp.1
  obtain ⟨ext, hx⟩ := Option.isSome_iff_exists.1 hx
  have hcell : w.cell t = ⟨(o.subscriptions.lookup t).map fun live =>
      (live.mailbox.sequence, live.mailbox.pending),
      (ext.messages.lookup t).map fun m => (m.sequence, m.message),
      decide (t ∈ pass.removed ++ pass.expired)⟩ := by
    simp [World.cell, live_of_worker ho, World.cached, hx, hpass]
  have hcell' : (w.writeBack o s pass).cell t = ⟨(o.subscriptions.lookup t).map fun live =>
      (live.mailbox.sequence, live.mailbox.pending),
      if t ∈ pass.removed ++ pass.expired then none
        else (ext.messages.lookup t).map fun m => (m.sequence, m.message), false⟩ := by
    refine (cell_resume (w := w) t (w.extension.map (writeBack pass)) o rfl).trans ?_
    rw [hx, Option.map_some, Option.bind_some, writeBack_eq, Table.lookup_eraseAll]
    split <;> rfl
  rw [World.note, hcell]
  by_cases hd : t ∈ pass.removed ++ pass.expired
  · rw [if_pos (by simpa using hd), CellStep, hcell, hcell', if_pos hd, decide_eq_true hd]
    exact .delete _ _
  · rw [if_neg (by simpa using hd), CellStep, hcell, hcell', if_neg hd, decide_eq_false hd]

/-- A step of a session is to a topic the step of its cell that it notes. -/
theorem step_cell {e : Event} (hx : w.extension.isSome) (hg : w.InSession e)
    (h : w.step e = some w') (hw : w'.worker.isSome = true) : CellStep t w w' (w.note t e) := by
  have hs := step_spec h
  cases e with
  | advance d => exact hs ▸ (KeepsCells.mk (fun _ => rfl) (fun _ => rfl) rfl).cell t
  | reload settings => exact hs ▸ (KeepsCells.mk (fun _ => rfl) (fun _ => rfl) rfl).cell t
  | insert topic requestedType registeredAt keepaliveAt =>
    refine hs ▸ (KeepsCells.of_onExtension w fun ext => ?_).cell t
    unfold Extension.insertSubscription
    split <;> rfl
  | delete topic =>
    exact hs ▸ (KeepsCells.of_onExtension w (f := (·.deleteSubscription topic)) fun _ => rfl).cell t
  | keepalive topic keepaliveAt =>
    exact hs ▸ (KeepsCells.of_onExtension w (f := (·.updateKeepalive topic keepaliveAt))
      fun _ => rfl).cell t
  | createExtension =>
    rw [hs.1] at hx
    cases hx
  | dropExtension => exact hg.elim
  | startWorker pid => exact hg.elim
  | beginSession => exact hg.elim
  | crash | terminate | abort =>
    rw [hs] at hw
    cases hw
  | fail error =>
    obtain ⟨o, -, rfl⟩ := hs
    cases hw
  | message topic type message =>
    obtain ⟨o, s, hp, ht, rfl⟩ := hs
    exact message_cell t hp ht
  | graphChange =>
    obtain ⟨o, s, hp, rfl⟩ := hs
    exact (KeepsCells.of_resume hp.1 (fun _ => rfl) _ _ rfl (pass_of_phase hp).symm).cell t
  | flush =>
    obtain ⟨ext, hx⟩ := Option.isSome_iff_exists.1 hx
    obtain ⟨o, s, now, hp, rfl⟩ := hs
    exact flush_cell t hp hx hg hw
  | readDesired answers => exact readDesired_cell t h
  | writeBack =>
    obtain ⟨o, s, pass, hp, rfl⟩ := hs
    exact writeBack_cell t hp hx
  | spun =>
    obtain ⟨o, s, hp, rfl⟩ := hs
    exact (KeepsCells.of_resume hp.1 (fun _ => rfl) _ _ rfl (pass_of_phase hp).symm).cell t
  | tick answers =>
    obtain ⟨o, s, hp, rfl⟩ := hs
    exact ((tick_spec s answers).keepsCells hp.1 (pass_of_phase hp) hw).cell t
  | observe graph =>
    obtain ⟨ext, hx⟩ := Option.isSome_iff_exists.1 hx
    obtain ⟨o, s, hp, rfl⟩ := hs
    exact (observe_keepsCells hp.1 (pass_of_phase hp) hx graph).cell t
  | startPoll answers =>
    obtain ⟨o, s, nodes, hp, rfl⟩ := hs
    exact ((startPoll_spec s nodes answers).keepsCells hp.1 (pass_of_phase hp) hw).cell t
  | decide =>
    obtain ⟨o, s, hp, rfl⟩ := hs
    refine (KeepsCells.of_resume hp.1 (fun _ => rfl) _ _ rfl ?_).cell t
    rw [pass_of_phase hp]
    simp only []
    split <;> rfl

end Steps

/-! ## Runs -/

section Runs

variable [Rclrs] {w w₀ w₁ w' : World} {es : List Event} {e : Event}

theorem step_installed (hx : w.extension.isSome) (hg : w.InSession e) (h : w.step e = some w') :
    w'.extension.isSome = true := by
  have hmap {f : Extension → Oid × List Name × List Name}
      (heq : w'.extension.map f = w.extension.map f) : w'.extension.isSome = true := by
    rw [← Option.isSome_map (f := f), heq, Option.isSome_map, hx]
  have hs := step_spec h
  cases e with
  | createExtension =>
    rw [hs.1] at hx
    cases hx
  | dropExtension => exact hg.elim
  | startWorker pid => exact hg.elim
  | fail error =>
    obtain ⟨o, -, rfl⟩ := hs
    exact hmap (persistSnapshot_error_graph _ _ _ _ _ _)
  | tick answers =>
    obtain ⟨o, s, hp, rfl⟩ := hs
    exact hmap ((tick_spec s answers).keepsGraph hp.1).tables
  | startPoll answers =>
    obtain ⟨o, s, nodes, hp, rfl⟩ := hs
    exact hmap ((startPoll_spec s nodes answers).keepsGraph hp.1).tables
  | observe graph =>
    obtain ⟨ext, hx⟩ := Option.isSome_iff_exists.1 hx
    obtain ⟨o, s, -, rfl⟩ := hs
    have hsaved (snapshot : Except String GraphSnapshot) : ((persistSnapshot (some ext) o.pid w.now
        snapshot o.previous o.extensionOid).1).isSome = true := by
      obtain ⟨nodes, topics, status, heq⟩ :=
        persistSnapshot_frame ext o.pid w.now snapshot o.previous o.extensionOid
      rw [heq]
      rfl
    by_cases hdue : w.Due s
    · rcases graph with error | graph
      · rw [World.observe_of_error hdue hx]
        exact hsaved _
      · obtain ⟨phase, -, hobs⟩ := World.observe_of_ok (o := o) hdue hx graph
        rw [hobs]
        exact hsaved _
    · rw [World.observe_of_not_due hdue, World.resume, hx]
      rfl
  | _ => exact hmap (Frame.of_spec hs trivial).keepsGraph.tables

/-- No worker starts within a session. -/
theorem worker_of_step (hg : w.InSession e) (h : w.step e = some w')
    (hw : w'.worker.isSome = true) : w.worker.isSome = true := by
  by_contra hno
  have ho : w.worker = none := by simpa using hno
  unfold World.step at h
  cases e with
  | startWorker pid => exact hg.elim
  | createExtension =>
    simp only [] at h
    split at h
    · cases h
    · cases h
      exact hno hw
  | advance _ | reload _ | insert _ _ _ _ | delete _ | keepalive _ _ | dropExtension =>
    cases h
    exact hno hw
  | _ =>
    rw [ho] at h
    cases h

/-- What there is of a topic after the events so far: its chronicle, and an empty slot where the
last that befell it was a flush. -/
structure Recorded (t : String) (notes : List (Note String String Value)) (w : World) : Prop where
  kept : Kept (Produces t) storedAs (chronicle notes) (w.cell t)
  drained : ∀ stored, notes.getLast? = some (.flushed stored) →
    ∃ n, (w.cell t).live = some (n, none)

theorem Recorded.step {t : String} {notes : List (Note String String Value)}
    (h : Recorded t notes w) {note : Option (Note String String Value)}
    (hs : CellStep t w w' note) : Recorded t (notes ++ note.toList) w' := by
  rcases note with _ | note
  · rw [CellStep] at hs
    rw [Option.toList_none, List.append_nil]
    exact ⟨hs ▸ h.kept, fun stored hl => hs ▸ h.drained stored hl⟩
  · rw [Option.toList_some]
    refine ⟨?_, fun stored hl => ?_⟩
    · rw [chronicle_append]
      exact h.kept.step hs
    · rw [List.getLast?_append, List.getLast?_singleton] at hl
      cases hl
      exact hs.drained

theorem run_recorded (h₀ : w.step .beginSession = some w₀) (hx : w.extension.isSome = true)
    (hg : Along World.step World.InSession w₀ es) (hr : run World.step w₀ es = some w₁)
    (hw : w₁.worker.isSome = true) (t : String) :
    Recorded t (w₀.notes t es) w₁ := by
  have hinv : w₁.extension.isSome = true
      ∧ (w₁.worker.isSome = true → Recorded t (w₀.notes t es) w₁) := by
    refine run_history (I := fun es w => w.extension.isSome = true
      ∧ (w.worker.isSome = true → Recorded t (w₀.notes t es) w)) ?_ ?_ hg hr
    · rintro es w e w' hr ⟨hx, h⟩ hg hs
      refine ⟨step_installed hx hg hs, fun hw => ?_⟩
      rw [World.notes, history_append hr, history_singleton]
      exact (h (worker_of_step hg hs hw)).step (step_cell t hx hg hs hw)
    · obtain ⟨o, reinitAfter, -, rfl⟩ := step_spec h₀
      refine ⟨hx, fun _ => ⟨?_, fun stored hl => by cases hl⟩⟩
      rw [cell_of_pass t rfl]
      exact Kept.start _
  exact hinv.2 hw

/-- In every run of a session, whatever the order of callbacks on its topics, flushes and passes:
after a flush the row of a topic is the newest message that its live subscription could encode, with
its sequence in the column and in the stored JSON; the writes of a row since it was last deleted
carry increasing sequences; no message is written twice; and what is written to a topic is what its
own callback produced under that sequence. -/
theorem newest_wins (h₀ : w.step .beginSession = some w₀) (hx : w.extension.isSome = true)
    (hg : Along World.step World.InSession w₀ es) (hr : run World.step w₀ es = some w₁)
    (hw : w₁.worker.isSome = true) (t : String) :
    (∀ stored n text, (w₀.notes t es).getLast? = some (.flushed stored) →
        newest (chronicle (w₀.notes t es)).heard = some (n, text) →
        ∃ row, w₁.cached t = some row ∧ row.sequence = n ∧ storedAs text = some row.message
          ∧ Tells t row.sequence row.message)
      ∧ (chronicle (w₀.notes t es)).stored.Pairwise (fun m m' => m.1 < m'.1)
      ∧ (∀ m ∈ (chronicle (w₀.notes t es)).stored.getLast?,
        (w₁.cached t).map (fun row => (row.sequence, row.message)) = some m)
      ∧ (chronicle (w₀.notes t es)).written.Nodup
      ∧ ∀ m ∈ (chronicle (w₀.notes t es)).stored, ∃ i text, m.1 = i + 1
        ∧ (chronicle (w₀.notes t es)).heard[i]? = some (.ok text) ∧ Produces t m.1 text
        ∧ storedAs text = some m.2 ∧ Tells t m.1 m.2 := by
  obtain ⟨hk, hdrained⟩ := run_recorded h₀ hx hg hr hw t
  refine ⟨fun stored n text hl hnewest => ?_, hk.sorted, hk.row, hk.nodup, fun m hm => ?_⟩
  · obtain ⟨k, hlive⟩ := hdrained stored hl
    obtain ⟨message, hm, hrow⟩ := hk.row_of_drained hlive hnewest
    obtain ⟨row, hc, heq⟩ := Option.map_eq_some_iff.1 hrow
    cases heq
    obtain ⟨i, hi, htext⟩ := getElem?_of_newest hnewest
    have hp := hk.produced i text htext
    rw [← hi] at hp
    exact ⟨row, hc, rfl, hm, tells_of_stored hp hm⟩
  · obtain ⟨i, text, hi, htext, hread⟩ := hk.told m hm
    have hp := hk.produced i text htext
    rw [← hi] at hp
    exact ⟨i, text, hi, htext, hp, hread, tells_of_stored hp hread⟩

end Runs

section Witness

open Reference

instance (w : World) : ∀ e : Event, Decidable (w.InSession e)
  | .beginSession | .startWorker _ | .dropExtension => .isFalse id
  | .flush => inferInstanceAs (Decidable (∀ o ∈ w.worker, _))
  | .advance _ | .reload _ | .insert _ _ _ _ | .delete _ | .keepalive _ _ | .createExtension
  | .crash | .abort | .fail _ | .terminate | .message _ _ _ | .graphChange | .spun | .readDesired _
  | .writeBack | .tick _ | .observe _ | .startPoll _ | .decide => .isTrue trivial

/-- A worker that finds a registration. -/
def registersChat : List Event :=
  [.createExtension, .insert "/chat" (some "std_msgs/msg/String") 0 none, .startWorker 1]

/-- It subscribes, hears two messages and writes the second. -/
def hearsChat : List Event :=
  [.spun, .flush, .readDesired (.ok ⟨fun _ => .ok [], fun _ => .ok (), fun _ _ => .ok ()⟩),
    .writeBack, .tick .idle, .observe (.ok talker), .message "/chat" stringType ("hi", ()),
    .message "/chat" stringType ("hello", ()), .spun, .flush]

theorem newest_wins_chat : ∃ w w₀ w₁ row, run World.step (.initial .default) registersChat = some w
    ∧ w.step .beginSession = some w₀ ∧ run World.step w₀ hearsChat = some w₁
    ∧ w₁.cached "/chat" = some row ∧ row.sequence = 2 ∧ Tells "/chat" row.sequence row.message := by
  have h : ((run World.step (.initial .default) registersChat).any fun w =>
      w.extension.isSome && (w.step .beginSession).any fun w₀ =>
        decide (Along World.step World.InSession w₀ hearsChat)
          && (((w₀.notes "/chat" hearsChat).getLast?.any fun note =>
              match note with
              | .flushed _ => true
              | _ => false)
            && ((newest (chronicle (w₀.notes "/chat" hearsChat)).heard).any fun p =>
              decide (p.1 = 2)))
          && (run World.step w₀ hearsChat).any fun w₁ => w₁.worker.isSome) = true := by
    decide +kernel
  simp only [Option.any_eq_true, Bool.and_eq_true, decide_eq_true_eq] at h
  obtain ⟨w, hw, hx, w₀, h₀, ⟨hg, ⟨note, hl, hn⟩, ⟨n, text⟩, hnewest, rfl⟩, w₁, hr, hworker⟩ := h
  split at hn
  · obtain ⟨row, hc, hs, -, ht⟩ :=
      (newest_wins h₀ hx hg hr hworker "/chat").1 _ _ _ hl hnewest
    exact ⟨w, w₀, w₁, row, hw, h₀, hr, hc, hs, ht⟩
  · cases hn

end Witness

end PgRos2
