import PgRos2.Proofs.Reconcile
import PgRos2.Proofs.Worker

/-!
# What reconcile makes of each topic

`reconcile` settles a topic by its row and its live subscription alone (`reconcileWhole_topic`): no
other topic has a part in it, and what it does not settle it leaves as it was.
-/

namespace PgRos2

open Lib

/-! ## One result a topic -/

@[simp]
theorem Subscription.settle_settle (result : Except String String) (row : Subscription) :
    (row.settle result).settle result = row.settle result := by
  cases result <;> rfl

section Fold

variable {t : String} {metadata : List (String × Except String String)}

theorem foldl_settle_of_none : ∀ {metadata : List (String × Except String String)},
    (∀ result, (t, result) ∉ metadata) → ∀ row : Subscription,
      metadata.foldl (fun row m => if t = m.1 then row.settle m.2 else row) row = row
  | [], _, _ => rfl
  | m :: metadata, h, row => by
    have ht : t ≠ m.1 := by
      rintro rfl
      exact h m.2 List.mem_cons_self
    rw [List.foldl_cons, if_neg ht]
    exact foldl_settle_of_none (fun result hm => h result (List.mem_cons_of_mem _ hm)) row

theorem foldl_settle_of_settled {result : Except String String} :
    ∀ {metadata : List (String × Except String String)},
      (∀ r, (t, r) ∈ metadata → r = result) → ∀ row : Subscription,
        metadata.foldl (fun row m => if t = m.1 then row.settle m.2 else row) (row.settle result)
          = row.settle result
  | [], _, _ => rfl
  | m :: metadata, h, row => by
    have hrest := @foldl_settle_of_settled result metadata
      (fun r hm => h r (List.mem_cons_of_mem _ hm)) row
    rw [List.foldl_cons]
    split
    · rename_i ht
      subst ht
      rw [h m.2 List.mem_cons_self, Subscription.settle_settle]
      exact hrest
    · exact hrest

/-- The only result of a topic settles its row, however often it is written. -/
theorem foldl_settle_of_unique {result : Except String String} :
    ∀ {metadata : List (String × Except String String)}, (t, result) ∈ metadata →
      (∀ r, (t, r) ∈ metadata → r = result) → ∀ row : Subscription,
        metadata.foldl (fun row m => if t = m.1 then row.settle m.2 else row) row
          = row.settle result
  | m :: metadata, hm, h, row => by
    have htail : ∀ r, (t, r) ∈ metadata → r = result := fun r hm =>
      h r (List.mem_cons_of_mem _ hm)
    rw [List.foldl_cons]
    split
    · rename_i ht
      subst ht
      rw [h m.2 List.mem_cons_self]
      exact foldl_settle_of_settled htail row
    · rename_i ht
      refine foldl_settle_of_unique ?_ htail row
      rcases List.mem_cons.mp hm with rfl | hm
      · exact absurd rfl ht
      · exact hm

end Fold

/-! ## One topic -/

/-- What there is of a topic: its live subscription, its row and its cached message. -/
structure Topic where
  live : Option Live
  row : Option Subscription
  message : Option Message

/-- The topic `t`, in a live map and the tables. -/
def topicOf (t : String) (topics : LiveMap) (ext : Extension) : Topic :=
  ⟨topics.lookup t, ext.subscriptions.lookup t, ext.messages.lookup t⟩

/-- A topic after `reconcile`, by itself. -/
def Topic.reconciled (answers : SubscribeAnswers) (ttl limit : ℕ) (now : Time) (t : String)
    (topic : Topic) : Topic :=
  match topic.row with
  | none => ⟨none, none, if topic.live.isSome then none else topic.message⟩
  | some row =>
    if (row.desired now t).isExpired ttl then ⟨none, none, none⟩
    else
      match topic.live with
      | some _ => topic
      | none =>
        match subscribe answers t row.requestedType limit with
        | .ok live => ⟨some live, some (row.settle (.ok live.messageType)), topic.message⟩
        | .error error => ⟨none, some (row.settle (.error error)), topic.message⟩

theorem writeBack_of_isEmpty {pass : Pass} (h : pass.isEmpty = true) (ext : Extension) :
    writeBack pass ext = ext := by
  simp only [Pass.isEmpty, Bool.and_eq_true, List.isEmpty_iff] at h
  obtain ⟨⟨hm, he⟩, hr⟩ := h
  rw [writeBack, hm, he, hr]
  rfl

/-- The write-back, one topic at a time. -/
theorem topicOf_writeBack (t : String) (topics : LiveMap) (pass : Pass) (ext : Extension) :
    topicOf t topics (writeBack pass ext) = ⟨topics.lookup t,
      if t ∈ pass.expired then none else (ext.subscriptions.lookup t).map fun row =>
        pass.metadata.foldl (fun row m => if t = m.1 then row.settle m.2 else row) row,
      if t ∈ pass.removed ∨ t ∈ pass.expired then none else ext.messages.lookup t⟩ := by
  simp only [topicOf, writeBack_eq, Table.lookup_eraseAll, lookup_foldl_update, List.mem_append]

section

variable (answers : SubscribeAnswers) (ttl limit : ℕ) (now : Time) (ext : Extension)
  (topics : LiveMap)

theorem reconcileWhole_ok :
    reconcileWhole (.ok answers) ttl limit now (some ext) topics
      = ((reconcile answers ttl limit (readDesired (some ext) now) topics).1,
        some (writeBack
          (reconcile answers ttl limit (readDesired (some ext) now) topics).2 ext)) := by
  simp only [reconcileWhole, Option.map_some]
  split
  · rename_i h
    rw [writeBack_of_isEmpty h]
  · rfl

/-- `reconcile` settles each topic by itself. -/
theorem topicOf_reconcile (t : String) :
    topicOf t (reconcile answers ttl limit (readDesired (some ext) now) topics).1
        (writeBack (reconcile answers ttl limit (readDesired (some ext) now) topics).2 ext)
      = (topicOf t topics ext).reconciled answers ttl limit now t := by
  -- the lemmas on the loop speak of a worker with its database
  let w : World := ⟨now, .default, 0, some ext, none⟩
  let o : Observer := { Observer.start 0 .default with subscriptions := topics }
  have hexpired := reconciled_expired answers ttl limit w o t
  have hmeta := fun result => reconciled_metadata answers ttl limit w o t result
  have hremoved := reconciled_removed answers ttl limit w o t
  have hwanted := reconciled_wanted answers ttl limit w o t
  have hunwanted := reconciled_unwanted answers ttl limit w o t
  have hview : w.view answers ttl limit o t
      = (TopicView.mk (topics.lookup t) False False ∅).enterAll answers ttl limit
        ((ext.subscriptions.lookup t).map (Subscription.desired now t)) := rfl
  change topicOf t (w.reconciled answers ttl limit o).1
    (writeBack (w.reconciled answers ttl limit o).2 ext) = _
  rw [topicOf_writeBack]
  generalize w.reconciled answers ttl limit o = result at *
  rw [hview] at hexpired hmeta hremoved hwanted hunwanted
  rcases hrow : ext.subscriptions.lookup t with _ | row
  · -- the row is not there
    simp only [hrow, Option.map_none, TopicView.enterAll] at hexpired hremoved hunwanted
    rw [if_neg (by simp [hexpired]), hunwanted (by simp)]
    by_cases hl : (topics.lookup t).isSome
    · rw [if_pos (.inl (hremoved.mpr ⟨hl, by simp⟩))]
      simp [Topic.reconciled, topicOf, hrow, hl]
    · rw [if_neg (by simp [hexpired, hremoved, hl])]
      simp [Topic.reconciled, topicOf, hrow, hl]
  simp only [hrow, Option.map_some, TopicView.enterAll, TopicView.enter]
    at hexpired hmeta hremoved hwanted hunwanted
  by_cases hexp : (row.desired now t).isExpired ttl = true
  · simp only [hexp, if_true] at hexpired hremoved hunwanted
    rw [if_pos (by simp [hexpired]), if_pos (.inr (by simp [hexpired])), hunwanted (by simp)]
    simp [Topic.reconciled, topicOf, hrow, hexp]
  simp only [hexp, if_false, Bool.false_eq_true] at hexpired hmeta hremoved hwanted
  rcases hlive : topics.lookup t with _ | live
  · have hd : (row.desired now t).topic = t
      ∧ (row.desired now t).requestedType = row.requestedType := ⟨rfl, rfl⟩
    simp only [hlive, hd.1, hd.2] at hexpired hmeta hremoved hwanted
    rcases hs : subscribe answers t row.requestedType limit with error | live
    · simp only [hs] at hexpired hmeta hremoved hwanted
      have hf := foldl_settle_of_unique ((hmeta (.error error)).mpr (by simp))
        (fun r hr => by simpa using (hmeta r).mp hr) row
      rw [if_neg (by simp [hexpired]), if_neg (by simp [hexpired, hremoved]), hwanted trivial]
      simp [Topic.reconciled, topicOf, hrow, hexp, hlive, hs, hf]
    · simp only [hs] at hexpired hmeta hremoved hwanted
      have hf := foldl_settle_of_unique ((hmeta (.ok live.messageType)).mpr (by simp))
        (fun r hr => by simpa using (hmeta r).mp hr) row
      rw [if_neg (by simp [hexpired]), if_neg (by simp [hexpired, hremoved]), hwanted trivial]
      simp [Topic.reconciled, topicOf, hrow, hexp, hlive, hs, hf]
  · simp only [hlive] at hexpired hmeta hremoved hwanted
    have hf := foldl_settle_of_none (fun r hr => by simpa using (hmeta r).mp hr) row
    rw [if_neg (by simp [hexpired]), if_neg (by simp [hexpired, hremoved]), hwanted trivial]
    simp [Topic.reconciled, topicOf, hrow, hexp, hlive, hf]

/-- `reconcile` makes the live map match the table, each topic by itself. A failed read changes
nothing. Otherwise the topics that are live are those with a row that has not expired which were
live or can be subscribed to, one that was live and stays wanted keeps its very subscription and
mailbox, and the row tells what became of it; an expired row goes with its cached message, a topic
without a row stops and loses its cached message, and everything else is as it was. -/
theorem reconcile_settles :
    (∀ error, reconcileWhole (.error error) ttl limit now (some ext) topics = (topics, some ext))
    ∧ ∃ topics' ext', reconcileWhole (.ok answers) ttl limit now (some ext) topics
        = (topics', some ext')
      ∧ ext' = { ext with subscriptions := ext'.subscriptions, messages := ext'.messages }
      ∧ ∀ t,
        (t ∈ topics' ↔ ∃ row, ext.subscriptions.lookup t = some row
          ∧ ¬ row.registration.IsExpired ttl now
          ∧ (t ∈ topics ∨ ∃ live, subscribe answers t row.requestedType limit = .ok live))
        ∧ (∀ row, ext.subscriptions.lookup t = some row → ¬ row.registration.IsExpired ttl now →
          ext'.messages.lookup t = ext.messages.lookup t
          ∧ (∀ live, topics.lookup t = some live →
            topics'.lookup t = some live ∧ ext'.subscriptions.lookup t = some row)
          ∧ (t ∉ topics →
            (∀ live, subscribe answers t row.requestedType limit = .ok live →
              topics'.lookup t = some live ∧ ext'.subscriptions.lookup t
                = some { row with messageType := some live.messageType, lastError := none })
            ∧ ∀ error, subscribe answers t row.requestedType limit = .error error →
              ext'.subscriptions.lookup t = some { row with lastError := some error }))
        ∧ (∀ row, ext.subscriptions.lookup t = some row → row.registration.IsExpired ttl now →
          ext'.subscriptions.lookup t = none ∧ ext'.messages.lookup t = none)
        ∧ (ext.subscriptions.lookup t = none → ext'.subscriptions.lookup t = none
          ∧ (t ∈ topics → ext'.messages.lookup t = none)
          ∧ (t ∉ topics → ext'.messages.lookup t = ext.messages.lookup t)) := by
  refine ⟨fun error => rfl, _, _, reconcileWhole_ok answers ttl limit now ext topics, ?_,
    fun t => ?_⟩
  · rw [writeBack_eq]
  have ht := topicOf_reconcile answers ttl limit now ext topics t
  generalize (reconcile answers ttl limit (readDesired (some ext) now) topics).1 = topics' at *
  generalize writeBack (reconcile answers ttl limit (readDesired (some ext) now) topics).2 ext
    = ext' at *
  have hexp : ∀ row : Subscription, row.registration.IsExpired ttl now
      ↔ (row.desired now t).isExpired ttl = true :=
    fun row => (isExpired_desired ttl now t row).symm
  unfold Topic.reconciled at ht
  simp only [← AList.lookup_isSome, hexp]
  rcases hrow : ext.subscriptions.lookup t with _ | row
  · simp only [topicOf, hrow, Topic.mk.injEq] at ht
    obtain ⟨hl, hr, hm⟩ := ht
    rcases hlive : topics.lookup t with _ | live <;> simp [hl, hr, hm, hlive]
  by_cases he : (row.desired now t).isExpired ttl = true
  · simp only [topicOf, hrow, he, if_true, Topic.mk.injEq] at ht
    obtain ⟨hl, hr, hm⟩ := ht
    simp [hl, hr, hm, he]
  rcases hlive : topics.lookup t with _ | live
  · rcases hs : subscribe answers t row.requestedType limit with error | live <;>
      simp only [topicOf, hrow, hlive, hs, he, if_false, Bool.false_eq_true,
        Topic.mk.injEq] at ht <;>
      obtain ⟨hl, hr, hm⟩ := ht
    · simp [hl, hr, hm, he, hs, Subscription.settle]
    · simp [hl, hr, hm, he, hs, Subscription.settle]
  · simp only [topicOf, hrow, hlive, he, if_false, Bool.false_eq_true, Topic.mk.injEq] at ht
    obtain ⟨hl, hr, hm⟩ := ht
    simp [hl, hr, hm, he]

end

/-- The worker runs the whole of `reconcile` when no other step comes between its two. -/
theorem World.run_reconcile [Rclrs] {w : World} {o : Observer} {s : Session} {now : Time}
    (h : w.InPhase o s (.read now)) (hdue : ¬ now < s.nextSubscriptionPoll)
    (answers : Except String SubscribeAnswers) :
    ∃ es w', (es = [.readDesired answers] ∨ es = [.readDesired answers, .writeBack])
      ∧ run World.step w es = some w'
      ∧ (w'.worker.map Observer.subscriptions, w'.extension)
        = Prod.map some id (reconcileWhole answers w.settings.subscriptionTtl
          (max w.settings.messageMaxBytes 1) w.now w.extension o.subscriptions) := by
  obtain ⟨ho, hs, hp⟩ := h
  have hread : w.step (.readDesired answers) = some (w.readDesired o s now answers) := by
    simp [World.step, World.workerStep, World.sessionStep, ho, hs, hp]
  rcases answers with error | answers
  · refine ⟨_, _, .inl rfl, run_singleton.mpr hread, ?_⟩
    simp [World.readDesired, hdue, World.resume, reconcileWhole]
  rcases hr : reconcile answers w.settings.subscriptionTtl (max w.settings.messageMaxBytes 1)
    (PgRos2.readDesired w.extension w.now) o.subscriptions with ⟨topics, pass⟩
  by_cases he : pass.isEmpty = true
  · refine ⟨_, _, .inl rfl, run_singleton.mpr hread, ?_⟩
    simp [World.readDesired, hdue, World.resume, reconcileWhole, hr, he]
  · have hwrite : (w.readDesired o s now (.ok answers)).step .writeBack
        = some ((w.readDesired o s now (.ok answers)).writeBack { o with subscriptions := topics }
          { s with phase := .write pass } pass) := by
      simp [World.readDesired, hdue, World.resume, hr, he, World.step, World.workerStep,
        World.sessionStep, World.writeBack]
    refine ⟨_, _, .inr rfl,
      run_cons_eq_some.mpr ⟨_, hread, run_singleton.mpr hwrite⟩, ?_⟩
    simp [World.readDesired, hdue, World.resume, reconcileWhole, hr, he, World.writeBack,
      World.onExtension]

end PgRos2
