import PgRos2.Proofs.Reconcile
import PgRos2.Proofs.Worker

/-!
# The system is a registry

A step of the system is the step of its registry that `World.act` says (`step_registry`).
-/

namespace PgRos2

open Lib

variable {w w' : World} {o : Observer} {s : Session}

/-- States with the same rows, live subscriptions and pass have the same registry. -/
theorem registry_congr (hnow : w'.now = w.now) (hrow : ∀ t, w'.row t = w.row t)
    (hcached : ∀ t, w'.cached t = w.cached t) (hlive : ∀ t, w'.live t = w.live t)
    (hpass : w'.pass = w.pass) : w'.registry = w.registry := by
  simp [World.registry, World.pending, hnow, hrow, hcached, hlive, hpass]

theorem pass_resume (w : World) (o : Observer) (s : Session) :
    (w.resume o s).pass = s.phase.writing := rfl

theorem live_resume (w : World) (o : Observer) (s : Session) (t : String) :
    (w.resume o s).live t = o.subscriptions.lookup t := rfl

theorem live_of_worker (ho : w.worker = some o) (t : String) :
    w.live t = o.subscriptions.lookup t := by
  simp [World.live, ho]

theorem pass_of_session (ho : w.worker = some o) (hs : o.session = some s) :
    w.pass = s.phase.writing := by
  simp [World.pass, ho, hs]

theorem pass_of_phase {p : Phase} (h : w.InPhase o s p) : w.pass = p.writing := by
  obtain ⟨ho, hs, rfl⟩ := h
  exact pass_of_session ho hs

/-- Tables other than those of the subscriptions and their messages are no part of it. -/
theorem registry_lose (ext : Option Extension)
    (hrow : ∀ t, (ext.bind fun ext => ext.subscriptions.lookup t) = w.row t)
    (hcached : ∀ t, (ext.bind fun ext => ext.messages.lookup t) = w.cached t) :
    ({ w with extension := ext, worker := none } : World).registry
      = { w.registry with live := fun _ => none, pending := ∅, pass := none } := by
  simp [World.registry, World.row, World.cached, World.pending, World.live, World.pass, hrow,
    hcached]

/-- The worker goes on with the same live subscriptions. -/
theorem registry_resume (ho : w.worker = some o) (ext : Option Extension)
    (hrow : ∀ t, (ext.bind fun ext => ext.subscriptions.lookup t) = w.row t)
    (hcached : ∀ t, (ext.bind fun ext => ext.messages.lookup t) = w.cached t) (o' : Observer)
    (s' : Session) (hsub : o'.subscriptions = o.subscriptions)
    (hpass : s'.phase.writing = w.pass) :
    ({ w with extension := ext }.resume o' s').registry = w.registry := by
  refine registry_congr rfl hrow hcached (fun t => ?_) hpass
  rw [live_resume, hsub, live_of_worker ho]

theorem quiet_of_eq (h : w'.registry = w.registry) : w.registry.Step .quiet w'.registry :=
  ⟨w.now, le_rfl, h⟩

/-! ## Transactions of other tables -/

theorem persistSnapshot_rows (ext : Option Extension) (pid : ℕ) (now : Time)
    (snapshot : Except String GraphSnapshot) (previous : Option GraphSnapshot)
    (oid : Option Oid) (t : String) :
    ((persistSnapshot ext pid now snapshot previous oid).1.bind fun ext =>
        ext.subscriptions.lookup t) = (ext.bind fun ext => ext.subscriptions.lookup t)
      ∧ ((persistSnapshot ext pid now snapshot previous oid).1.bind fun ext =>
        ext.messages.lookup t) = ext.bind fun ext => ext.messages.lookup t := by
  rcases ext with _ | ext
  · exact ⟨rfl, rfl⟩
  · obtain ⟨nodes, topics, status, h⟩ := persistSnapshot_frame ext pid now snapshot previous oid
    rw [h]
    exact ⟨rfl, rfl⟩

/-- What a step that may abort does: it leaves the registry, or ends the worker. -/
def LeavesOrLoses (w w' : World) : Prop :=
  (w'.worker ≠ none ∧ w'.registry = w.registry)
    ∨ (w'.worker = none ∧ w'.registry
      = { w.registry with live := fun _ => none, pending := ∅, pass := none })

theorem LeavesOrLoses.step (h : LeavesOrLoses w w') :
    w.registry.Step (if w'.worker = none then .lose else .quiet) w'.registry := by
  rcases h with ⟨hw, h⟩ | ⟨hw, h⟩
  · rw [if_neg hw]
    exact quiet_of_eq h
  · rw [if_pos hw]
    exact h

theorem PollStep.leaves (ho : w.worker = some o) (hp : w.pass = none) (h : PollStep w o s w') :
    LeavesOrLoses w w' := by
  obtain rfl | ⟨f, previousParameters, parameterExtension, phase, _, _, hf, hs, rfl⟩ := h
  · exact .inr ⟨rfl, registry_lose w.extension (fun _ => rfl) fun _ => rfl⟩
  · have hpass : phase.writing = w.pass := by
      rw [hp]
      rcases hs with hs | hs <;> rw [hs] <;> rfl
    have hrows (ext : Extension) :
        (f ext).subscriptions = ext.subscriptions ∧ (f ext).messages = ext.messages := by
      obtain ⟨parameters, parameterStatus, heq⟩ := hf ext
      rw [heq]
      exact ⟨rfl, rfl⟩
    refine .inl ⟨by simp [World.resume],
      registry_resume ho (w.extension.map f) (fun t => ?_) (fun t => ?_) _ _ rfl hpass⟩
    · simp [World.row, Option.bind_map, (hrows _).1]
    · simp [World.cached, Option.bind_map, (hrows _).2]

theorem observe_leaves (ho : w.worker = some o) (hp : w.pass = none)
    (graph : Except String RosGraph) : (w.observe o s graph).registry = w.registry := by
  by_cases hdue : w.Due s
  · rcases hx : w.extension with _ | ext
    · rw [World.observe_of_absent hdue hx]
      exact registry_resume ho w.extension (fun _ => rfl) (fun _ => rfl) _ _ rfl hp.symm
    · have hrows (snapshot : Except String GraphSnapshot) (t : String) :=
        persistSnapshot_rows (some ext) o.pid w.now snapshot o.previous o.extensionOid t
      rw [← hx] at hrows
      rcases graph with error | graph
      · rw [World.observe_of_error hdue hx, ← hx]
        exact registry_resume ho _ (fun t => (hrows _ t).1) (fun t => (hrows _ t).2) _ _ rfl
          hp.symm
      · obtain ⟨phase, hphase, hobs⟩ := World.observe_of_ok (o := o) hdue hx graph
        rw [hobs, ← hx]
        refine registry_resume ho _ (fun t => (hrows _ t).1) (fun t => (hrows _ t).2) _ _ rfl ?_
        rw [hp]
        rcases hphase with rfl | rfl <;> rfl
  · rw [World.observe_of_not_due hdue]
    exact registry_resume ho w.extension (fun _ => rfl) (fun _ => rfl) _ _ rfl hp.symm

/-! ## Statements of clients -/

theorem row_onExtension (w : World) (f : Extension → Extension) (t : String) :
    (w.onExtension f).row t = w.extension.bind fun ext => (f ext).subscriptions.lookup t := by
  simp [World.row, World.onExtension, Option.bind_map]

/-- A statement that changes the row of one topic. -/
theorem registry_onExtension {f : Extension → Extension} {topic : String}
    {row : Option Registration}
    (hmessages : ∀ ext, (f ext).messages = ext.messages)
    (hother : ∀ ext t, t ≠ topic → (f ext).subscriptions.lookup t = ext.subscriptions.lookup t)
    (hrow : ((w.onExtension f).row topic).map Subscription.registration = row) :
    (w.onExtension f).registry
      = { w.registry with rows := Function.update w.registry.rows topic row } := by
  have hcached (t : String) : (w.onExtension f).cached t = w.cached t := by
    simp [World.cached, World.onExtension, Option.bind_map, hmessages]
  have hrows : (fun t => ((w.onExtension f).row t).map Subscription.registration)
      = Function.update w.registry.rows topic row := by
    funext t
    by_cases ht : t = topic
    · subst ht
      rw [hrow, Function.update_self]
    · rw [Function.update_of_ne ht, row_onExtension]
      simp [hother _ t ht, World.registry, World.row]
  simp only [World.registry, hcached, hrows]
  rfl

theorem insert_registry (topic : String) (requestedType : Option String) (registeredAt : Time)
    (keepaliveAt : Option Time) (hx : w.extension.isSome) (hrow : w.row topic = none) :
    w.registry.Step (.insert topic requestedType keepaliveAt)
      (w.onExtension fun ext =>
        ext.insertSubscription topic requestedType registeredAt keepaliveAt).registry := by
  obtain ⟨ext, hx⟩ := Option.isSome_iff_exists.mp hx
  have hmem : topic ∉ ext.subscriptions := by
    rw [← AList.lookup_eq_none]
    simpa [World.row, hx] using hrow
  refine ⟨by simp [World.registry, hrow], registry_onExtension (fun ext => ?_) (fun ext t ht => ?_)
    ?_⟩
  · simp only [Extension.insertSubscription]
    split <;> rfl
  · simp only [Extension.insertSubscription]
    split
    · rfl
    · exact AList.lookup_insert_ne ht
  · rw [row_onExtension, hx]
    simp [Extension.insertSubscription, hmem, Subscription.registration]

theorem insert_quiet (topic : String) (requestedType : Option String) (registeredAt : Time)
    (keepaliveAt : Option Time) (h : ¬ (w.extension.isSome ∧ w.row topic = none)) :
    (w.onExtension fun ext =>
      ext.insertSubscription topic requestedType registeredAt keepaliveAt) = w := by
  rcases hx : w.extension with _ | ext
  · rcases w
    cases hx
    rfl
  · have hmem : topic ∈ ext.subscriptions := by
      by_contra hmem
      exact h ⟨by simp [hx], by simpa [World.row, hx] using AList.lookup_eq_none.mpr hmem⟩
    have hext : w.onExtension (fun ext =>
        ext.insertSubscription topic requestedType registeredAt keepaliveAt)
        = { w with extension := some ext } := by
      simp [World.onExtension, hx, Extension.insertSubscription, hmem]
    rw [hext, ← hx]

theorem delete_registry (topic : String) :
    w.registry.Step (.delete topic)
      (w.onExtension fun ext => ext.deleteSubscription topic).registry := by
  refine registry_onExtension (fun _ => rfl) (fun ext t ht => ?_) ?_
  · exact AList.lookup_erase_ne ht
  · rw [row_onExtension]
    rcases w.extension with _ | ext
    · rfl
    · simp [Extension.deleteSubscription]

theorem keepalive_registry (topic : String) (keepaliveAt : Option Time) :
    w.registry.Step (.keepalive topic keepaliveAt)
      (w.onExtension fun ext => ext.updateKeepalive topic keepaliveAt).registry := by
  refine registry_onExtension (fun _ => rfl) (fun ext t ht => ?_) ?_
  · simp [Extension.updateKeepalive, ht]
  · rw [row_onExtension]
    rcases hx : w.extension with _ | ext
    · simp [World.registry, World.row, hx]
    · simp [Extension.updateKeepalive, World.registry, World.row, hx, Function.comp_def,
        Subscription.registration]

/-! ## The transactions of reconcile and flush -/

theorem registration_settle (result : Except String String) (row : Subscription) :
    (row.settle result).registration = row.registration.settle result := by
  rcases result with error | kind <;> rfl

theorem registration_settled (pass : Pass) (t : String) (row : Subscription) :
    (pass.metadata.foldl (fun row m => if t = m.1 then row.settle m.2 else row) row).registration
      = Registry.settled pass t row.registration := by
  rw [Registry.settled]
  induction pass.metadata generalizing row with
  | nil => rfl
  | cons m ms ih =>
    rw [List.foldl_cons, List.foldl_cons, ih]
    split
    · rw [registration_settle]
    · rfl

theorem writeBack_registry {pass : Pass} (hp : w.InPhase o s (.write pass)) :
    w.registry.Step .write (w.writeBack o s pass).registry := by
  have hpass : w.pass = some pass := pass_of_phase hp
  obtain ⟨ho, hs, hp⟩ := hp
  have hrow (t : String) : ((w.writeBack o s pass).row t).map Subscription.registration
      = if t ∈ pass.expired then none
        else (w.registry.rows t).map (Registry.settled pass t) := by
    have hr : (w.writeBack o s pass).row t = (w.onExtension (writeBack pass)).row t := rfl
    rw [hr, row_onExtension]
    rcases hx : w.extension with _ | ext
    · simp [World.registry, World.row, hx]
    · simp only [Option.bind_some, writeBack_eq, Table.lookup_eraseAll]
      split
      · rfl
      · rw [lookup_foldl_update]
        simp [World.registry, World.row, hx, Function.comp_def, registration_settled]
  have hcached : {t | ((w.writeBack o s pass).cached t).isSome}
      = {t ∈ w.registry.cached | t ∉ pass.removed ∧ t ∉ pass.expired} := by
    ext t
    rcases hx : w.extension with _ | ext
    · simp [World.registry, World.writeBack, World.resume, World.onExtension, World.cached, hx]
    · by_cases ht : t ∈ pass.removed ∨ t ∈ pass.expired
      · simp [World.registry, World.writeBack, World.resume, World.onExtension, World.cached, hx,
          writeBack_eq, Table.lookup_eraseAll, ht, ← not_or]
      · simp [World.registry, World.writeBack, World.resume, World.onExtension, World.cached, hx,
          writeBack_eq, Table.lookup_eraseAll, ht, ← not_or]
  have hlive (t : String) : (w.writeBack o s pass).live t = w.live t :=
    (live_of_worker ho t).symm
  refine ⟨pass, hpass, ?_⟩
  simp only [World.registry, hrow, hcached, World.pending, hlive]
  rfl

theorem readDesired_registry (ho : w.worker = some o) (hpass : w.pass = none)
    (answers : SubscribeAnswers) {now : Time} (hdue : ¬ now < s.nextSubscriptionPoll) :
    w.registry.Step
      (.read answers w.settings.subscriptionTtl (max w.settings.messageMaxBytes 1))
      (w.readDesired o s now (.ok answers)).registry := by
  refine ⟨hpass, _, _, reconcile_reads answers w.settings.subscriptionTtl
    (max w.settings.messageMaxBytes 1) ho, ?_⟩
  have hpending : {t ∈ w.registry.pending | ∃ kind,
        w.registry.verdict answers w.settings.subscriptionTtl
          (max w.settings.messageMaxBytes 1) t = .kept kind}
      = {t | ((((w.reconciled answers w.settings.subscriptionTtl
        (max w.settings.messageMaxBytes 1) o).1.lookup t).bind fun live =>
          live.mailbox.pending)).isSome} := by
    ext t
    exact (reconciled_pending answers _ _ ho t).symm
  rw [hpending, World.readDesired, if_neg hdue]
  simp only []
  split
  · rename_i hempty
    rw [World.reconciled, if_pos hempty]
    rfl
  · rename_i hempty
    rw [World.reconciled, if_neg hempty]
    rfl

theorem readDesired_quiet (ho : w.worker = some o) (hpass : w.pass = none) {now : Time}
    {answers : Except String SubscribeAnswers}
    (h : now < s.nextSubscriptionPoll ∨ ∃ error, answers = .error error) :
    (w.readDesired o s now answers).registry = w.registry := by
  unfold World.readDesired
  split
  · exact registry_resume ho w.extension (fun _ => rfl) (fun _ => rfl) _ _ rfl hpass.symm
  · rename_i hdue
    obtain ⟨error, rfl⟩ := h.resolve_left hdue
    exact registry_resume ho w.extension (fun _ => rfl) (fun _ => rfl) _ _ rfl hpass.symm

/-- A rewrite of rows that keeps their registrations. -/
theorem registration_foldl {α : Type} {f : α → Subscription → Subscription}
    (hf : ∀ a row, (f a row).registration = row.registration) (t : String)
    (ms : List (String × α)) (row : Subscription) :
    (ms.foldl (fun row m => if t = m.1 then f m.2 row else row) row).registration
      = row.registration := by
  induction ms generalizing row with
  | nil => rfl
  | cons m ms ih =>
    rw [List.foldl_cons, ih]
    split
    · exact hf _ _
    · rfl

variable [Rclrs]

theorem mem_stored {topic : String} (ho : w.worker = some o) :
    topic ∈ w.stored
      ↔ w.extension.isSome ∧ topic ∈ (flushMessages o.subscriptions).map Prod.fst := by
  rcases hx : w.extension with _ | ext <;> simp [World.stored, ho, hx]

/-- What a flush stores was pending. -/
theorem pending_of_stored {topic : String} (ho : w.worker = some o) (h : topic ∈ w.stored) :
    topic ∈ w.registry.pending := by
  obtain ⟨-, h⟩ := (mem_stored ho).mp h
  obtain ⟨⟨topic', sequence, value⟩, hm, rfl⟩ := List.mem_map.mp h
  obtain ⟨⟨topic'', live⟩, hentry, hm⟩ := List.mem_filterMap.mp hm
  obtain ⟨⟨sequence', text⟩, hpending, hm⟩ := Option.bind_eq_some_iff.mp hm
  obtain ⟨value', -, hm⟩ := Option.bind_eq_some_iff.mp hm
  cases hm
  have hlookup : o.subscriptions.lookup topic'' = some live :=
    Table.lookup_eq_some_iff.mpr hentry
  have hsome : live.mailbox.pending = some (sequence, text) := hpending
  simp [World.registry, World.pending, live_of_worker ho, hlookup, hsome]

/-- What a flush leaves of the tables. -/
theorem flush_rows {topics : LiveMap} {now : Time} {ext r : Option Extension}
    (h : flush topics now ext = some r) (t : String) :
    ((r.bind fun ext => ext.subscriptions.lookup t).map Subscription.registration
        = (ext.bind fun ext => ext.subscriptions.lookup t).map Subscription.registration)
      ∧ ((r.bind fun ext => ext.messages.lookup t).isSome
        ↔ (ext.bind fun ext => ext.messages.lookup t).isSome
          ∨ (ext.isSome ∧ t ∈ (flushMessages topics).map Prod.fst)) := by
  rcases ext with _ | ext
  · cases h
    simp
  · obtain ⟨ext', hext, h⟩ := Option.bind_eq_some_iff.mp h
    obtain ⟨messages, hm, rfl⟩ := writeMessages_eq_some now hext
    cases h
    rw [writeErrors_eq]
    refine ⟨?_, by simpa using hm t⟩
    simp only [Option.bind_some]
    rw [lookup_foldl_update (fun error => Subscription.settle (.error error)),
      lookup_foldl_update fun _ => Subscription.touch now]
    rcases ext.subscriptions.lookup t with _ | row
    · rfl
    · simp only [Option.map_some]
      rw [registration_foldl (f := fun error => Subscription.settle (.error error))
          fun _ _ => rfl,
        registration_foldl (f := fun _ => Subscription.touch now) fun _ _ => rfl]

theorem flush_registry (ho : w.worker = some o) (hpass : w.pass = none) {now : Time}
    (hdue : ¬ (o.subscriptions.entries = [] ∨ now < s.nextMessageFlush)) :
    ((w.flush o s now).worker ≠ none
        ∧ w.registry.Step (.flush w.stored) (w.flush o s now).registry)
      ∨ ((w.flush o s now).worker = none ∧ w.registry.Step .lose (w.flush o s now).registry) := by
  unfold World.flush
  rw [if_neg hdue]
  split
  · exact .inr ⟨rfl, registry_lose w.extension (fun _ => rfl) fun _ => rfl⟩
  · rename_i extension h
    refine .inl ⟨by simp [World.resume], hpass, fun t ht => pending_of_stored ho ht, ?_⟩
    have hcached : {t | (extension.bind fun ext => ext.messages.lookup t).isSome}
        = w.registry.cached ∪ {t | t ∈ w.stored} := by
      ext t
      rw [Set.mem_ofPred_eq, (flush_rows h t).2, ← mem_stored ho]
      rfl
    have hlive (t : String) :
        ((o.subscriptions.mapVals fun _ live => live.drained).lookup t).map Live.messageType
          = w.registry.live t := by
      rw [Table.lookup_mapVals, Option.map_map]
      simp [World.registry, live_of_worker ho, Function.comp_def, Live.drained]
    have hpending : {t | (((o.subscriptions.mapVals fun _ live => live.drained).lookup t).bind
        fun live => live.mailbox.pending).isSome} = ∅ := by
      ext t
      rcases hl : o.subscriptions.lookup t <;> simp [Live.drained, hl]
    have hrow (t : String) := (flush_rows h t).1
    simp only [World.registry, Registry.mk.injEq]
    exact ⟨rfl, funext hrow, hcached, funext hlive, hpending, hpass.symm⟩

theorem callback_messageType {T : MessageType} (live : Live) (topic : String) (message : T.Val) :
    (live.callback topic message).messageType = live.messageType := by
  unfold Live.callback
  simp only []
  split <;> rfl

/-- A callback leaves a message pending where there was one. -/
theorem callback_pending {T : MessageType} (live : Live) (topic : String) (message : T.Val)
    (h : live.mailbox.pending.isSome) :
    (live.callback topic message).mailbox.pending.isSome := by
  unfold Live.callback
  simp only []
  split
  · rfl
  · exact h

theorem message_registry {T : MessageType} (hp : w.InPhase o s .spin) {topic : String}
    (ht : topic ∈ o.subscriptions) (message : T.Val) :
    w.registry.Step (.receive topic)
      (w.resume { o with
        subscriptions := o.subscriptions.update topic (Live.callback · topic message) } s).registry
      := by
  have hpass : w.pass = none := pass_of_phase hp
  obtain ⟨ho, hs, hp⟩ := hp
  obtain ⟨live, hl⟩ := Table.mem_iff_lookup.mp ht
  have hlookup (t : String) :
      (o.subscriptions.update topic (Live.callback · topic message)).lookup t
        = if t = topic then some (live.callback topic message) else o.subscriptions.lookup t := by
    rw [Table.lookup_update]
    split
    · rename_i h
      rw [h, hl, Option.map_some]
    · rfl
  have htypes (t : String) :
      ((o.subscriptions.update topic (Live.callback · topic message)).lookup t).map
        Live.messageType = w.registry.live t := by
    rw [hlookup]
    split
    · rename_i h
      simp [World.registry, live_of_worker ho, h, hl, callback_messageType]
    · simp [World.registry, live_of_worker ho]
  refine ⟨hpass, by simp [World.registry, live_of_worker ho, hl],
    {t | (((o.subscriptions.update topic (Live.callback · topic message)).lookup t).bind
      fun live => live.mailbox.pending).isSome}, fun t h => ?_, fun t h => ?_, ?_⟩
  · have h : (w.pending t).isSome := h
    rw [World.pending, live_of_worker ho] at h
    change (Option.bind _ _).isSome = true
    rw [hlookup]
    split
    · rename_i ht
      rw [ht, hl] at h
      exact callback_pending live topic message h
    · exact h
  · have h : (((o.subscriptions.update topic (Live.callback · topic message)).lookup t).bind
        fun live => live.mailbox.pending).isSome := h
    rw [hlookup] at h
    split at h
    · rename_i ht
      exact .inl ht
    · exact .inr (by simpa [World.registry, World.pending, live_of_worker ho] using h)
  · simp only [World.registry, Registry.mk.injEq]
    refine ⟨rfl, rfl, rfl, funext htypes, rfl, ?_⟩
    rw [pass_resume, pass_of_session ho hs]

theorem act_of_ends {e : Event} (h : w.step e = some w') : w.Ends e ↔ w'.worker = none := by
  simp [World.Ends, h]

omit [Rclrs] in
theorem flushes_iff {now : Time} (hp : w.InPhase o s (.flush now)) :
    w.Flushes ↔ ¬ (o.subscriptions.entries = [] ∨ now < s.nextMessageFlush) := by
  obtain ⟨ho, hs, hp⟩ := hp
  simp [World.Flushes, ho, hs, hp, Phase.flushing]

theorem flush_act {now : Time} (hp : w.InPhase o s (.flush now))
    (h : w.step .flush = some (w.flush o s now)) :
    w.registry.Step (w.act .flush) (w.flush o s now).registry := by
  have hpass : w.pass = none := pass_of_phase hp
  have hflushes := flushes_iff hp
  have ho := hp.1
  have hends := act_of_ends h
  by_cases hdue : o.subscriptions.entries = [] ∨ now < s.nextMessageFlush
  · have hstay : w.flush o s now = w.resume o { s with phase := .read now } := by
      rw [World.flush, if_pos hdue]
    have halive : ¬ w.Ends .flush := by
      rw [hends, hstay]
      simp [World.resume]
    rw [World.act, if_neg halive, if_neg (hflushes.not.mpr (not_not.mpr hdue)), hstay]
    exact quiet_of_eq (registry_resume ho w.extension (fun _ => rfl) (fun _ => rfl) _ _ rfl
      hpass.symm)
  · rcases flush_registry ho hpass hdue with ⟨halive, hstep⟩ | ⟨hgone, hstep⟩
    · rw [World.act, if_neg (hends.not.mpr halive), if_pos (hflushes.mpr hdue)]
      exact hstep
    · rw [World.act, if_pos (hends.mpr hgone)]
      exact hstep

theorem readDesired_act {now : Time} (hp : w.InPhase o s (.read now))
    (answers : Except String SubscribeAnswers) :
    w.registry.Step (w.act (.readDesired answers)) (w.readDesired o s now answers).registry := by
  have hpass : w.pass = none := pass_of_phase hp
  obtain ⟨ho, hs, hp⟩ := hp
  have hreads : w.Reads ↔ ¬ now < s.nextSubscriptionPoll := by
    simp [World.Reads, ho, hs, hp, Phase.reading]
  rcases answers with error | answers
  · exact quiet_of_eq (readDesired_quiet ho hpass (.inr ⟨error, rfl⟩))
  · by_cases hdue : now < s.nextSubscriptionPoll
    · rw [World.act, if_neg (hreads.not.mpr (not_not.mpr hdue))]
      exact quiet_of_eq (readDesired_quiet ho hpass (.inl hdue))
    · rw [World.act, if_pos (hreads.mpr hdue)]
      exact readDesired_registry ho hpass answers hdue

/-- A step of the system is the step of its registry that `World.act` says. -/
theorem step_registry {e : Event} (h : w.step e = some w') :
    w.registry.Step (w.act e) w'.registry := by
  have hs := step_spec h
  cases e with
  | advance d =>
    subst hs
    exact ⟨w.now + d, by simp [World.registry], rfl⟩
  | reload settings => exact hs ▸ quiet_of_eq rfl
  | insert topic requestedType registeredAt keepaliveAt =>
    subst hs
    by_cases hi : w.extension.isSome ∧ w.row topic = none
    · rw [World.act, if_pos hi]
      exact insert_registry topic requestedType registeredAt keepaliveAt hi.1 hi.2
    · rw [World.act, if_neg hi, insert_quiet topic requestedType registeredAt keepaliveAt hi]
      exact quiet_of_eq rfl
  | delete topic => exact hs ▸ delete_registry topic
  | keepalive topic keepaliveAt => exact hs ▸ keepalive_registry topic keepaliveAt
  | createExtension =>
    obtain ⟨hx, rfl⟩ := hs
    refine quiet_of_eq (registry_congr rfl (fun t => ?_) (fun t => ?_) (fun _ => rfl) rfl)
    · simp [World.row, hx, Extension.new]
    · simp [World.cached, hx, Extension.new]
  | dropExtension =>
    subst hs
    simp [World.act, Registry.Step, World.registry, World.row, World.cached, World.pending,
      World.live, World.pass]
  | startWorker pid =>
    obtain ⟨hw, rfl⟩ := hs
    refine quiet_of_eq (registry_congr rfl (fun _ => rfl) (fun _ => rfl) (fun t => ?_) ?_)
    · simp [World.live, hw, Observer.start]
    · simp [World.pass, hw, Observer.start]
  | crash => exact hs ▸ registry_lose w.extension (fun _ => rfl) fun _ => rfl
  | abort => exact hs ▸ registry_lose w.extension (fun _ => rfl) fun _ => rfl
  | fail error =>
    obtain ⟨o, -, rfl⟩ := hs
    exact registry_lose _ (fun t => (persistSnapshot_rows _ _ _ _ _ _ t).1)
      fun t => (persistSnapshot_rows _ _ _ _ _ _ t).2
  | beginSession =>
    obtain ⟨o, reinitAfter, ho, rfl⟩ := hs
    simp [World.act, Registry.Step, World.registry, World.row, World.cached, World.pending,
      World.live, World.pass, World.resume, Session.start, Phase.writing]
  | terminate => exact hs ▸ registry_lose w.extension (fun _ => rfl) fun _ => rfl
  | message topic type message =>
    obtain ⟨o, s, hp, ht, rfl⟩ := hs
    exact message_registry hp ht message
  | graphChange =>
    obtain ⟨o, s, hp, rfl⟩ := hs
    exact quiet_of_eq (registry_resume hp.1 w.extension (fun _ => rfl) (fun _ => rfl) _ _ rfl
      (pass_of_phase hp).symm)
  | spun =>
    obtain ⟨o, s, hp, rfl⟩ := hs
    exact quiet_of_eq (registry_resume hp.1 w.extension (fun _ => rfl) (fun _ => rfl) _ _ rfl
      (pass_of_phase hp).symm)
  | flush =>
    obtain ⟨o, s, now, hp, rfl⟩ := hs
    exact flush_act hp h
  | readDesired answers =>
    obtain ⟨o, s, now, hp, rfl⟩ := hs
    exact readDesired_act hp answers
  | writeBack =>
    obtain ⟨o, s, pass, hp, rfl⟩ := hs
    exact writeBack_registry hp
  | tick answers =>
    obtain ⟨o, s, hp, hw⟩ := hs
    have hl : LeavesOrLoses w w' := hw ▸ (tick_spec s answers).leaves hp.1 (pass_of_phase hp)
    rw [World.act]
    simpa only [act_of_ends h] using hl.step
  | observe graph =>
    obtain ⟨o, s, hp, rfl⟩ := hs
    exact quiet_of_eq (observe_leaves hp.1 (pass_of_phase hp) graph)
  | startPoll answers =>
    obtain ⟨o, s, nodes, hp, hw⟩ := hs
    have hl : LeavesOrLoses w w' :=
      hw ▸ (startPoll_spec s nodes answers).leaves hp.1 (pass_of_phase hp)
    rw [World.act]
    simpa only [act_of_ends h] using hl.step
  | decide =>
    obtain ⟨o, s, hp, rfl⟩ := hs
    refine quiet_of_eq (registry_resume hp.1 w.extension (fun _ => rfl) (fun _ => rfl) _ _ rfl ?_)
    rw [pass_of_phase hp]
    simp only []
    split <;> rfl

omit [Rclrs] in
theorem Registry.Step.now_le {R R' : Registry} {a : Act} (hs : R.Step a R') : R.now ≤ R'.now := by
  cases a with
  | quiet =>
    obtain ⟨now, hle, rfl⟩ := hs
    exact hle
  | insert topic requestedType keepaliveAt =>
    obtain ⟨-, rfl⟩ := hs
    exact le_rfl
  | receive topic =>
    obtain ⟨-, -, pending, -, -, rfl⟩ := hs
    exact le_rfl
  | flush stored =>
    obtain ⟨-, -, rfl⟩ := hs
    exact le_rfl
  | read answers ttl limit =>
    obtain ⟨-, live, pass, -, rfl⟩ := hs
    exact le_rfl
  | write =>
    obtain ⟨pass, -, rfl⟩ := hs
    exact le_rfl
  | _ => exact hs ▸ le_rfl

/-- The clock never goes back. -/
theorem step_now {e : Event} (h : w.step e = some w') : w.now ≤ w'.now :=
  (step_registry h).now_le

end PgRos2
