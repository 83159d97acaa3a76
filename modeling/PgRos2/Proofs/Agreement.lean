import PgRos2.Proofs.Registry
import PgRos2.Reference

/-!
# Live subscriptions and the rows they serve

A live subscription keeps the type it was created with, and reconcile knows a registration by its
topic. `Serves` says that rows and live subscriptions agree, up to what the pass under way will
record. Every step keeps it but an `INSERT` under a live topic (`Serves.step`), so they agree
whenever no pass is under way (`live_agrees_with_row`).
-/

namespace PgRos2

open Lib

namespace Registry

/-- The live subscription of a registered topic has the requested type, and its type is recorded in
the row or about to be. -/
structure Serves (R : Registry) : Prop where
  requested : ∀ topic r kind, R.rows topic = some r → R.live topic = some kind →
    ∀ k ∈ r.requestedType, k ≠ "" → k = kind
  recorded : ∀ topic r kind, R.rows topic = some r → R.live topic = some kind →
    r.messageType = some kind ∨ ∃ pass ∈ R.pass, (topic, .ok kind) ∈ pass.metadata
  metadata : ∀ pass ∈ R.pass, ∀ topic k kind, R.live topic = some kind →
    (topic, .ok k) ∈ pass.metadata → k = kind

variable {R R' : Registry}

theorem serves_of_dead (h : ∀ topic, R.live topic = none) : R.Serves where
  requested topic _ _ _ hl := by rw [h topic] at hl; cases hl
  recorded topic _ _ _ hl := by rw [h topic] at hl; cases hl
  metadata _ _ topic _ _ hl := by rw [h topic] at hl; cases hl

/-- Rows may change for others that agree. -/
theorem Serves.of_rows (h : R.Serves) (rows : String → Option Registration)
    (hrows : ∀ topic r, rows topic = some r → ∀ kind, R.live topic = some kind →
      (∀ k ∈ r.requestedType, k ≠ "" → k = kind)
        ∧ (r.messageType = some kind ∨ ∃ pass ∈ R.pass, (topic, .ok kind) ∈ pass.metadata)) :
    { R with rows }.Serves where
  requested topic r kind hr hl := (hrows topic r hr kind hl).1
  recorded topic r kind hr hl := (hrows topic r hr kind hl).2
  metadata := h.metadata

theorem settled_requestedType (pass : Pass) (topic : String) (r : Registration) :
    (settled pass topic r).requestedType = r.requestedType := by
  rw [settled]
  induction pass.metadata generalizing r with
  | nil => rfl
  | cons m ms ih =>
    rw [List.foldl_cons, ih]
    split
    · rcases m with ⟨_, error | kind⟩ <;> rfl
    · rfl

/-- Metadata that has one type for a topic leaves it in the row, where the row has it already or
the metadata names it. -/
theorem settled_messageType {pass : Pass} {topic kind : String} {r : Registration}
    (hone : ∀ k, (topic, .ok k) ∈ pass.metadata → k = kind)
    (h : r.messageType = some kind ∨ (topic, .ok kind) ∈ pass.metadata) :
    (settled pass topic r).messageType = some kind := by
  rw [settled]
  generalize pass.metadata = ms at hone h
  induction ms generalizing r with
  | nil => simpa using h
  | cons m ms ih =>
    rw [List.foldl_cons]
    refine ih (fun k hk => hone k (List.mem_cons_of_mem _ hk)) ?_
    rcases m with ⟨topic', result⟩
    by_cases ht : topic = topic'
    · subst ht
      rw [if_pos rfl]
      rcases result with error | k
      · rcases h with h | h
        · exact .inl h
        · exact .inr ((List.mem_cons.mp h).resolve_left (by simp))
      · have hk : k = kind := hone k List.mem_cons_self
        exact .inl (by rw [hk]; rfl)
    · rw [if_neg ht]
      exact h.imp_right fun h => (List.mem_cons.mp h).resolve_left (by simp [ht])

theorem Serves.read (h : R.Serves) (hpass : R.pass = none) {answers : SubscribeAnswers}
    {ttl limit : ℕ} {live : String → Option String} {pass : Pass}
    (hr : R.Reads answers ttl limit live pass) (pending : Set String) :
    { R with live, pending, pass := if pass.isEmpty then none else some pass }.Serves := by
  have hpass' (p : Pass) (hp : p ∈ if pass.isEmpty then none else some pass) : p = pass := by
    split at hp
    · cases hp
    · exact (Option.some.inj hp).symm
  have hnonempty (topic : String) (result : Except String String)
      (hm : (topic, result) ∈ pass.metadata) :
      pass ∈ if pass.isEmpty then none else some pass := by
    have hne : pass.metadata ≠ [] := List.ne_nil_of_mem hm
    have he : ¬ pass.isEmpty = true := by simp [Pass.isEmpty, hne]
    rw [if_neg he]
    rfl
  have hverdict (topic kind : String) (hl : live topic = some kind) (r : Registration)
      (hrow : R.rows topic = some r) :
      (R.live topic = some kind)
        ∨ (R.verdict answers ttl limit topic = .subscribed kind
          ∧ ∀ k ∈ r.requestedType, k ≠ "" → k = kind) := by
    rw [hr.live_eq, Registry.verdict, hrow] at hl
    rw [Registry.verdict, hrow]
    simp only at hl ⊢
    split at hl
    · cases hl
    · rename_i hexp
      rw [if_neg hexp]
      rcases hlive : R.live topic with _ | kind'
      · rw [hlive] at hl
        rcases hsub : subscribe answers topic r.requestedType limit with error | l
        · rw [hsub] at hl
          cases hl
        · rw [hsub] at hl
          cases hl
          refine .inr ⟨by simp, fun k hk hne => ?_⟩
          exact ((subscribe_eq_ok answers limit hsub).2 k hk hne).symm
      · rw [hlive] at hl
        cases hl
        exact .inl rfl
  refine ⟨fun topic r kind hrow hl => ?_, fun topic r kind hrow hl => ?_,
    fun p hp topic k kind hl hm => ?_⟩
  · rcases hverdict topic kind hl r hrow with hlive | ⟨-, hk⟩
    · exact h.requested topic r kind hrow hlive
    · exact hk
  · rcases hverdict topic kind hl r hrow with hlive | ⟨hv, -⟩
    · refine .inl ((h.recorded topic r kind hrow hlive).resolve_right ?_)
      rintro ⟨p, hp, -⟩
      rw [hpass] at hp
      cases hp
    · have hm : (topic, .ok kind) ∈ pass.metadata := by
        rw [hr.mem_metadata, hv]
        rfl
      exact .inr ⟨pass, hnonempty topic _ hm, hm⟩
  · rw [hpass' p hp, hr.mem_metadata] at hm
    have hl : live topic = some kind := hl
    rw [hr.live_eq] at hl
    rcases hv : R.verdict answers ttl limit topic with _ | _ | k' | k' | error <;>
      rw [hv] at hm hl <;> cases hm
    exact Option.some.inj hl

theorem Serves.write (h : R.Serves) {pass : Pass} (hpass : R.pass = some pass) :
    (R.written pass).Serves := by
  have hrow (topic : String) (r : Registration) (hr : (R.written pass).rows topic = some r) :
      ∃ r₀, R.rows topic = some r₀ ∧ r = settled pass topic r₀ := by
    simp only [written] at hr
    split at hr
    · cases hr
    · obtain ⟨r₀, hr₀, rfl⟩ := Option.map_eq_some_iff.mp hr
      exact ⟨r₀, hr₀, rfl⟩
  refine ⟨fun topic r kind hr hl => ?_, fun topic r kind hr hl => .inl ?_,
    fun p hp => by cases hp⟩
  · obtain ⟨r₀, hr₀, rfl⟩ := hrow topic r hr
    rw [settled_requestedType]
    exact h.requested topic r₀ kind hr₀ hl
  · obtain ⟨r₀, hr₀, rfl⟩ := hrow topic r hr
    refine settled_messageType (fun k hk => h.metadata pass hpass topic k kind hl hk) ?_
    refine (h.recorded topic r₀ kind hr₀ hl).imp_right ?_
    rintro ⟨p, hp, hm⟩
    rw [hpass] at hp
    cases hp
    exact hm

/-- An `INSERT` under a live topic agrees with its subscription: it asks for no other type, and the
pass under way is about to record the type. -/
def Matches (R : Registry) (topic : String) (requestedType : Option String) : Prop :=
  ∀ kind, R.live topic = some kind →
    (∀ k ∈ requestedType, k ≠ "" → k = kind)
      ∧ ∃ pass ∈ R.pass, (topic, .ok kind) ∈ pass.metadata

/-- Every step keeps it, but an `INSERT` under a live topic it does not match. -/
theorem Serves.step {a : Act} (h : R.Serves) (hs : R.Step a R')
    (hg : ∀ topic requestedType keepaliveAt, a = .insert topic requestedType keepaliveAt →
      R.Matches topic requestedType) : R'.Serves := by
  cases a with
  | quiet =>
    obtain ⟨now, -, rfl⟩ := hs
    exact ⟨h.requested, h.recorded, h.metadata⟩
  | insert topic requestedType keepaliveAt =>
    obtain ⟨-, rfl⟩ := hs
    refine h.of_rows _ fun t r hr kind hl => ?_
    by_cases ht : t = topic
    · subst ht
      rw [Function.update_self] at hr
      cases hr
      exact (hg t requestedType keepaliveAt rfl kind hl).imp_right .inr
    · rw [Function.update_of_ne ht] at hr
      exact ⟨h.requested t r kind hr hl, h.recorded t r kind hr hl⟩
  | delete topic =>
    subst hs
    refine h.of_rows _ fun t r hr kind hl => ?_
    by_cases ht : t = topic
    · rw [ht, Function.update_self] at hr
      cases hr
    · rw [Function.update_of_ne ht] at hr
      exact ⟨h.requested t r kind hr hl, h.recorded t r kind hr hl⟩
  | keepalive topic keepaliveAt =>
    subst hs
    refine h.of_rows _ fun t r hr kind hl => ?_
    by_cases ht : t = topic
    · subst ht
      rw [Function.update_self] at hr
      obtain ⟨r₀, hr₀, rfl⟩ := Option.map_eq_some_iff.mp hr
      exact ⟨h.requested t r₀ kind hr₀ hl, h.recorded t r₀ kind hr₀ hl⟩
    · rw [Function.update_of_ne ht] at hr
      exact ⟨h.requested t r kind hr hl, h.recorded t r kind hr hl⟩
  | drop =>
    subst hs
    refine ⟨fun _ _ _ hr => ?_, fun _ _ _ hr => ?_, h.metadata⟩
    · cases hr
    · cases hr
  | lose =>
    subst hs
    exact serves_of_dead fun _ => rfl
  | receive topic =>
    obtain ⟨-, -, pending, -, -, rfl⟩ := hs
    exact ⟨h.requested, h.recorded, h.metadata⟩
  | flush stored =>
    obtain ⟨-, -, rfl⟩ := hs
    exact ⟨h.requested, h.recorded, h.metadata⟩
  | read answers ttl limit =>
    obtain ⟨hpass, live, pass, hr, rfl⟩ := hs
    exact h.read hpass hr _
  | write =>
    obtain ⟨pass, hpass, rfl⟩ := hs
    exact h.write hpass

end Registry

/-- The topic and the requested type of an `INSERT` that takes effect. -/
def Act.inserted : Act → Option (String × Option String)
  | .insert topic requestedType _ => some (topic, requestedType)
  | _ => none

section

variable [Rclrs]

/-- An `INSERT` under a live topic asks for no other type, and comes while the pass that subscribed
to the topic is about to record its type. -/
def TypeGuard (w : World) (e : Event) : Prop :=
  ∀ i ∈ (w.act e).inserted, ∀ live ∈ w.live i.1,
    (∀ kind ∈ i.2, kind ≠ "" → kind = live.messageType)
      ∧ ∃ pass ∈ w.pass, (i.1, .ok live.messageType) ∈ pass.metadata

instance (w : World) (e : Event) : Decidable (TypeGuard w e) :=
  inferInstanceAs (Decidable (∀ i ∈ (w.act e).inserted, ∀ live ∈ w.live i.1,
    (∀ kind ∈ i.2, _) ∧ ∃ pass ∈ w.pass, _))

/-- Live subscriptions serve their rows in every run in which an `INSERT` under a live topic
matches its subscription. -/
theorem run_serves {w₀ w : World} {es : List Event} (h₀ : w₀.worker = none)
    (hr : run World.step w₀ es = some w) (hg : Along World.step TypeGuard w₀ es) :
    w.registry.Serves := by
  refine run_inv (I := fun w => w.registry.Serves) ?_ hg hr ?_
  · intro w e w' hw hg h
    refine hw.step (step_registry h) fun topic requestedType keepaliveAt ha kind hl => ?_
    obtain ⟨live, hlive, rfl⟩ := Option.map_eq_some_iff.mp hl
    refine hg (topic, requestedType) ?_ live hlive
    rw [ha]
    rfl
  · exact Registry.serves_of_dead fun topic => by simp [World.registry, World.live, h₀]

/-- Whenever no pass of reconcile is under way, the live subscription of a topic that has a row has
the type the row requests, and the row records it: in every run in which an `INSERT` under a live
topic matches its subscription. -/
theorem live_agrees_with_row {w₀ w : World} {es : List Event} (h₀ : w₀.worker = none)
    (hr : run World.step w₀ es = some w) (hg : Along World.step TypeGuard w₀ es)
    (hpass : w.pass = none) {topic : String} {row : Subscription} {live : Live}
    (hrow : w.row topic = some row) (hlive : w.live topic = some live) :
    (∀ kind ∈ row.requestedType, kind ≠ "" → kind = live.messageType)
      ∧ row.messageType = some live.messageType := by
  have hs := run_serves h₀ hr hg
  have hr' : w.registry.rows topic = some row.registration := by simp [World.registry, hrow]
  have hl' : w.registry.live topic = some live.messageType := by simp [World.registry, hlive]
  refine ⟨hs.requested topic _ _ hr' hl', (hs.recorded topic _ _ hr' hl').resolve_right ?_⟩
  rintro ⟨pass, hp, -⟩
  have hp : w.pass = some pass := hp
  rw [hpass] at hp
  cases hp

end

section Witness

open Reference

/-- Every subscribe succeeds. -/
def SubscribeAnswers.granted : SubscribeAnswers :=
  ⟨fun _ => .ok [], fun _ => .ok (), fun _ _ => .ok ()⟩

/-- An iteration of the loop from its reconcile step, with the poll interval behind it. -/
def toReconcile : List Event :=
  [.tick .idle, .observe (.error "timeout"), .advance 250000, .spun, .flush]

/-- A worker that has subscribed to a topic and recorded its type. -/
def servesChat : List Event :=
  [.createExtension, .insert "/chat" (some "std_msgs/msg/String") 0 none, .startWorker 1,
    .beginSession, .spun, .flush, .readDesired (.ok .granted), .writeBack]

/-- The topic is deleted and inserted again with another type between two polls. -/
theorem stale_type_after_reinsert : ∃ w₁ w row live,
    run World.step (.initial .default) (servesChat ++ [.delete "/chat",
        .insert "/chat" (some "std_msgs/msg/Int32") 0 none] ++ toReconcile) = some w₁
      ∧ w₁.Reads ∧ w₁.step (.readDesired (.ok .granted)) = some w ∧ w.pass = none
      ∧ w.row "/chat" = some row ∧ w.live "/chat" = some live
      ∧ row.requestedType = some "std_msgs/msg/Int32" ∧ live.messageType = "std_msgs/msg/String"
      ∧ row.messageType = none := by
  have h : ((run World.step (.initial .default) (servesChat ++ [.delete "/chat",
      .insert "/chat" (some "std_msgs/msg/Int32") 0 none] ++ toReconcile)).any fun w₁ =>
    decide w₁.Reads && (w₁.step (.readDesired (.ok .granted))).any fun w =>
      w.pass.isNone && (w.row "/chat").any fun row => (w.live "/chat").any fun live =>
        decide (row.requestedType = some "std_msgs/msg/Int32"
          ∧ live.messageType = "std_msgs/msg/String" ∧ row.messageType = none)) = true := by
    decide +kernel
  simp only [Option.any_eq_true, Bool.and_eq_true, decide_eq_true_eq,
    Option.isNone_iff_eq_none] at h
  obtain ⟨w₁, hr, hreads, w, hw, hpass, row, hrow, live, hlive, hty, hlt, hmt⟩ := h
  exact ⟨w₁, w, row, live, hr, hreads, hw, hpass, hrow, hlive, hty, hlt, hmt⟩

/-- The topic is deleted, and inserted again after the next poll. -/
theorem live_agrees_after_reinsert : ∃ w row live,
    run World.step (.initial .default) (servesChat ++ [.delete "/chat"] ++ toReconcile
        ++ [.readDesired (.ok .granted), .writeBack,
          .insert "/chat" (some "std_msgs/msg/Int32") 0 none] ++ toReconcile
        ++ [.readDesired (.ok .granted), .writeBack]) = some w
      ∧ w.row "/chat" = some row ∧ w.live "/chat" = some live
      ∧ row.requestedType = some "std_msgs/msg/Int32"
      ∧ row.messageType = some live.messageType := by
  have h : ((run World.step (.initial .default) (servesChat ++ [.delete "/chat"] ++ toReconcile
        ++ [.readDesired (.ok .granted), .writeBack,
          .insert "/chat" (some "std_msgs/msg/Int32") 0 none] ++ toReconcile
        ++ [.readDesired (.ok .granted), .writeBack])).any fun w =>
      w.pass.isNone && (w.row "/chat").any fun row => (w.live "/chat").any fun live =>
        decide (row.requestedType = some "std_msgs/msg/Int32")) = true := by
    decide +kernel
  have hg : Along World.step TypeGuard (.initial .default) (servesChat ++ [.delete "/chat"]
        ++ toReconcile ++ [.readDesired (.ok .granted), .writeBack,
          .insert "/chat" (some "std_msgs/msg/Int32") 0 none] ++ toReconcile
        ++ [.readDesired (.ok .granted), .writeBack]) := by
    decide +kernel
  simp only [Option.any_eq_true, Bool.and_eq_true, decide_eq_true_eq,
    Option.isNone_iff_eq_none] at h
  obtain ⟨w, hr, hpass, row, hrow, live, hlive, hty⟩ := h
  exact ⟨w, row, live, hr, hrow, hlive, hty,
    (live_agrees_with_row rfl hr hg hpass hrow hlive).2⟩

end Witness

end PgRos2
