import PgRos2.Proofs.Agreement

/-!
# Expiry

Reconcile decides from the rows it reads which registrations have expired, and deletes them by
topic in a later transaction. `Stale` says that what it decided still holds of the rows. A client
breaks it by refreshing or registering anew a topic that is about to be deleted, and nothing else
does (`Stale.step`), so only expired registrations are deleted (`deleted_registration_expired`).
-/

namespace PgRos2

open Lib

theorem Registration.IsExpired.mono {ttl : ℕ} {now now' : Time} {r : Registration}
    (h : r.IsExpired ttl now) (hle : now ≤ now') : r.IsExpired ttl now' := by
  obtain ⟨hpos, keepaliveAt, hk, hlt⟩ := h
  exact ⟨hpos, keepaliveAt, hk, lt_of_lt_of_le hlt (Int.sub_le_sub_right hle keepaliveAt)⟩

namespace Registry

/-- The rows a pass is about to delete have expired. -/
def Stale (R : Registry) : Prop :=
  ∀ pass ∈ R.pass, ∀ topic ∈ pass.expired, ∀ r, R.rows topic = some r → r.IsExpired pass.ttl R.now

variable {R R' : Registry}

theorem stale_of_none (h : R.pass = none) : R.Stale := by
  intro pass hp
  rw [h] at hp
  cases hp

/-- Rows may change for others that have expired where they are about to be deleted. -/
theorem Stale.of_rows (h : R.Stale) {topic : String} {row : Option Registration}
    (hrow : ∀ pass ∈ R.pass, topic ∈ pass.expired → ∀ r, row = some r →
      r.IsExpired pass.ttl R.now) :
    { R with rows := Function.update R.rows topic row }.Stale := by
  intro pass hp t ht r hr
  by_cases htopic : t = topic
  · subst htopic
    have hr : Function.update R.rows t row t = some r := hr
    rw [Function.update_self] at hr
    exact hrow pass hp ht r hr
  · have hr : Function.update R.rows topic row t = some r := hr
    rw [Function.update_of_ne htopic] at hr
    exact h pass hp t ht r hr

theorem Stale.read {answers : SubscribeAnswers} {ttl limit : ℕ}
    {live : String → Option String} {pass : Pass} (hr : R.Reads answers ttl limit live pass)
    (pending : Set String) :
    { R with live, pending, pass := if pass.isEmpty then none else some pass }.Stale := by
  intro p hp topic ht r hrow
  have hp : p ∈ if pass.isEmpty then none else some pass := hp
  split at hp
  · cases hp
  · cases hp
    have hv := (hr.mem_expired topic).mp ht
    have hrow : R.rows topic = some r := hrow
    rw [verdict, hrow] at hv
    simp only at hv
    split at hv
    · rename_i hexp
      exact hr.ttl_eq ▸ hexp
    · split at hv
      · cases hv
      · split at hv <;> cases hv

/-- What the registration of an act comes to, with its topic. -/
def refreshed (R : Registry) : Act → Option (String × Registration)
  | .insert topic requestedType keepaliveAt => some (topic, ⟨requestedType, none, keepaliveAt⟩)
  | .keepalive topic keepaliveAt => (R.rows topic).map fun r => (topic, { r with keepaliveAt })
  | _ => none

/-- Every step keeps it, but a refresh or a registration of a topic that is about to be deleted. -/
theorem Stale.step {a : Act} (h : R.Stale) (hs : R.Step a R')
    (hg : ∀ i ∈ R.refreshed a, ∀ pass ∈ R.pass, i.1 ∈ pass.expired →
      i.2.IsExpired pass.ttl R.now) : R'.Stale := by
  cases a with
  | quiet =>
    obtain ⟨now, hle, rfl⟩ := hs
    intro pass hp topic ht r hr
    exact (h pass hp topic ht r hr).mono hle
  | insert topic requestedType keepaliveAt =>
    obtain ⟨-, rfl⟩ := hs
    refine h.of_rows fun pass hp ht r hr => ?_
    cases hr
    exact hg _ rfl pass hp ht
  | delete topic =>
    subst hs
    refine h.of_rows fun pass hp ht r hr => ?_
    cases hr
  | keepalive topic keepaliveAt =>
    subst hs
    refine h.of_rows fun pass hp ht r hr => ?_
    obtain ⟨r₀, hr₀, rfl⟩ := Option.map_eq_some_iff.mp hr
    refine hg (topic, { r₀ with keepaliveAt }) ?_ pass hp ht
    rw [refreshed, hr₀]
    rfl
  | drop =>
    subst hs
    intro pass hp topic ht r hr
    cases hr
  | lose =>
    subst hs
    exact stale_of_none rfl
  | receive topic =>
    obtain ⟨hpass, -, pending, -, -, rfl⟩ := hs
    exact stale_of_none hpass
  | flush stored =>
    obtain ⟨hpass, -, rfl⟩ := hs
    exact stale_of_none hpass
  | read answers ttl limit =>
    obtain ⟨-, live, pass, hr, rfl⟩ := hs
    exact .read hr _
  | write =>
    obtain ⟨pass, -, rfl⟩ := hs
    exact stale_of_none rfl

end Registry

section

variable [Rclrs]

/-- While a pass is about to delete a topic, a client neither refreshes its registration nor
registers it anew, unless with a keepalive as old as the ttl. -/
def ExpiryGuard (w : World) (e : Event) : Prop :=
  ∀ i ∈ w.registry.refreshed (w.act e), ∀ pass ∈ w.pass, i.1 ∈ pass.expired →
    i.2.IsExpired pass.ttl w.now

instance (w : World) (e : Event) : Decidable (ExpiryGuard w e) :=
  inferInstanceAs (Decidable (∀ i ∈ w.registry.refreshed (w.act e), ∀ pass ∈ w.pass, _ → _))

theorem run_stale {w₀ w : World} {es : List Event} (h₀ : w₀.worker = none)
    (hr : run World.step w₀ es = some w) (hg : Along World.step ExpiryGuard w₀ es) :
    w.registry.Stale := by
  refine run_inv (I := fun w => w.registry.Stale) ?_ hg hr ?_
  · intro w e w' hw hg h
    exact hw.step (step_registry h) hg
  · exact Registry.stale_of_none (by simp [World.registry, World.pass, h₀])

/-- A registration that a write-back deletes has, then and there, a keepalive older than the ttl of
its pass: in every run in which clients leave a topic alone that is about to be deleted. -/
theorem deleted_registration_expired {w₀ w w' : World} {es : List Event}
    (h₀ : w₀.worker = none) (hr : run World.step w₀ es = some w)
    (hg : Along World.step ExpiryGuard w₀ es) (h : w.step .writeBack = some w') {topic : String}
    {row : Subscription} (hrow : w.row topic = some row) (hgone : w'.row topic = none) :
    ∃ pass keepaliveAt, w.pass = some pass ∧ 0 < pass.ttl ∧ row.keepaliveAt = some keepaliveAt
      ∧ seconds pass.ttl < w.now - keepaliveAt := by
  have hs := run_stale h₀ hr hg
  obtain ⟨pass, hpass, hw⟩ := step_registry h
  have hrows : w'.registry.rows topic = none := by simp [World.registry, hgone]
  have hr' : w.registry.rows topic = some row.registration := by simp [World.registry, hrow]
  rw [hw] at hrows
  simp only [Registry.written, hr', Option.map_some, ite_eq_left_iff, reduceCtorEq, imp_false,
    not_not] at hrows
  obtain ⟨hpos, keepaliveAt, hk, hlt⟩ := hs pass hpass topic hrows _ hr'
  exact ⟨pass, keepaliveAt, hpass, hpos, hk, hlt⟩

end

section Witness

open Reference

/-- A worker that is about to delete a registration that is two seconds old, with a ttl of one. -/
def expiresChat : List Event :=
  [.createExtension, .reload { Settings.default with subscriptionTtl := 1 },
    .insert "/chat" (some "std_msgs/msg/String") 0 (some 0), .startWorker 1, .beginSession,
    .advance 2000000, .spun, .flush, .readDesired (.ok .granted)]

/-- The registration is refreshed between the two transactions. -/
theorem refreshed_registration_deleted : ∃ w w' pass row,
    run World.step (.initial .default) (expiresChat ++ [.keepalive "/chat" (some 2000000)])
        = some w
      ∧ w.step .writeBack = some w' ∧ w.row "/chat" = some row ∧ w'.row "/chat" = none
      ∧ w.pass = some pass ∧ pass.ttl = 1 ∧ row.keepaliveAt = some w.now := by
  have h : ((run World.step (.initial .default)
      (expiresChat ++ [.keepalive "/chat" (some 2000000)])).any fun w =>
    (w.step .writeBack).any fun w' => (w.row "/chat").any fun row => w.pass.any fun pass =>
      decide (w'.row "/chat" = none ∧ pass.ttl = 1 ∧ row.keepaliveAt = some w.now)) = true := by
    decide +kernel
  simp only [Option.any_eq_true, decide_eq_true_eq] at h
  obtain ⟨w, hr, w', hw, row, hrow, pass, hpass, hgone, httl, hk⟩ := h
  exact ⟨w, w', pass, row, hr, hw, hrow, hgone, hpass, httl, hk⟩

theorem expired_registration_deleted : ∃ w w' row keepaliveAt,
    run World.step (.initial .default) expiresChat = some w ∧ w.step .writeBack = some w'
      ∧ w.row "/chat" = some row ∧ w'.row "/chat" = none
      ∧ row.keepaliveAt = some keepaliveAt ∧ seconds 1 < w.now - keepaliveAt := by
  have h : ((run World.step (.initial .default) expiresChat).any fun w =>
      (w.step .writeBack).any fun w' => (w.row "/chat").any fun row => w.pass.any fun pass =>
        decide (w'.row "/chat" = none ∧ pass.ttl = 1)) = true := by
    decide +kernel
  have hg : Along World.step ExpiryGuard (.initial .default) expiresChat := by decide +kernel
  simp only [Option.any_eq_true, decide_eq_true_eq] at h
  obtain ⟨w, hr, w', hw, row, hrow, pass, hpass, hgone, httl⟩ := h
  obtain ⟨pass', keepaliveAt, hpass', -, hk, hlt⟩ :=
    deleted_registration_expired rfl hr hg hw hrow hgone
  rw [hpass, Option.some.injEq] at hpass'
  exact ⟨w, w', row, keepaliveAt, hr, hw, hrow, hgone, hk, httl ▸ hpass' ▸ hlt⟩

end Witness

end PgRos2
