import PgRos2.Proofs.Expiry
import PgRos2.Proofs.Payload

/-!
# Cached messages and their registrations

The messages of a topic that were received before an instant are followed through the mailbox and
the table by two tags (`Tagged`). Reconcile deletes a cached message when it drops the live
subscription, so a message outlives its registration where the live map does not tell: an `INSERT`
that comes before reconcile has seen the `DELETE`, a `DELETE` of a topic that is not live, and a
live map that is lost before reconcile has used it. In every run without these, no message of a
deleted registration is left once a reconcile has read the table (`cached_message_received_after`).
-/

namespace PgRos2

open Lib

/-- The topics a flush stores a message of. -/
def Act.flushed : Act → List String
  | .flush stored => stored
  | _ => []

namespace Registry

variable {R R' : Registry} {a : Act}

/-- Every cached message belongs to a registration, or is about to be deleted. -/
structure Accounted (R : Registry) : Prop where
  pending_live : ∀ t ∈ R.pending, (R.live t).isSome
  cached : ∀ t ∈ R.cached, (R.rows t).isSome ∨ (R.live t).isSome
    ∨ ∃ pass ∈ R.pass, t ∈ pass.removed ∨ t ∈ pass.expired

/-- An `INSERT` finds no message of its topic, unless the pass under way is about to delete it with
the subscription that was dropped; a `DELETE` of a cached topic finds it live, or about to be
deleted; and the live map is lost only while every cached topic is registered, and none is about to
be deleted with its subscription. -/
structure Tells (R : Registry) (a : Act) : Prop where
  insert : ∀ topic requestedType keepaliveAt, a = .insert topic requestedType keepaliveAt →
    topic ∉ R.pending ∧ (topic ∈ R.cached → ∃ pass ∈ R.pass, topic ∈ pass.removed)
  delete : ∀ topic, a = .delete topic → topic ∈ R.cached → (R.rows topic).isSome →
    (R.live topic).isSome ∨ ∃ pass ∈ R.pass, topic ∈ pass.removed ∨ topic ∈ pass.expired
  lose : a = .lose → ∀ t ∈ R.cached,
    (R.rows t).isSome ∧ ∀ pass ∈ R.pass, t ∉ pass.removed

/-- A live topic without a row loses its subscription and its message. -/
theorem Reads.removes {answers : SubscribeAnswers} {ttl limit : ℕ}
    {live : String → Option String} {pass : Pass} (hr : R.Reads answers ttl limit live pass)
    {t : String} (hrow : R.rows t = none) (hlive : (R.live t).isSome) :
    ∃ p ∈ if pass.isEmpty then none else some pass, t ∈ p.removed := by
  have hm : t ∈ pass.removed := (hr.mem_removed t).mpr ⟨by rw [verdict, hrow], hlive⟩
  have hne : pass.removed ≠ [] := List.ne_nil_of_mem hm
  have he : ¬ pass.isEmpty = true := by simp [Pass.isEmpty, hne]
  refine ⟨pass, ?_, hm⟩
  rw [if_neg he]
  rfl

/-- An old message that the pass before did not see to is seen to by this one. -/
theorem Reads.removes_old {answers : SubscribeAnswers} {ttl limit : ℕ}
    {live : String → Option String} {pass : Pass} (hr : R.Reads answers ttl limit live pass)
    {t : String} (hpass : R.pass = none)
    (h : (R.rows t = none ∧ ((R.live t).isSome ∨ ∃ pass ∈ R.pass, t ∈ pass.expired))
      ∨ ∃ pass ∈ R.pass, t ∈ pass.removed) :
    ∃ p ∈ if pass.isEmpty then none else some pass, t ∈ p.removed := by
  rcases h with ⟨hrow, hlive | ⟨p, hp, -⟩⟩ | ⟨p, hp, -⟩
  · exact hr.removes hrow hlive
  · cases hpass.symm.trans hp
  · cases hpass.symm.trans hp

theorem Accounted.read (h : R.Accounted) (hpass : R.pass = none) {answers : SubscribeAnswers}
    {ttl limit : ℕ} {live : String → Option String} {pass : Pass}
    (hr : R.Reads answers ttl limit live pass) :
    { R with
      live
      pending := {t ∈ R.pending | ∃ kind, R.verdict answers ttl limit t = Verdict.kept kind}
      pass := if pass.isEmpty then none else some pass }.Accounted := by
  refine ⟨fun t ht => ?_, fun t ht => ?_⟩
  · obtain ⟨-, kind, hv⟩ := ht
    simp [hr.live_eq, hv, Verdict.live]
  · rcases h.cached t ht with hrow | hlive | ⟨p, hp, -⟩
    · exact .inl hrow
    · rcases hrow : R.rows t with _ | r
      · obtain ⟨p, hp, hm⟩ := hr.removes hrow hlive
        exact .inr (.inr ⟨p, hp, .inl hm⟩)
      · exact .inl rfl
    · rw [hpass] at hp
      cases hp

theorem Accounted.step (h : R.Accounted) (hs : R.Step a R') (hg : R.Tells a) :
    R'.Accounted := by
  cases a with
  | quiet =>
    obtain ⟨now, -, rfl⟩ := hs
    exact ⟨h.pending_live, h.cached⟩
  | insert topic requestedType keepaliveAt =>
    obtain ⟨-, rfl⟩ := hs
    refine ⟨h.pending_live, fun t ht => (h.cached t ht).imp_left fun hrow => ?_⟩
    by_cases htopic : t = topic
    · simp [htopic]
    · simpa [Function.update_of_ne htopic] using hrow
  | delete topic =>
    subst hs
    refine ⟨h.pending_live, fun t ht => ?_⟩
    by_cases htopic : t = topic
    · subst htopic
      rcases h.cached t ht with hrow | hother
      · exact .inr (hg.delete t rfl ht hrow)
      · exact .inr hother
    · simpa [Function.update_of_ne htopic] using h.cached t ht
  | keepalive topic keepaliveAt =>
    subst hs
    refine ⟨h.pending_live, fun t ht => (h.cached t ht).imp_left fun hrow => ?_⟩
    by_cases htopic : t = topic
    · subst htopic
      simpa using hrow
    · simpa [Function.update_of_ne htopic] using hrow
  | drop =>
    subst hs
    exact ⟨h.pending_live, fun t ht => ht.elim⟩
  | lose =>
    subst hs
    exact ⟨fun t ht => ht.elim, fun t ht => .inl (hg.lose rfl t ht).1⟩
  | receive topic =>
    obtain ⟨-, hlive, pending, -, hsub, rfl⟩ := hs
    refine ⟨fun t ht => ?_, h.cached⟩
    rcases hsub ht with rfl | ht
    · exact hlive
    · exact h.pending_live t ht
  | flush stored =>
    obtain ⟨-, hstored, rfl⟩ := hs
    refine ⟨fun t ht => ht.elim, fun t ht => ?_⟩
    rcases ht with ht | ht
    · exact h.cached t ht
    · exact .inr (.inl (h.pending_live t (hstored t ht)))
  | read answers ttl limit =>
    obtain ⟨hpass, live, pass, hr, rfl⟩ := hs
    exact h.read hpass hr
  | write =>
    obtain ⟨pass, hpass, rfl⟩ := hs
    refine ⟨h.pending_live, fun t ht => ?_⟩
    obtain ⟨hcached, hremoved, hexpired⟩ := ht
    rcases h.cached t hcached with hrow | hlive | ⟨p, hp, hgone⟩
    · exact .inl (by simpa [written, hexpired] using hrow)
    · exact .inr (.inl hlive)
    · rw [hpass] at hp
      cases hp
      exact absurd hgone (by simp [hremoved, hexpired])

/-! ## The messages of a topic from before an instant -/

/-- What a step does to the tags of a topic: the pending message is an old one as long as it stays
in the mailbox, and a flush moves its tag to the cached one. -/
structure Retags (R R' : Registry) (a : Act) (t : String) (p c p' c' : Bool) : Prop where
  pending : p' = true → p = true ∧ (t ∈ R'.pending → t ∈ R.pending)
  cached : c' = if t ∈ a.flushed then p else c

/-- Between the `DELETE` of a topic and the next read. An old message is pending only without a
row, and an old message is cached only where the next read or the pass under way sees to it. -/
structure Tracks (R : Registry) (t : String) (p c : Bool) : Prop where
  pending : p = true → t ∈ R.pending → R.rows t = none
  cached : c = true → t ∈ R.cached →
    (R.rows t = none ∧ ((R.live t).isSome ∨ ∃ pass ∈ R.pass, t ∈ pass.expired))
      ∨ ∃ pass ∈ R.pass, t ∈ pass.removed

/-- From the read on: no old message is pending, and the pass under way deletes a cached one. -/
structure Settles (R : Registry) (t : String) (p c : Bool) : Prop where
  pending : p = true → t ∉ R.pending
  cached : c = true → t ∈ R.cached → ∃ pass ∈ R.pass, t ∈ pass.removed

/-- No old message is left. -/
structure Fresh (R : Registry) (t : String) (p c : Bool) : Prop where
  pending : p = true → t ∉ R.pending
  cached : c = true → t ∉ R.cached

variable {t : String} {p c p' c' : Bool}

theorem Retags.old (ht : Retags R R' a t p c p' c') (hc' : c' = true) :
    (t ∈ a.flushed ∧ p = true) ∨ (t ∉ a.flushed ∧ c = true) := by
  rw [ht.cached] at hc'
  split at hc'
  · exact .inl ⟨‹_›, hc'⟩
  · exact .inr ⟨‹_›, hc'⟩

/-- Only a flush makes a cached message, of one that was pending. -/
theorem Step.flushed_pending (hs : R.Step a R') (h : t ∈ a.flushed) : t ∈ R.pending := by
  cases a with
  | flush stored => exact hs.2.1 t h
  | _ => cases h

theorem Step.mem_cached (hs : R.Step a R') (h : t ∈ R'.cached) (ht : t ∉ a.flushed) :
    t ∈ R.cached := by
  cases a with
  | quiet =>
    obtain ⟨now, -, rfl⟩ := hs
    exact h
  | insert topic requestedType keepaliveAt =>
    obtain ⟨-, rfl⟩ := hs
    exact h
  | drop =>
    subst hs
    exact h.elim
  | receive topic =>
    obtain ⟨-, -, pending, -, -, rfl⟩ := hs
    exact h
  | flush stored =>
    obtain ⟨-, -, rfl⟩ := hs
    exact h.resolve_right ht
  | read answers ttl limit =>
    obtain ⟨-, live, pass, -, rfl⟩ := hs
    exact h
  | write =>
    obtain ⟨pass, -, rfl⟩ := hs
    exact h.1
  | _ =>
    subst hs
    exact h

/-- A pass stays under way until it is written back, or lost. -/
theorem Step.mem_pass (hs : R.Step a R') {pass : Pass} (h : pass ∈ R.pass) (hl : a ≠ .lose)
    (hw : a ≠ .write) : pass ∈ R'.pass := by
  cases a with
  | quiet =>
    obtain ⟨now, -, rfl⟩ := hs
    exact h
  | insert topic requestedType keepaliveAt =>
    obtain ⟨-, rfl⟩ := hs
    exact h
  | lose => exact absurd rfl hl
  | receive topic =>
    obtain ⟨-, -, pending, -, -, rfl⟩ := hs
    exact h
  | flush stored =>
    obtain ⟨-, -, rfl⟩ := hs
    exact h
  | read answers ttl limit =>
    obtain ⟨hpass, -⟩ := hs
    rw [hpass] at h
    cases h
  | write => exact absurd rfl hw
  | _ =>
    subst hs
    exact h

/-- Only an `INSERT` makes a row. -/
theorem Step.rows_eq_none (hs : R.Step a R') (h : R.rows t = none)
    (ha : ∀ requestedType keepaliveAt, a ≠ .insert t requestedType keepaliveAt) :
    R'.rows t = none := by
  cases a with
  | quiet =>
    obtain ⟨now, -, rfl⟩ := hs
    exact h
  | insert topic requestedType keepaliveAt =>
    obtain ⟨-, rfl⟩ := hs
    have ht : t ≠ topic := by
      rintro rfl
      exact ha requestedType keepaliveAt rfl
    simpa [Function.update_of_ne ht] using h
  | delete topic =>
    subst hs
    by_cases ht : t = topic
    · simp [ht]
    · simpa [Function.update_of_ne ht] using h
  | keepalive topic keepaliveAt =>
    subst hs
    by_cases ht : t = topic
    · simp [← ht, h]
    · simpa [Function.update_of_ne ht] using h
  | drop =>
    subst hs
    rfl
  | lose =>
    subst hs
    exact h
  | receive topic =>
    obtain ⟨-, -, pending, -, -, rfl⟩ := hs
    exact h
  | flush stored =>
    obtain ⟨-, -, rfl⟩ := hs
    exact h
  | read answers ttl limit =>
    obtain ⟨-, live, pass, -, rfl⟩ := hs
    exact h
  | write =>
    obtain ⟨pass, -, rfl⟩ := hs
    simp [written, h]

/-- The `DELETE` itself. -/
theorem tracks_of_delete (h : R.Accounted) (hs : R.Step (.delete t) R')
    (hg : R.Tells (.delete t)) : R'.Tracks t p c := by
  subst hs
  refine ⟨fun _ _ => by simp, fun _ hc => ?_⟩
  have hother : (R.live t).isSome ∨ ∃ pass ∈ R.pass, t ∈ pass.removed ∨ t ∈ pass.expired := by
    rcases h.cached t hc with hrow | hother
    · exact hg.delete t rfl hc hrow
    · exact hother
  rcases hother with hlive | ⟨pass, hp, hremoved | hexpired⟩
  · exact .inl ⟨by simp, .inl hlive⟩
  · exact .inr ⟨pass, hp, hremoved⟩
  · exact .inl ⟨by simp, .inr ⟨pass, hp, hexpired⟩⟩

theorem Tracks.step (h : R.Tracks t p c) (hacc : R.Accounted) (hs : R.Step a R')
    (hg : R.Tells a) (ht : Retags R R' a t p c p' c') : R'.Tracks t p' c' := by
  refine ⟨fun hp' hpending => ?_, fun hc' hcached => ?_⟩
  · obtain ⟨hp, hkeep⟩ := ht.pending hp'
    refine hs.rows_eq_none (h.pending hp (hkeep hpending)) fun requestedType keepaliveAt ha => ?_
    exact (hg.insert t requestedType keepaliveAt ha).1 (hkeep hpending)
  · rcases ht.old hc' with ⟨hm, hp⟩ | ⟨hm, hc⟩
    · -- what a flush moves into the table has a live subscription, and no row as it is old
      have hpending := hs.flushed_pending hm
      have hlive := hacc.pending_live t hpending
      have hrow := h.pending hp hpending
      cases a with
      | flush stored =>
        obtain ⟨-, -, rfl⟩ := hs
        exact .inl ⟨hrow, .inl hlive⟩
      | _ => cases hm
    · have hold := h.cached hc (hs.mem_cached hcached hm)
      have hnone (hrow : R.rows t = none) (ha : ∀ requestedType keepaliveAt,
          a ≠ .insert t requestedType keepaliveAt) := hs.rows_eq_none hrow ha
      cases a with
      | quiet =>
        obtain ⟨now, -, rfl⟩ := hs
        exact hold
      | insert topic requestedType keepaliveAt =>
        obtain ⟨-, rfl⟩ := hs
        by_cases htopic : t = topic
        · subst htopic
          exact .inr ((hg.insert t requestedType keepaliveAt rfl).2 hcached)
        · simpa [Function.update_of_ne htopic] using hold
      | delete topic =>
        subst hs
        exact hold.imp_left fun ⟨hrow, hother⟩ => ⟨hnone hrow fun _ _ => nofun, hother⟩
      | keepalive topic keepaliveAt =>
        subst hs
        exact hold.imp_left fun ⟨hrow, hother⟩ => ⟨hnone hrow fun _ _ => nofun, hother⟩
      | drop =>
        subst hs
        exact hcached.elim
      | lose =>
        subst hs
        obtain ⟨hrow, hremoved⟩ := hg.lose rfl t hcached
        rcases hold with ⟨hnone, -⟩ | ⟨pass, hp, hm⟩
        · rw [hnone] at hrow
          cases hrow
        · exact absurd hm (hremoved pass hp)
      | receive topic =>
        obtain ⟨-, -, pending, -, -, rfl⟩ := hs
        exact hold
      | flush stored =>
        obtain ⟨-, -, rfl⟩ := hs
        exact hold
      | read answers ttl limit =>
        obtain ⟨hpass, live, pass, hr, rfl⟩ := hs
        exact .inr (hr.removes_old hpass hold)
      | write =>
        obtain ⟨pass, hpass, rfl⟩ := hs
        obtain ⟨-, hremoved, hexpired⟩ := hcached
        rcases hold with ⟨hrow, hlive | ⟨p, hp, hm⟩⟩ | ⟨p, hp, hm⟩
        · exact .inl ⟨by simp [written, hrow], .inl hlive⟩
        · cases hpass.symm.trans hp
          exact absurd hm hexpired
        · cases hpass.symm.trans hp
          exact absurd hm hremoved

/-- The read sees to the old messages that are left. -/
theorem Tracks.read (h : R.Tracks t p c) {answers : SubscribeAnswers} {ttl limit : ℕ}
    (hs : R.Step (.read answers ttl limit) R')
    (ht : Retags R R' (.read answers ttl limit) t p c p' c') : R'.Settles t p' c' := by
  obtain ⟨hpass, live, pass, hr, rfl⟩ := hs
  refine ⟨fun hp' hpending => ?_, fun hc' hcached => ?_⟩
  · obtain ⟨hpending, kind, hv⟩ := hpending
    have hrow := h.pending (ht.pending hp').1 hpending
    rw [verdict, hrow] at hv
    cases hv
  · rcases ht.old hc' with ⟨hm, -⟩ | ⟨-, hc⟩
    · cases hm
    · exact hr.removes_old hpass (h.cached hc hcached)

/-- From the read on, a cached message that is an old one waits for the write-back. -/
theorem Settles.step (h : R.Settles t p c) (hs : R.Step a R') (hg : R.Tells a)
    (ht : Retags R R' a t p c p' c') : R'.Settles t p' c' := by
  refine ⟨fun hp' hpending => ?_, fun hc' hcached => ?_⟩
  · obtain ⟨hp, hkeep⟩ := ht.pending hp'
    exact h.pending hp (hkeep hpending)
  · rcases ht.old hc' with ⟨hm, hp⟩ | ⟨hm, hc⟩
    · exact absurd (hs.flushed_pending hm) (h.pending hp)
    · have hold := hs.mem_cached hcached hm
      obtain ⟨pass, hpass, hremoved⟩ := h.cached hc hold
      by_cases hl : a = .lose
      · exact absurd hremoved ((hg.lose hl t hold).2 pass hpass)
      · by_cases hw : a = .write
        · subst hw
          obtain ⟨pass', hpass', rfl⟩ := hs
          cases hpass.symm.trans hpass'
          exact absurd hremoved hcached.2.1
        · exact ⟨pass, hs.mem_pass hpass hl hw, hremoved⟩

/-- The pass is over. -/
theorem Settles.fresh (h : R.Settles t p c) (hpass : R.pass = none) : R.Fresh t p c := by
  refine ⟨h.pending, fun hc hcached => ?_⟩
  obtain ⟨pass, hp, -⟩ := h.cached hc hcached
  rw [hpass] at hp
  cases hp

theorem Fresh.step (h : R.Fresh t p c) (hs : R.Step a R') (ht : Retags R R' a t p c p' c') :
    R'.Fresh t p' c' := by
  refine ⟨fun hp' hpending => ?_, fun hc' hcached => ?_⟩
  · obtain ⟨hp, hkeep⟩ := ht.pending hp'
    exact h.pending hp (hkeep hpending)
  · rcases ht.old hc' with ⟨hm, hp⟩ | ⟨hm, hc⟩
    · exact h.pending hp (hs.flushed_pending hm)
    · exact h.cached hc (hs.mem_cached hcached hm)

end Registry

/-! ## In the system -/

/-- The system with the two tags of a topic: whether the pending message and the cached one were
received before the tagging began. -/
structure Tagged where
  world : World
  pending : Bool
  cached : Bool

/-- Everything is old when the tagging begins. -/
def Tagged.start (w : World) : Tagged := ⟨w, true, true⟩

section

variable [Rclrs]

def Tagged.step (topic : String) (x : Tagged) (e : Event) : Option Tagged :=
  (x.world.step e).map fun w => {
    world := w
    pending := x.pending && decide (w.pending topic = x.world.pending topic)
    cached := if topic ∈ (x.world.act e).flushed then x.pending else x.cached }

/-- A message of the topic from before the tagging is still cached. -/
def Tagged.Outlives (topic : String) (x : Tagged) : Prop :=
  x.cached = true ∧ (x.world.cached topic).isSome

/-- The topic of a `DELETE`. -/
def Act.deleted : Act → Option String
  | .delete topic => some topic
  | _ => none

/-- Whether the live map is lost. -/
def Act.loses : Act → Bool
  | .lose => true
  | _ => false

/-- The live map tells of every `DELETE`: an `INSERT` finds no message of its topic, pending or
cached, unless the pass under way is about to delete it with the subscription that was dropped; the
`DELETE` of a registered topic with a cached message finds it live, or about to be deleted; and the
live map is lost only while every topic with a cached message is registered, and none is about to
lose it with its subscription. -/
def CacheGuard (w : World) (e : Event) : Prop :=
  (∀ i ∈ (w.act e).inserted, w.pending i.1 = none
    ∧ ((w.cached i.1).isSome → ∃ pass ∈ w.pass, i.1 ∈ pass.removed))
  ∧ (∀ topic ∈ (w.act e).deleted, (w.cached topic).isSome → (w.row topic).isSome →
    (w.live topic).isSome ∨ ∃ pass ∈ w.pass, topic ∈ pass.removed ∨ topic ∈ pass.expired)
  ∧ ((w.act e).loses = true → ∀ ext ∈ w.extension, ∀ topic ∈ ext.messages.keys,
    (w.row topic).isSome ∧ ∀ pass ∈ w.pass, topic ∉ pass.removed)

instance (w : World) (e : Event) : Decidable (CacheGuard w e) :=
  inferInstanceAs (Decidable ((∀ i ∈ (w.act e).inserted, _ ∧ (_ → _))
    ∧ (∀ topic ∈ (w.act e).deleted, _ → _ → _) ∧ (_ → ∀ ext ∈ w.extension, ∀ topic ∈ _, _)))

variable {w : World} {e : Event}

theorem tells_of_guard (h : CacheGuard w e) : w.registry.Tells (w.act e) := by
  obtain ⟨hi, hd, hl⟩ := h
  refine ⟨fun topic requestedType keepaliveAt ha => ?_, fun topic ha hc hr => ?_,
    fun ha t hc => ?_⟩
  · rw [ha] at hi
    obtain ⟨hp, hc⟩ := hi (topic, requestedType) rfl
    exact ⟨by simp [World.registry, hp], hc⟩
  · rw [ha] at hd
    rcases hd topic rfl hc (by simpa [World.registry] using hr) with hlive | hother
    · exact .inl (by simpa [World.registry] using hlive)
    · exact .inr hother
  · rw [ha] at hl
    have hc : (w.cached t).isSome := hc
    rcases hx : w.extension with _ | ext
    · simp [World.cached, hx] at hc
    · have hmem : t ∈ ext.messages.keys := by
        rw [← AList.mem_keys, ← AList.lookup_isSome]
        simpa [World.cached, hx] using hc
      obtain ⟨hrow, hp⟩ := hl rfl ext hx t hmem
      exact ⟨by simpa [World.registry] using hrow, hp⟩

theorem tagged_step {topic : String} {x x' : Tagged} (h : x.step topic e = some x') :
    x.world.step e = some x'.world
      ∧ Registry.Retags x.world.registry x'.world.registry (x.world.act e) topic x.pending
        x.cached x'.pending x'.cached := by
  obtain ⟨w', hw, rfl⟩ := Option.map_eq_some_iff.mp h
  refine ⟨hw, fun hp => ?_, rfl⟩
  simp only [Bool.and_eq_true, decide_eq_true_eq] at hp
  refine ⟨hp.1, fun hm => ?_⟩
  have hm : (w'.pending topic).isSome := hm
  rw [hp.2] at hm
  exact hm

theorem tagged_world {topic : String} (x : Tagged) (e : Event) (x' : Tagged)
    (h : x.step topic e = some x') : x.world.step e = some x'.world :=
  (tagged_step h).1

/-- Every cached message is accounted for, in every run in which the live map tells of every
`DELETE`. -/
theorem run_accounted {w₀ : World} {es : List Event} (h₀ : w₀.worker = none)
    (hreg : ∀ t, (w₀.cached t).isSome → (w₀.row t).isSome)
    (hr : run World.step w₀ es = some w) (hg : Along World.step CacheGuard w₀ es) :
    w.registry.Accounted := by
  refine run_inv (I := fun w => w.registry.Accounted) ?_ hg hr ?_
  · intro w e w' hw hg h
    exact hw.step (step_registry h) (tells_of_guard hg)
  · refine ⟨fun t ht => ?_, fun t ht => .inl ?_⟩
    · have ht : (w₀.pending t).isSome := ht
      simp [World.pending, World.live, h₀] at ht
    · simpa [World.registry] using hreg t ht

/-- The invariant from the `DELETE` to the next read. -/
theorem run_tracks {topic : String} {x x' : Tagged} {es : List Event}
    (hacc : x.world.registry.Accounted)
    (hx : x.world.registry.Tracks topic x.pending x.cached)
    (hr : run (Tagged.step topic) x es = some x')
    (hg : Along (Tagged.step topic) (fun x e => CacheGuard x.world e) x es) :
    x'.world.registry.Tracks topic x'.pending x'.cached := by
  have h := run_inv (I := fun x => x.world.registry.Accounted
      ∧ x.world.registry.Tracks topic x.pending x.cached) (fun x e x' hI hg h => ?_) hg hr
    ⟨hacc, hx⟩
  · exact h.2
  · obtain ⟨hw, ht⟩ := tagged_step h
    have hs := step_registry hw
    have hg := tells_of_guard hg
    exact ⟨hI.1.step hs hg, hI.2.step hI.1 hs hg ht⟩

/-- The invariant from the read on. -/
theorem run_settles {topic : String} {x x' : Tagged} {es : List Event}
    (hx : x.world.registry.Settles topic x.pending x.cached)
    (hr : run (Tagged.step topic) x es = some x')
    (hg : Along (Tagged.step topic) (fun x e => CacheGuard x.world e) x es) :
    x'.world.registry.Settles topic x'.pending x'.cached :=
  run_inv (I := fun x => x.world.registry.Settles topic x.pending x.cached)
    (fun _ _ _ hI hg h => hI.step (step_registry (tagged_step h).1) (tells_of_guard hg)
      (tagged_step h).2) hg hr hx

/-- The invariant once the reconcile is over. -/
theorem run_fresh {topic : String} {x x' : Tagged} {es : List Event}
    (hx : x.world.registry.Fresh topic x.pending x.cached)
    (hr : run (Tagged.step topic) x es = some x') :
    x'.world.registry.Fresh topic x'.pending x'.cached :=
  run_invariant (I := fun x => x.world.registry.Fresh topic x.pending x.cached)
    (fun _ _ _ hI h => hI.step (step_registry (tagged_step h).1) (tagged_step h).2) hr hx

/-- After a `DELETE` of a topic, once a reconcile that read the table has completed (no pass is
under way), no message of the topic from before the `DELETE` is cached any more: in every run in
which the live map tells of every `DELETE`. -/
theorem cached_message_received_after {w₀ w₁ : World} {x₁ x₂ x : Tagged}
    {es₁ es₂ es₃ es₄ : List Event} {topic : String} {answers : SubscribeAnswers}
    (h₀ : w₀.worker = none) (hreg : ∀ t, (w₀.cached t).isSome → (w₀.row t).isSome)
    (hr₁ : run World.step w₀ es₁ = some w₁)
    (hr₂ : run (Tagged.step topic) (.start w₁) (.delete topic :: es₂) = some x₁)
    (hreads : x₁.world.Reads)
    (hr₃ : run (Tagged.step topic) x₁ (.readDesired (.ok answers) :: es₃) = some x₂)
    (hdone : x₂.world.pass = none) (hr₄ : run (Tagged.step topic) x₂ es₄ = some x)
    (hg : Along World.step CacheGuard w₀
      (es₁ ++ (.delete topic :: es₂ ++ .readDesired (.ok answers) :: es₃))) :
    ¬ x.Outlives topic := by
  have hacc := run_accounted h₀ hreg hr₁ hg.left
  have hg₁ : Along (Tagged.step topic) (fun x e => CacheGuard x.world e) (.start w₁)
      (.delete topic :: es₂ ++ .readDesired (.ok answers) :: es₃) :=
    Along.lift tagged_world (hg.append hr₁)
  have hg₂ := hg₁.append hr₂
  obtain ⟨y, hy, hr₂⟩ := run_cons_eq_some.mp hr₂
  obtain ⟨z, hz, hr₃⟩ := run_cons_eq_some.mp hr₃
  -- the `DELETE`, and the run up to the read
  have hdelete := step_registry (tagged_step hy).1
  have htells := tells_of_guard hg₁.1
  have hx₁ := run_tracks (hacc.step hdelete htells)
    (Registry.tracks_of_delete hacc hdelete htells) hr₂ (hg₁.left.2 y hy)
  -- the read, and the run up to the end of its reconcile
  obtain ⟨hw, htags⟩ := tagged_step hz
  have hread := step_registry hw
  rw [World.act, if_pos hreads] at hread htags
  have hx₂ := run_settles (hx₁.read hread htags) hr₃ (hg₂.2 z hz)
  have hx := run_fresh (hx₂.fresh hdone) hr₄
  rintro ⟨hc, hm⟩
  exact hx.cached hc hm

end

section Witness

open Reference

/-- A worker that has cached a message. -/
def cachesChat : List Event :=
  servesChat ++ [.tick .idle, .observe (.error "timeout"),
    .message "/chat" stringType ("hi", ()), .advance 250000, .spun, .flush]

/-- The live map is lost with the worker, and the topic is deleted before the next one reads. -/
theorem message_outlives_registration : ∃ w₁ x₁ x₂,
    run World.step (.initial .default) (cachesChat ++ [.crash]) = some w₁
      ∧ run (Tagged.step "/chat") (.start w₁)
        [.delete "/chat", .startWorker 2, .beginSession, .spun, .flush] = some x₁
      ∧ x₁.world.Reads ∧ x₁.step "/chat" (.readDesired (.ok .granted)) = some x₂
      ∧ x₂.world.pass = none ∧ x₂.Outlives "/chat" := by
  have h : ((run World.step (.initial .default) (cachesChat ++ [.crash])).any fun w₁ =>
      (run (Tagged.step "/chat") (.start w₁)
        [.delete "/chat", .startWorker 2, .beginSession, .spun, .flush]).any fun x₁ =>
          decide x₁.world.Reads && (x₁.step "/chat" (.readDesired (.ok .granted))).any fun x₂ =>
            x₂.world.pass.isNone && (x₂.cached && (x₂.world.cached "/chat").isSome)) = true := by
    decide +kernel
  simp only [Option.any_eq_true, Bool.and_eq_true, decide_eq_true_eq,
    Option.isNone_iff_eq_none] at h
  obtain ⟨w₁, hr₁, x₁, hr₂, hreads, x₂, hstep, hdone, hc, hm⟩ := h
  exact ⟨w₁, x₁, x₂, hr₁, hr₂, hreads, hstep, hdone, hc, hm⟩

/-- The topic is deleted while it is live, and registered anew after the reconcile. -/
theorem message_deleted_with_registration : ∃ w₁ x₁ x₂ x,
    run World.step (.initial .default) cachesChat = some w₁
      ∧ run (Tagged.step "/chat") (.start w₁) [.delete "/chat"] = some x₁
      ∧ run (Tagged.step "/chat") x₁ [.readDesired (.ok .granted), .writeBack] = some x₂
      ∧ run (Tagged.step "/chat") x₂ [.insert "/chat" none 0 none] = some x
      ∧ ¬ x.Outlives "/chat" := by
  have h : ((run World.step (.initial .default) cachesChat).any fun w₁ =>
      (run (Tagged.step "/chat") (.start w₁) [.delete "/chat"]).any fun x₁ =>
        decide x₁.world.Reads
          && (run (Tagged.step "/chat") x₁ [.readDesired (.ok .granted), .writeBack]).any fun x₂ =>
            x₂.world.pass.isNone
              && (run (Tagged.step "/chat") x₂ [.insert "/chat" none 0 none]).isSome) = true := by
    decide +kernel
  have hg : Along World.step CacheGuard (.initial .default) (cachesChat
      ++ (.delete "/chat" :: [] ++ .readDesired (.ok .granted) :: [.writeBack])) := by
    decide +kernel
  simp only [Option.any_eq_true, Bool.and_eq_true, decide_eq_true_eq, Option.isNone_iff_eq_none,
    Option.isSome_iff_exists] at h
  obtain ⟨w₁, hr₁, x₁, hr₂, hreads, x₂, hr₃, hdone, x, hr₄⟩ := h
  exact ⟨w₁, x₁, x₂, x, hr₁, hr₂, hr₃, hr₄,
    cached_message_received_after rfl (fun _ ht => by cases ht) hr₁ hr₂ hreads hr₃ hdone hr₄ hg⟩

end Witness

end PgRos2
