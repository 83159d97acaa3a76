import PgRos2.Proofs.Republish

/-!
# The times of a topic's rows

`last_message_at` of a registration is the time of the last flush that stored a message of its topic
since the registration was inserted, and then `received_at` of the message that is stored: a flush
writes both in one transaction, and a write-back deletes a message only with its registration or
where there was none when the pass was read. Between the two transactions of a pass a client can
register such a topic, and only anew (`World.Fresh`).

`registered_at` is no end of a transaction but the start of the statement that inserted the row, so
what came first is told by the order of the steps and not by the order of the times.
-/

namespace PgRos2

open Lib

/-- What a registration and the stored message of its topic tell of the messages stored since it was
inserted and of those stored before. -/
structure Subscription.Dated (row : Subscription) (since before : Option Time)
    (cached : Option Message) : Prop where
  last : row.lastMessageAt = since
  received : ∀ s, since = some s → ∃ m, cached = some m ∧ m.receivedAt = s
  earlier : since = none → ∀ m, cached = some m → before = some m.receivedAt

theorem settle_lastMessageAt (result : Except String String) (row : Subscription) :
    (row.settle result).lastMessageAt = row.lastMessageAt := by
  rcases result with error | kind <;> rfl

theorem settled_lastMessageAt (t : String) (pass : Pass) (row : Subscription) :
    (row.settled t pass).lastMessageAt = row.lastMessageAt :=
  settled_keeps settle_lastMessageAt t pass row

theorem flushed_lastMessageAt [Rclrs] (now : Time) (live : Live) (row : Subscription) :
    (row.flushed now live).lastMessageAt
      = if live.message.isSome then some now else row.lastMessageAt := by
  rw [Subscription.flushed, errors_keeps settle_lastMessageAt]
  split_ifs <;> rfl

theorem registeredAt_eq {row row' : Subscription} (h : row'.owned = row.owned) :
    row'.registeredAt = row.registeredAt :=
  congrArg (fun owned => owned.2.1) h

section Steps

variable [Rclrs] {w w' : World} {e : Event} {t : String}

/-- A topic whose message a write-back is about to delete has no registration, or a new one. -/
def World.Fresh (w : World) (t : String) : Prop :=
  ∀ pass, w.pass = some pass → t ∈ pass.removed → ∀ row, w.row t = some row →
    row.lastMessageAt = none

/-- A pass that is new after a step removes only topics without a registration. -/
theorem pass_step (h : w.step e = some w') {pass : Pass} (hp : w'.pass = some pass) :
    w.pass = some pass ∨ ∀ t ∈ pass.removed, w'.row t = none := by
  have hs := step_registry h
  have hpass : w'.registry.pass = some pass := hp
  rcases ha : w.act e with _ | _ | _ | _ | _ | _ | _ | _ | _ | _ <;> rw [ha] at hs
  case quiet =>
    obtain ⟨now, -, hR⟩ := hs
    rw [hR] at hpass
    exact .inl hpass
  case insert =>
    obtain ⟨-, hR⟩ := hs
    rw [hR] at hpass
    exact .inl hpass
  case receive =>
    obtain ⟨hnone, -, pending, -, -, hR⟩ := hs
    rw [hR] at hpass
    exact .inl hpass
  case flush =>
    obtain ⟨hnone, -, hR⟩ := hs
    rw [hR] at hpass
    exact .inl hpass
  case read answers ttl limit =>
    obtain ⟨-, live, pass', hreads, hR⟩ := hs
    refine .inr fun t ht => ?_
    rw [hR] at hpass
    have hpass : (if pass'.isEmpty then none else some pass') = some pass := hpass
    split_ifs at hpass
    cases hpass
    have hrow : w'.registry.rows t = w.registry.rows t := by rw [hR]
    have habsent := ((hreads.mem_removed t).mp ht).1
    have hnone : w.registry.rows t = none := by
      unfold Registry.verdict at habsent
      rcases hrow : w.registry.rows t with _ | r
      · rfl
      · rw [hrow] at habsent
        simp only at habsent
        split_ifs at habsent
        split at habsent
        · cases habsent
        · split at habsent <;> cases habsent
    exact Option.map_eq_none_iff.mp (hrow.trans hnone)
  case write =>
    obtain ⟨pass', -, hR⟩ := hs
    rw [hR] at hpass
    cases hpass
  case lose =>
    rw [hs] at hpass
    cases hpass
  all_goals
    rw [hs] at hpass
    exact .inl hpass

/-- What a step leaves of a row a pass is about to lose the message of. -/
theorem World.Fresh.step (hf : w.Fresh t) (h : w.step e = some w') : w'.Fresh t := by
  intro pass hp ht row hr
  rcases pass_step h hp with hpass | hnone
  · have hold := hf pass hpass ht
    cases step_rows t h with
    | keep _ hrow _ _ => exact hold row (hrow ▸ hr)
    | drop hrow _ => exact absurd (hrow.symm.trans hr) nofun
    | insert _ _ hrow _ =>
      rw [hrow, Option.some.injEq] at hr
      exact hr ▸ rfl
    | delete hrow _ => exact absurd (hrow.symm.trans hr) nofun
    | keepalive hrow _ =>
      rw [hrow] at hr
      obtain ⟨row', hr', rfl⟩ := Option.map_eq_some_iff.mp hr
      exact hold row' hr'
    | flush _ _ _ _ _ =>
      obtain ⟨o, s, now, hphase, -⟩ := step_spec h
      exact absurd ((pass_of_phase hphase).symm.trans hpass) nofun
    | write _ hrow _ =>
      rw [hrow] at hr
      split_ifs at hr
      obtain ⟨row', hr', rfl⟩ := Option.map_eq_some_iff.mp hr
      rw [settled_lastMessageAt]
      exact hold row' hr'
  · rw [hnone t ht] at hr
    cases hr

/-- A client inserts the row, with these columns of its own. -/
def World.Registers (t : String) (row : Subscription) (w : World) (e : Event) : Prop :=
  w.extension.isSome ∧ w.row t = none
    ∧ ∃ keepaliveAt, e = .insert t row.requestedType row.registeredAt keepaliveAt

variable {settings : Settings} {es before after : List Event} {m : World}

/-- The run is past the insert of a row of the topic, which stayed since. -/
abbrev World.Registered (settings : Settings) (t : String) (row : Subscription)
    (es before : List Event) (m : World) (after : List Event) : Prop :=
  Since World.step (World.Registers t row) (fun w _ => (w.row t).isSome) (.initial settings)
    es before m after

/-- The times of a topic's rows after the events. -/
structure World.Dated (settings : Settings) (t : String) (es : List Event) (w : World) : Prop where
  row : ∀ row, w.row t = some row → ∃ before m after,
    World.Registered settings t row es before m after
      ∧ row.Dated (history World.step (World.stores t) m after).getLast?
        (history World.step (World.stores t) (.initial settings) before).getLast? (w.cached t)
  cached : ∀ m, w.cached t = some m →
    (history World.step (World.stores t) (.initial settings) es).getLast? = some m.receivedAt
  fresh : w.Fresh t

/-- A row after a step is one a client inserts, or one that stayed with the time of a flush. -/
theorem row_dated (h : w.step e = some w') {row' : Subscription} (hr : w'.row t = some row') :
    w.Registers t row' e ∧ row'.lastMessageAt = none
      ∨ ∃ row, w.row t = some row ∧ row'.requestedType = row.requestedType
        ∧ row'.registeredAt = row.registeredAt
        ∧ row'.lastMessageAt = (w.stores t e).or row.lastMessageAt := by
  cases step_rows t h with
  | keep _ hrow _ hstores =>
    exact .inr ⟨row', hrow ▸ hr, rfl, rfl, by rw [hstores, Option.none_or]⟩
  | drop hrow _ => exact absurd (hrow.symm.trans hr) nofun
  | insert hinstalled hnone hrow _ =>
    rw [hrow, Option.some.injEq] at hr
    subst hr
    exact .inl ⟨⟨hinstalled, hnone, _, rfl⟩, rfl⟩
  | delete hrow _ => exact absurd (hrow.symm.trans hr) nofun
  | keepalive hrow _ =>
    rw [hrow] at hr
    obtain ⟨row, hold, rfl⟩ := Option.map_eq_some_iff.mp hr
    exact .inr ⟨row, hold, rfl, rfl, rfl⟩
  | @flush live _ _ hrow _ hstores =>
    rw [hrow] at hr
    obtain ⟨row, hold, rfl⟩ := Option.map_eq_some_iff.mp hr
    have howned := flushed_owned w.now live row
    refine .inr ⟨row, hold, congrArg Prod.fst howned, registeredAt_eq howned, ?_⟩
    rw [flushed_lastMessageAt, hstores]
    split_ifs <;> rfl
  | @write pass _ hrow _ =>
    rw [hrow] at hr
    split_ifs at hr
    obtain ⟨row, hold, rfl⟩ := Option.map_eq_some_iff.mp hr
    have howned := settled_owned t pass row
    exact .inr ⟨row, hold, congrArg Prod.fst howned, registeredAt_eq howned,
      settled_lastMessageAt t pass row⟩

/-- The message after a step is the one it stores, or the one before, or it is gone with its row or
from under a row that tells of none. -/
theorem cached_dated (hf : w.Fresh t) (h : w.step e = some w') :
    (∃ m, w'.cached t = some m ∧ w.stores t e = some m.receivedAt)
      ∨ w.stores t e = none ∧ (w'.cached t = w.cached t
        ∨ w'.cached t = none ∧ ∀ row', w'.row t = some row' → row'.lastMessageAt = none) := by
  cases step_rows t h with
  | keep _ _ hcached hstores => exact .inr ⟨hstores, .inl hcached⟩
  | drop hrow hcached =>
    exact .inr ⟨rfl, .inr ⟨hcached, fun row' hr => absurd (hrow.symm.trans hr) nofun⟩⟩
  | insert _ _ _ hcached | delete _ hcached | keepalive _ hcached => exact .inr ⟨rfl, .inl hcached⟩
  | @flush live _ hstored _ hcached hstores =>
    rcases hm : live.message with _ | m
    · rw [hm] at hcached hstores
      exact .inr ⟨hstores, .inl hcached⟩
    · obtain ⟨value, hvalue⟩ := Option.isSome_iff_exists.mp (hstored m hm)
      rw [hm] at hcached hstores
      simp only [hvalue, Option.map_some] at hcached
      exact .inl ⟨_, hcached, hstores⟩
  | @write pass hpass hrow hcached =>
    refine .inr ⟨rfl, ?_⟩
    by_cases hgone : t ∈ pass.removed ++ pass.expired
    · refine .inr ⟨hcached.trans (if_pos hgone), fun row' hr => ?_⟩
      rw [hrow] at hr
      split_ifs at hr with hexpired
      obtain ⟨row, hold, rfl⟩ := Option.map_eq_some_iff.mp hr
      rw [settled_lastMessageAt]
      exact hf pass hpass ((List.mem_append.mp hgone).resolve_right hexpired) row hold
    · exact .inl (hcached.trans (if_neg hgone))

theorem World.Dated.step (hd : w.Dated settings t es)
    (hr : run World.step (.initial settings) es = some w) (h : w.step e = some w') :
    w'.Dated settings t (es ++ [e]) where
  row row' hrow' := by
    have hcached := cached_dated hd.fresh h
    rcases row_dated h hrow' with ⟨hregisters, hlast⟩ | ⟨row, hrow, hrequested, hregistered, hlast⟩
    · refine ⟨es, w', [], .begin hr hregisters h, hlast, nofun, fun _ m hm => hd.cached m ?_⟩
      obtain ⟨-, -, keepaliveAt, rfl⟩ := hregisters
      rcases hcached with ⟨_, _, hstores⟩ | ⟨-, hsame | ⟨hnone, -⟩⟩
      · cases hstores
      · exact hsame ▸ hm
      · cases hnone.symm.trans hm
    · obtain ⟨before, m, after, hsince, hdated⟩ := hd.row row hrow
      have hregisters : World.Registers t row' = World.Registers t row := by
        unfold World.Registers
        rw [hrequested, hregistered]
      refine ⟨before, m, after ++ [e], ?_, ?_⟩
      · rw [World.Registered, hregisters]
        exact hsince.extend hr (by rw [hrow]; rfl)
      · rw [history_concat_getLast? (hsince.run_eq hr)]
        have hlast' : row'.lastMessageAt = (w.stores t e).or
            (history World.step (World.stores t) m after).getLast? := hdated.last ▸ hlast
        rcases hcached with ⟨stored, hstored, hstores⟩ | ⟨hstores, hsame | ⟨hnone, hnever⟩⟩
        · rw [hstores, Option.some_or]
          rw [hstores, Option.some_or] at hlast'
          exact ⟨hlast', fun s hs => ⟨stored, hstored, Option.some.inj hs⟩, nofun⟩
        · rw [hstores, Option.none_or, hsame]
          rw [hstores, Option.none_or] at hlast'
          exact ⟨hlast', hdated.received, hdated.earlier⟩
        · rw [← hlast', hnever row' hrow', hnone]
          exact ⟨hnever row' hrow', nofun, nofun⟩
  cached stored hstored := by
    rw [history_concat_getLast? hr]
    rcases cached_dated hd.fresh h with ⟨m, hm, hstores⟩ | ⟨hstores, hsame | ⟨hnone, -⟩⟩
    · obtain rfl := Option.some.inj (hm.symm.trans hstored)
      rw [hstores, Option.some_or]
    · rw [hstores, Option.none_or]
      exact hd.cached stored (hsame ▸ hstored)
    · cases hnone.symm.trans hstored
  fresh := hd.fresh.step h

/-- In every run a row that is there was inserted by a client, with its columns, and stayed since.
It tells when the worker last stored a message of its topic after that, and this is the time of the
message that is stored; where the worker stored none, the message that is stored, if any, is the
last one from before the row was inserted. -/
theorem messages_dated (hr : run World.step (.initial settings) es = some w) {row : Subscription}
    (hrow : w.row t = some row) :
    ∃ before m after, World.Registered settings t row es before m after
      ∧ row.lastMessageAt = (history World.step (World.stores t) m after).getLast?
      ∧ (∀ s, row.lastMessageAt = some s → ∃ stored, w.cached t = some stored
        ∧ stored.receivedAt = s)
      ∧ (row.lastMessageAt = none → ∀ stored, w.cached t = some stored →
        (history World.step (World.stores t) (.initial settings) before).getLast?
          = some stored.receivedAt) := by
  have hinitial : (World.initial settings).Dated settings t [] :=
    ⟨fun row hr => (by cases hr), fun m hm => (by cases hm), fun pass hp => (by cases hp)⟩
  have hd : w.Dated settings t es :=
    run_history (G := fun _ _ => True) (I := fun es w => w.Dated settings t es)
      (fun _ _ _ _ hr hd _ h => hd.step hr h) hinitial (along_true es _) hr
  obtain ⟨before, m, after, hsince, hdated⟩ := hd.row row hrow
  exact ⟨before, m, after, hsince, hdated.last, fun s hs => hdated.received s (hdated.last ▸ hs),
    fun hnone => hdated.earlier (hdated.last ▸ hnone)⟩

end Steps

section Witness

open Reference

/-- A worker that has stored a message of a topic tells when. -/
theorem messages_dated_chat : ∃ w row s stored,
    run World.step (.initial .default) writesChat = some w ∧ w.row "/chat" = some row
      ∧ row.lastMessageAt = some s ∧ w.cached "/chat" = some stored ∧ stored.receivedAt = s := by
  have h : ((run World.step (.initial .default) writesChat).any fun w =>
      (w.row "/chat").any fun row => row.lastMessageAt.isSome) = true := by
    decide +kernel
  simp only [Option.any_eq_true] at h
  obtain ⟨w, hr, row, hrow, hlast⟩ := h
  obtain ⟨s, hs⟩ := Option.isSome_iff_exists.mp hlast
  obtain ⟨-, -, -, -, -, hreceived, -⟩ := messages_dated hr hrow
  obtain ⟨stored, hstored, htime⟩ := hreceived s hs
  exact ⟨w, row, s, stored, hr, hrow, hs, hstored, htime⟩

end Witness

end PgRos2
