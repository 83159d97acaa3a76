import PgRos2.Proofs.Agreement
import PgRos2.Proofs.Flush

/-!
# The rows of a topic

What a step does to the row of a topic in `ros2.subscriptions` and to its message (`step_rows`).
Clients own the columns they insert: a step of the worker leaves them, and takes the row only when
its pass found it expired (`row_kept`).
-/

namespace PgRos2

open Lib

/-- The row of a topic after the write-back of a pass. -/
def Subscription.settled (t : String) (pass : Pass) (row : Subscription) : Subscription :=
  pass.metadata.foldl (fun row m => if t = m.1 then row.settle m.2 else row) row

/-- What a step does to the rows of a topic. -/
inductive RowStep [Rclrs] (t : String) (w w' : World) : Event → Prop
  | keep (e : Event) (hrow : w'.row t = w.row t) (hcached : w'.cached t = w.cached t)
    (hstores : w.stores t e = none) : RowStep t w w' e
  | drop (hrow : w'.row t = none) (hcached : w'.cached t = none) : RowStep t w w' .dropExtension
  | insert {requestedType : Option String} {registeredAt : Time} {keepaliveAt : Option Time}
    (hinstalled : w.extension.isSome) (hnone : w.row t = none)
    (hrow : w'.row t = some ⟨requestedType, none, registeredAt, keepaliveAt, none, none⟩)
    (hcached : w'.cached t = w.cached t) :
    RowStep t w w' (.insert t requestedType registeredAt keepaliveAt)
  | delete (hrow : w'.row t = none) (hcached : w'.cached t = w.cached t) :
    RowStep t w w' (.delete t)
  | keepalive {keepaliveAt : Option Time}
    (hrow : w'.row t = (w.row t).map fun row => { row with keepaliveAt })
    (hcached : w'.cached t = w.cached t) : RowStep t w w' (.keepalive t keepaliveAt)
  | flush {live : Live} (hl : w.live t = some live)
    (hstored : ∀ m, live.message = some m → m.2.jsonb.isSome)
    (hrow : w'.row t = (w.row t).map fun row => row.flushed w.now live)
    (hcached : w'.cached t = match live.message with
      | some m => m.2.jsonb.map (⟨m.1, w.now, ·⟩)
      | none => w.cached t)
    (hstores : w.stores t .flush = if live.message.isSome then some w.now else none) :
    RowStep t w w' .flush
  | write {pass : Pass} (hpass : w.pass = some pass)
    (hrow : w'.row t = if t ∈ pass.expired then none else (w.row t).map (·.settled t pass))
    (hcached : w'.cached t = if t ∈ pass.removed ++ pass.expired then none else w.cached t) :
    RowStep t w w' .writeBack

/-- The tables of the subscriptions and of their messages. -/
def Extension.subscribed (ext : Extension) : Table String Subscription × Table String Message :=
  (ext.subscriptions, ext.messages)

section Steps

variable [Rclrs] {w w' : World} {o : Observer} {s : Session} {e : Event} (t : String)

/-- Both tables stay as they are. -/
theorem RowStep.of_tables
    (h : w'.extension.map Extension.subscribed = w.extension.map Extension.subscribed)
    (hstores : w.stores t e = none) : RowStep t w w' e := by
  have hrow (w : World) :
      w.row t = (w.extension.map Extension.subscribed).bind fun tables => tables.1.lookup t := by
    rw [World.row, Option.bind_map]
    rfl
  have hcached (w : World) :
      w.cached t = (w.extension.map Extension.subscribed).bind fun tables => tables.2.lookup t := by
    rw [World.cached, Option.bind_map]
    rfl
  exact .keep e (by rw [hrow, hrow, h]) (by rw [hcached, hcached, h]) hstores

omit [Rclrs] in
theorem persistSnapshot_subscribed (ext : Option Extension) (pid : ℕ) (now : Time)
    (snapshot : Except String GraphSnapshot) (previous : Option GraphSnapshot)
    (oid : Option Oid) :
    (persistSnapshot ext pid now snapshot previous oid).1.map Extension.subscribed
      = ext.map Extension.subscribed := by
  rcases ext with _ | ext
  · rfl
  · obtain ⟨nodes, topics, status, h⟩ := persistSnapshot_frame ext pid now snapshot previous oid
    rw [h]
    rfl

theorem PollStep.rows (h : PollStep w o s w') (hstores : w.stores t e = none) :
    RowStep t w w' e := by
  obtain rfl | ⟨f, previousParameters, parameterExtension, phase, _, _, hf, -, rfl⟩ := h
  · exact .of_tables t rfl hstores
  · refine .of_tables t ?_ hstores
    change (w.extension.map f).map Extension.subscribed = w.extension.map Extension.subscribed
    rw [Option.map_map]
    congr 1
    funext ext
    obtain ⟨parameters, parameterStatus, heq⟩ := hf ext
    rw [Function.comp, heq]
    rfl

theorem observe_rows (graph : Except String RosGraph) :
    RowStep t w (w.observe o s graph) (.observe graph) := by
  refine .of_tables t ?_ rfl
  unfold World.observe
  split_ifs
  · rfl
  · dsimp only
    split <;> exact persistSnapshot_subscribed _ _ _ _ _ _

theorem readDesired_rows (now : Time) (answers : Except String SubscribeAnswers) :
    RowStep t w (w.readDesired o s now answers) (.readDesired answers) := by
  refine .of_tables t ?_ rfl
  unfold World.readDesired
  split_ifs
  · rfl
  · dsimp only
    split
    · rfl
    · split_ifs <;> rfl

omit [Rclrs] in
theorem writeBack_row (pass : Pass) :
    (w.writeBack o s pass).row t
      = if t ∈ pass.expired then none else (w.row t).map (·.settled t pass) := by
  have hrow : (w.writeBack o s pass).row t = (w.onExtension (writeBack pass)).row t := rfl
  rw [hrow, row_onExtension, World.row]
  rcases w.extension with _ | ext
  · simp
  · simp only [Option.bind_some, writeBack_eq, Table.lookup_eraseAll, lookup_foldl_update]
    rfl

theorem writeBack_rows {pass : Pass} (hp : w.InPhase o s (.write pass)) :
    RowStep t w (w.writeBack o s pass) .writeBack := by
  refine .write (pass_of_phase hp) (writeBack_row t pass) ?_
  have hcached : (w.writeBack o s pass).cached t
      = (w.extension.map (writeBack pass)).bind fun ext => ext.messages.lookup t := rfl
  rw [hcached, World.cached]
  rcases w.extension with _ | ext
  · simp
  · simp only [Option.map_some, Option.bind_some, writeBack_eq, Table.lookup_eraseAll]

theorem mem_stored_iff {ext : Extension} (ho : w.worker = some o) (hx : w.extension = some ext) :
    t ∈ w.stored ↔ ∃ live, o.subscriptions.lookup t = some live ∧ live.message.isSome := by
  rw [mem_stored ho, hx, List.mem_map]
  constructor
  · rintro ⟨-, ⟨topic, m⟩, hm, rfl⟩
    obtain ⟨live, hl, hmessage⟩ := mem_flushMessages.mp hm
    exact ⟨live, hl, by rw [hmessage]; rfl⟩
  · rintro ⟨live, hl, hmessage⟩
    obtain ⟨m, hm⟩ := Option.isSome_iff_exists.mp hmessage
    exact ⟨rfl, (t, m), mem_flushMessages.mpr ⟨live, hl, hm⟩, rfl⟩

theorem flush_rows_step {now : Time} (hp : w.InPhase o s (.flush now))
    (h : w.step .flush = some (w.flush o s now)) : RowStep t w (w.flush o s now) .flush := by
  have hends := act_of_ends h
  have hflushes := flushes_iff hp
  unfold World.flush at hends ⊢
  split at hends
  · rename_i hdue
    rw [if_pos hdue]
    exact .of_tables t rfl (if_neg fun hs => hflushes.mp hs.1 hdue)
  · rename_i hdue
    rw [if_neg hdue]
    rcases hx : w.extension with _ | ext
    · refine .of_tables t (by rw [hx]; rfl) (if_neg fun hs => ?_)
      simp [World.stored, hx] at hs
    · rw [hx] at hends
      split at hends
      · exact .of_tables t (by rw [← hx]) (if_neg fun hs => hs.2.1 (hends.mpr rfl))
      · rename_i r hf
        have halive : ¬ w.Ends .flush := by
          intro he
          cases hends.mp he
        have hstored := mem_stored_iff t hp.1 hx
        obtain ⟨ext', rfl, -, htopic⟩ := flush_topic hf
        obtain ⟨hmessages, hrows⟩ := htopic t
        have hrow : w.row t = ext.subscriptions.lookup t := by simp [World.row, hx]
        have hcached : w.cached t = ext.messages.lookup t := by simp [World.cached, hx]
        rcases hl : o.subscriptions.lookup t with _ | live
        · rw [hl] at hmessages hrows
          refine .keep _ ?_ ?_ (if_neg fun hs => ?_)
          · rw [hrow]
            exact hrows.trans (by simp)
          · rw [hcached]
            exact hmessages
          · obtain ⟨live, hlive, -⟩ := hstored.mp hs.2.2
            cases hl.symm.trans hlive
        · rw [hl] at hmessages hrows
          refine .flush ((live_of_worker hp.1 t).trans hl) (fun m hm => ?_) ?_ ?_ ?_
          · by_contra hno
            rw [Bool.not_eq_true, Option.isSome_eq_false_iff, Option.isNone_iff_eq_none] at hno
            have habort := (flush_eq_none_iff o.subscriptions w.now ext).mpr
              ⟨t, live, m, hl, hm, hno⟩
            cases hf.symm.trans habort
          · rw [hrow]
            exact hrows
          · rw [hcached]
            exact hmessages
          · refine if_congr ?_ rfl rfl
            rw [hstored, hl]
            simp [hflushes.mpr hdue, halive]

/-- What a step does to the rows of a topic. -/
theorem step_rows (h : w.step e = some w') : RowStep t w w' e := by
  have hs := step_spec h
  cases e with
  | insert topic requestedType registeredAt keepaliveAt =>
    subst hs
    by_cases hi : w.extension.isSome ∧ w.row topic = none
    · obtain ⟨ext, hx⟩ := Option.isSome_iff_exists.mp hi.1
      have hmem : topic ∉ ext.subscriptions := by
        rw [← AList.lookup_eq_none]
        simpa [World.row, hx] using hi.2
      by_cases ht : t = topic
      · subst ht
        refine .insert hi.1 hi.2 ?_ ?_
        · rw [row_onExtension, hx]
          simp [Extension.insertSubscription, hmem]
        · simp [World.cached, World.onExtension, hx, Extension.insertSubscription, hmem]
      · refine .keep _ ?_ ?_ rfl
        · rw [row_onExtension, hx, World.row, hx]
          simp [Extension.insertSubscription, hmem, AList.lookup_insert_ne ht]
        · simp [World.cached, World.onExtension, hx, Extension.insertSubscription, hmem]
    · rw [insert_quiet topic requestedType registeredAt keepaliveAt hi]
      exact .keep _ rfl rfl rfl
  | delete topic =>
    subst hs
    have hcached : (w.onExtension fun ext => ext.deleteSubscription topic).cached t
        = w.cached t := by
      simp [World.cached, World.onExtension, Option.bind_map, Extension.deleteSubscription]
    by_cases ht : t = topic
    · subst ht
      refine .delete ?_ hcached
      rw [row_onExtension]
      simp [Extension.deleteSubscription]
    · refine .keep _ ?_ hcached rfl
      rw [row_onExtension]
      simp [Extension.deleteSubscription, AList.lookup_erase_ne ht, World.row]
  | keepalive topic keepaliveAt =>
    subst hs
    have hcached : (w.onExtension fun ext => ext.updateKeepalive topic keepaliveAt).cached t
        = w.cached t := by
      simp [World.cached, World.onExtension, Option.bind_map, Extension.updateKeepalive]
    by_cases ht : t = topic
    · subst ht
      refine .keepalive ?_ hcached
      rw [row_onExtension, World.row]
      rcases w.extension with _ | ext
      · rfl
      · simp [Extension.updateKeepalive]
    · refine .keep _ ?_ hcached rfl
      rw [row_onExtension]
      simp [Extension.updateKeepalive, ht, World.row]
  | createExtension =>
    obtain ⟨hx, rfl⟩ := hs
    exact .keep _ (by simp [World.row, hx, Extension.new])
      (by simp [World.cached, hx, Extension.new]) rfl
  | dropExtension =>
    subst hs
    exact .drop rfl rfl
  | startWorker pid =>
    obtain ⟨-, rfl⟩ := hs
    exact .of_tables t rfl rfl
  | fail error =>
    obtain ⟨o, -, rfl⟩ := hs
    exact .of_tables t (persistSnapshot_subscribed _ _ _ _ _ _) rfl
  | beginSession =>
    obtain ⟨o, reinitAfter, -, rfl⟩ := hs
    exact .of_tables t rfl rfl
  | message topic T message =>
    obtain ⟨o, s, -, -, rfl⟩ := hs
    exact .of_tables t rfl rfl
  | graphChange | spun | decide =>
    obtain ⟨o, s, -, rfl⟩ := hs
    exact .of_tables t rfl rfl
  | flush =>
    obtain ⟨o, s, now, hp, rfl⟩ := hs
    exact flush_rows_step t hp h
  | readDesired answers =>
    obtain ⟨o, s, now, -, rfl⟩ := hs
    exact readDesired_rows t now answers
  | writeBack =>
    obtain ⟨o, s, pass, hp, rfl⟩ := hs
    exact writeBack_rows t hp
  | tick answers =>
    obtain ⟨o, s, -, rfl⟩ := hs
    exact (tick_spec s answers).rows t rfl
  | observe graph =>
    obtain ⟨o, s, -, rfl⟩ := hs
    exact observe_rows t graph
  | startPoll answers =>
    obtain ⟨o, s, nodes, -, rfl⟩ := hs
    exact (startPoll_spec s nodes answers).rows t rfl
  | _ => exact hs ▸ .of_tables t rfl rfl

end Steps

/-! ## Who changes them -/

/-- The columns of a row that clients fill. -/
def Subscription.owned (row : Subscription) : Option String × Time × Option Time :=
  (row.requestedType, row.registeredAt, row.keepaliveAt)

section Keeps

variable {α : Type} {f : Subscription → α} (hf : ∀ result row, f (row.settle result) = f row)
include hf

/-- What no result of a subscribe changes, the write-back of a pass leaves. -/
theorem settled_keeps (t : String) (pass : Pass) (row : Subscription) :
    f (row.settled t pass) = f row := by
  unfold Subscription.settled
  induction pass.metadata generalizing row with
  | nil => rfl
  | cons m ms ih =>
    rw [List.foldl_cons, ih]
    split
    · exact hf m.2 row
    · rfl

theorem errors_keeps : ∀ (errors : List String) (row : Subscription),
    f (errors.foldl (fun row error => row.settle (.error error)) row) = f row
  | [], _ => rfl
  | error :: errors, row => (errors_keeps errors _).trans (hf (.error error) row)

end Keeps

theorem settle_owned (result : Except String String) (row : Subscription) :
    (row.settle result).owned = row.owned := by
  rcases result with error | kind <;> rfl

theorem settled_owned (t : String) (pass : Pass) (row : Subscription) :
    (row.settled t pass).owned = row.owned :=
  settled_keeps settle_owned t pass row

theorem flushed_owned [Rclrs] (now : Time) (live : Live) (row : Subscription) :
    (row.flushed now live).owned = row.owned := by
  rw [Subscription.flushed, errors_keeps settle_owned]
  split <;> rfl

section Runs

variable [Rclrs] {w w' : World} {e : Event} {es : List Event} {t : String}

/-- A statement of a client that can change the row of a topic. -/
def Event.Addresses (t : String) : Event → Prop
  | .insert topic _ _ _ | .delete topic | .keepalive topic _ => topic = t
  | .dropExtension => True
  | _ => False

/-- The write-back of a pass that found the topic expired. -/
def World.Expires (t : String) (w : World) (e : Event) : Prop :=
  e = .writeBack ∧ ∃ pass ∈ w.pass, t ∈ pass.expired

theorem row_step (h : w.step e = some w') (hc : ¬ e.Addresses t) :
    (w'.row t).map Subscription.owned = (w.row t).map Subscription.owned
      ∨ w.Expires t e ∧ w'.row t = none := by
  cases step_rows t h with
  | keep _ hrow _ _ => exact .inl (by rw [hrow])
  | drop _ _ => exact absurd trivial hc
  | insert _ _ _ _ => exact absurd rfl hc
  | delete _ _ => exact absurd rfl hc
  | keepalive _ _ => exact absurd rfl hc
  | @flush live hl _ hrow _ _ =>
    refine .inl ?_
    rw [hrow, Option.map_map]
    congr 1
    funext row
    exact flushed_owned w.now live row
  | @write pass hpass hrow _ =>
    by_cases ht : t ∈ pass.expired
    · rw [if_pos ht] at hrow
      exact .inr ⟨⟨rfl, pass, hpass, ht⟩, hrow⟩
    · rw [if_neg ht] at hrow
      refine .inl ?_
      rw [hrow, Option.map_map]
      congr 1
      funext row
      exact settled_owned t pass row

/-- No step but an insert makes a row. -/
theorem row_stays_none (hr : run World.step w es = some w') (hc : ∀ e ∈ es, ¬ e.Addresses t)
    (hnone : w.row t = none) : w'.row t = none := by
  refine run_inv (G := fun _ e => ¬ e.Addresses t) (I := fun w => w.row t = none)
    (fun w e w' hnone hc h => ?_) (along_of_forall hc) hr hnone
  rcases row_step h hc with hsame | ⟨-, hgone⟩
  · rw [hnone] at hsame
    exact Option.map_eq_none_iff.mp hsame
  · exact hgone

/-- Where no client touches the row of a topic it keeps what clients filled in, or is gone since a
write-back took it as expired. -/
theorem row_kept (hr : run World.step w es = some w') (hc : ∀ e ∈ es, ¬ e.Addresses t) :
    (w'.row t).map Subscription.owned = (w.row t).map Subscription.owned
      ∨ w'.row t = none ∧ ∃ es₁ e es₂ m, es = es₁ ++ e :: es₂ ∧ run World.step w es₁ = some m
        ∧ m.Expires t e := by
  by_cases hx : Along World.step (fun w e => ¬ w.Expires t e) w es
  · refine .inl (run_inv (I := fun v => (v.row t).map Subscription.owned
      = (w.row t).map Subscription.owned) (fun v e v' hI hG h => ?_)
      ((along_of_forall hc).and hx) hr rfl)
    rcases row_step h hG.1 with hsame | ⟨hexp, -⟩
    · exact hsame.trans hI
    · exact absurd hexp hG.2
  · have hsome : ∃ es₁ e es₂ m, es = es₁ ++ e :: es₂ ∧ run World.step w es₁ = some m
        ∧ m.Expires t e := by
      by_contra hno
      push Not at hno
      exact hx (along_of_steps hno)
    obtain ⟨es₁, e, es₂, m, rfl, hm, hexp⟩ := hsome
    refine .inr ⟨?_, es₁, e, es₂, m, rfl, hm, hexp⟩
    obtain ⟨m', hm', hr⟩ := run_append_eq_some.mp hr
    cases hm.symm.trans hm'
    obtain ⟨n, hn, hr⟩ := run_cons_eq_some.mp hr
    refine row_stays_none hr (fun e he => hc e (by simp [he])) ?_
    obtain ⟨rfl, pass, hpass, ht⟩ := hexp
    obtain ⟨o, s, pass', hp, rfl⟩ := step_spec hn
    cases (pass_of_phase hp).symm.trans hpass
    rw [writeBack_row t, if_pos ht]

end Runs

section Witness

open Reference

/-- A registration, and the worker that serves it. -/
def registersOne : List Event :=
  [.createExtension, .insert "/chat" (some "std_msgs/msg/String") 0 none, .startWorker 1]

def servesOne : List Event :=
  [.beginSession, .spun, .flush, .readDesired (.ok .granted), .writeBack]

theorem servesOne_quiet : ∀ e ∈ servesOne, ¬ e.Addresses "/chat" := by
  simp [servesOne, Event.Addresses]

theorem row_kept_serves : ∃ w w' row row', run World.step (.initial .default) registersOne = some w
    ∧ run World.step w servesOne = some w' ∧ w.row "/chat" = some row ∧ w'.row "/chat" = some row'
    ∧ row'.messageType = some "std_msgs/msg/String" ∧ row'.owned = row.owned := by
  have h : ((run World.step (.initial .default) registersOne).any fun w =>
      (run World.step w servesOne).any fun w' => (w.row "/chat").any fun _ =>
        (w'.row "/chat").any fun row' =>
          decide (row'.messageType = some "std_msgs/msg/String")) = true := by
    decide +kernel
  simp only [Option.any_eq_true, decide_eq_true_eq] at h
  obtain ⟨w, hw, w', hr, row, hrow, row', hrow', htype⟩ := h
  refine ⟨w, w', row, row', hw, hr, hrow, hrow', htype, ?_⟩
  rcases row_kept hr servesOne_quiet with hsame | ⟨hnone, -⟩
  · rw [hrow, hrow'] at hsame
    exact Option.some.inj hsame
  · rw [hrow'] at hnone
    cases hnone

end Witness

end PgRos2
