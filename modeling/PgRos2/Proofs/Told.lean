import PgRos2.Proofs.PollPace
import PgRos2.Proofs.Polling
import PgRos2.Proofs.Preserved
import PgRos2.Proofs.RoundTrip
import PgRos2.Proofs.Statuses

/-!
# What the nodes told of their parameters

A row of `ros2.parameters` is not of the worker's making. The poll that came to it received the
parameter's name of its node, asked the node for the values of its names less than three seconds
before the row's date, and then received them, with the parameter's at the place of its name; and a
client reads the value off the row, by the row's kind (`parameters_told`).
-/

namespace PgRos2

open Lib Register

/-- A tick of a poll: when, the poll, and what there is for it. -/
structure Tick where
  time : Time
  poll : Poll
  answers : TickAnswers

/-- The tick of a poll that an event is. -/
def World.ticked [Bounds] (w : World) : Event → Option Tick
  | .tick answers => do
    let s ← w.session
    let poll ← s.parameterPoll
    return ⟨w.now, poll, answers⟩
  | _ => none

/-- What a tick sends, to the peers by their places. -/
def Tick.sent (tick : Tick) : List Request :=
  ((tick.poll.tickSending tick.time tick.answers).run.run []).2

/-- A parameter service: when the response of a peer is waited for, and how it is received. -/
structure Service (α : Type) where
  waits : Stage → ℕ → Prop
  recv : TickAnswers → ℕ → Except String (Option α)

def listParameters : Service (List String) where
  waits
    | .listing results, i => results[i]? = some none
    | _, _ => False
  recv := TickAnswers.recvList

def getParameters : Service (List ParameterValue) where
  waits
    | .getting results _, i => results[i]? = some none
    | _, _ => False
  recv := TickAnswers.recvGet

/-- At `t` a poll that waits for the response of the peer receives it. -/
def Receives {α : Type} (service : Service α) (ticks : List Tick) (peer : Name) (t : Time) (a : α) :
    Prop :=
  ∃ tick ∈ ticks, tick.time = t ∧ t < tick.poll.deadline ∧ ∃ i, service.waits tick.poll.stage i
    ∧ tick.poll.clients[i]? = some peer ∧ service.recv tick.answers i = .ok (some a)

/-- At `t` a poll asks the peer for the values of the names. -/
def Asks (ticks : List Tick) (peer : Name) (t : Time) (names : List String) : Prop :=
  ∃ tick ∈ ticks, tick.time = t ∧ ∃ i, tick.poll.clients[i]? = some peer
    ∧ .get i names ∈ tick.sent

theorem Receives.mono {α : Type} {service : Service α} {ticks ticks' : List Tick}
    (hsub : ticks ⊆ ticks') {peer : Name} {t : Time} {a : α}
    (h : Receives service ticks peer t a) : Receives service ticks' peer t a := by
  obtain ⟨tick, hmem, hrest⟩ := h
  exact ⟨tick, hsub hmem, hrest⟩

theorem Asks.mono {ticks ticks' : List Tick} (hsub : ticks ⊆ ticks') {peer : Name} {t : Time}
    {names : List String} (h : Asks ticks peer t names) : Asks ticks' peer t names := by
  obtain ⟨tick, hmem, hrest⟩ := h
  exact ⟨tick, hsub hmem, hrest⟩

/-! ## One poll -/

/-- A response of the peer in the stage that ends at the deadline. -/
def Recent {α : Type} (service : Service α) (ticks : List Tick) (now deadline : Time) (peer : Name)
    (a : α) : Prop :=
  ∃ t, Receives service ticks peer t a ∧ t ≤ now ∧ deadline ≤ t + seconds 3

/-- The names a peer was asked for are those it listed, in the stage before. -/
def Asked (ticks : List Tick) (deadline : Time) (peer : Name) (asked : List String) : Prop :=
  ∃ t names sent, Receives listParameters ticks peer t names ∧ Asks ticks peer sent asked
    ∧ t ≤ sent ∧ deadline = sent + seconds 3 ∧ deadline ≤ t + seconds 6
    ∧ asked = Poll.dedup (names.insertionSort (· ≤ ·))

/-- What the stage of a poll holds was received of the peers. -/
def Stage.Heard (ticks : List Tick) (now deadline : Time) (clients : List Name) : Stage → Prop
  | .ready => True
  | .listing results =>
    List.Forall₂ (fun peer result => ∀ names ∈ result,
      Recent listParameters ticks now deadline peer names) clients results
  | .getting results asked =>
    List.Forall₂ (Asked ticks deadline) clients asked
      ∧ List.Forall₂ (fun peer result => ∀ values ∈ result,
        Recent getParameters ticks now deadline peer values) clients results

structure Poll.Heard (ticks : List Tick) (now : Time) (poll : Poll) : Prop where
  deadline : poll.deadline ≤ now + seconds 3
  stage : poll.stage.Heard ticks now poll.deadline poll.clients

/-- The node listed the parameter less than six seconds before `t`, was asked for the values of all
it listed less than three seconds before, and then told them, that of the parameter in its place. -/
def Parameter.Told (ticks : List Tick) (t : Time) (p : Parameter) (v : ParameterValue) : Prop :=
  ∃ t₁ names t₂ asked t₃ values, Receives listParameters ticks (p.node, p.namespaceName) t₁ names
    ∧ asked = Poll.dedup (names.insertionSort (· ≤ ·))
    ∧ Asks ticks (p.node, p.namespaceName) t₂ asked
    ∧ Receives getParameters ticks (p.node, p.namespaceName) t₃ values
    ∧ t₁ ≤ t₂ ∧ t₂ ≤ t₃ ∧ t₃ ≤ t ∧ t < t₁ + seconds 6 ∧ t < t₂ + seconds 3
    ∧ ∃ k : ℕ, asked[k]? = some p.name ∧ values[k]? = some v

section Poll

variable {α : Type} {ticks ticks' : List Tick} {now now' deadline : Time} {clients : List Name}
  {poll poll' : Poll} {answers : TickAnswers}

theorem Recent.mono {service : Service α} {peer : Name} {a : α}
    (h : Recent service ticks now deadline peer a) (hsub : ticks ⊆ ticks') (hle : now ≤ now') :
    Recent service ticks' now' deadline peer a := by
  obtain ⟨t, hreceives, ht, hd⟩ := h
  exact ⟨t, hreceives.mono hsub, ht.trans hle, hd⟩

theorem Asked.mono {peer : Name} {asked : List String} (h : Asked ticks deadline peer asked)
    (hsub : ticks ⊆ ticks') : Asked ticks' deadline peer asked := by
  obtain ⟨t, names, sent, hreceives, hasks, hrest⟩ := h
  exact ⟨t, names, sent, hreceives.mono hsub, hasks.mono hsub, hrest⟩

theorem Stage.Heard.mono {stage : Stage} (h : stage.Heard ticks now deadline clients)
    (hsub : ticks ⊆ ticks') (hle : now ≤ now') : stage.Heard ticks' now' deadline clients := by
  cases stage with
  | ready => trivial
  | listing results => exact h.imp fun peer result hr names hn => (hr names hn).mono hsub hle
  | getting results asked =>
    exact ⟨h.1.imp fun peer asked ha => ha.mono hsub,
      h.2.imp fun peer result hr values hv => (hr values hv).mono hsub hle⟩

theorem Poll.Heard.mono (h : poll.Heard ticks now) (hsub : ticks ⊆ ticks') (hle : now ≤ now') :
    poll.Heard ticks' now' :=
  ⟨h.deadline.trans (by simpa using hle), h.stage.mono hsub hle⟩

/-- Nothing is held of peers that were just asked. -/
theorem forall₂_unanswered (P : Name → α → Prop) (clients : List Name) :
    List.Forall₂ (fun peer result => ∀ a ∈ result, P peer a) clients
      (clients.map fun _ => (none : Option α)) := by
  rw [List.forall₂_map_right_iff]
  exact List.forall₂_same.mpr fun _ _ _ ha => by cases ha

/-- What is held after `collect` was held before, or has just arrived. -/
theorem collect_holds {recv : ℕ → Except String (Option α)} {P : Name → α → Prop}
    {clients : List Name} {results : List (Option α)}
    (h : List.Forall₂ (fun peer result => ∀ a ∈ result, P peer a) clients results) :
    ∀ {i : ℕ} {results' : List (Option α)}, collect recv i results = .ok results' →
      (∀ j peer a, results[j]? = some none → clients[j]? = some peer →
        recv (i + j) = .ok (some a) → P peer a) →
      List.Forall₂ (fun peer result => ∀ a ∈ result, P peer a) clients results' := by
  induction h with
  | nil =>
    intro i results' hc _
    cases hc
    exact .nil
  | @cons peer result clients results hr _ ih =>
    intro i results' hc hnew
    have hrest : ∀ j peer a, results[j]? = some none → clients[j]? = some peer →
        recv (i + 1 + j) = .ok (some a) → P peer a := fun j peer' a hr hj ha =>
      hnew (j + 1) peer' a hr hj (by rwa [show i + (j + 1) = i + 1 + j by omega])
    rcases result with _ | a
    · obtain ⟨result', hresult, hc⟩ := except_bind_eq_ok hc
      obtain ⟨rest, hcollect, hc⟩ := except_bind_eq_ok hc
      cases hc
      refine .cons (fun a ha => hnew 0 peer a rfl rfl ?_) (ih hcollect hrest)
      rw [Nat.add_zero, hresult, Option.mem_def.mp ha]
    · obtain ⟨rest, hcollect, hc⟩ := except_bind_eq_ok hc
      cases hc
      exact .cons hr (ih hcollect hrest)

/-- Results that are all there. -/
theorem forall₂_of_all {P : Name → α → Prop} {results : List (Option α)}
    (h : List.Forall₂ (fun peer result => ∀ a ∈ result, P peer a) clients results) :
    ∀ {taken : List α}, results.mapM id = some taken → List.Forall₂ P clients taken := by
  induction h with
  | nil =>
    intro taken ht
    cases ht
    exact .nil
  | @cons peer result clients results hr _ ih =>
    intro taken ht
    rw [List.mapM_cons] at ht
    obtain ⟨a, ha, ht⟩ := Option.bind_eq_some_iff.mp ht
    obtain ⟨rest, hrest, ht⟩ := Option.bind_eq_some_iff.mp ht
    cases ht
    exact .cons (hr a ha) (ih hrest)

/-- A parameter of a peer is one of the names, with the value at its place. -/
theorem mem_peerSnapshot {peer : Name} : ∀ {names : List String} {values : List ParameterValue}
    {ps : List Parameter}, Poll.peerSnapshot peer names values = .ok ps → ∀ p ∈ ps,
      (p.node, p.namespaceName) = peer ∧ ∃ (k : ℕ) (v : ParameterValue),
        names[k]? = some p.name ∧ values[k]? = some v ∧ value v = .ok (p.kind, p.value)
  | [], _, ps, h, p, hp | _ :: _, [], ps, h, p, hp => by
    cases h
    cases hp
  | name :: names, v :: values, ps, h, p, hp => by
    obtain ⟨kv, hkv, h⟩ := except_bind_eq_ok h
    obtain ⟨rest, hrest, h⟩ := except_bind_eq_ok h
    cases h
    rcases List.mem_cons.mp hp with rfl | hp
    · exact ⟨rfl, 0, v, rfl, rfl, hkv⟩
    · obtain ⟨hpeer, k, v', hn, hv, hval⟩ := mem_peerSnapshot hrest p hp
      exact ⟨hpeer, k + 1, v', hn, hv, hval⟩

/-- A parameter of a snapshot is one of its peer's. -/
theorem mem_snapshot {A : Name → List String → Prop} {B : Name → List ParameterValue → Prop}
    {peers : List Name} {asked : List (List String)} (ha : List.Forall₂ A peers asked) :
    ∀ {responses : List (List ParameterValue)} {ps : List Parameter},
      List.Forall₂ B peers responses → Poll.snapshot peers asked responses = .ok ps → ∀ p ∈ ps,
        ∃ names values, A (p.node, p.namespaceName) names ∧ B (p.node, p.namespaceName) values
          ∧ ∃ (k : ℕ) (v : ParameterValue), names[k]? = some p.name ∧ values[k]? = some v
            ∧ value v = .ok (p.kind, p.value) := by
  induction ha with
  | nil =>
    intro responses ps hb h p hp
    cases h
    cases hp
  | @cons peer names peers asked hnames _ ih =>
    intro responses ps hb h p hp
    cases hb with
    | @cons _ values _ responses hvalues hb =>
      unfold Poll.snapshot at h
      split_ifs at h
      · cases h
      obtain ⟨first, hfirst, h⟩ := except_bind_eq_ok h
      obtain ⟨more, hmore, h⟩ := except_bind_eq_ok h
      cases h
      rcases List.mem_append.mp hp with hp | hp
      · obtain ⟨rfl, hrest⟩ := mem_peerSnapshot hfirst p hp
        exact ⟨names, values, hnames, hvalues, hrest⟩
      · exact ih hb hmore p hp

/-- A response that a tick finds is received. -/
theorem recent_of_tick {service : Service α} (hm : ⟨now, poll, answers⟩ ∈ ticks)
    (hd : poll.deadline ≤ now + seconds 3) (hnow : now < poll.deadline) {j : ℕ} {peer : Name}
    {a : α} (hw : service.waits poll.stage j) (hj : poll.clients[j]? = some peer)
    (ha : service.recv answers (0 + j) = .ok (some a)) :
    Recent service ticks now poll.deadline peer a := by
  rw [Nat.zero_add] at ha
  exact ⟨now, ⟨_, hm, rfl, hnow, j, hw, hj, ha⟩, le_rfl, hd⟩

theorem within_six {t now : ℤ} (h : now < t + (3 : ℕ) * 1000000) :
    now + (3 : ℕ) * 1000000 ≤ t + (6 : ℕ) * 1000000 := by
  push_cast at *
  omega

/-- The names of a stage that ends before its deadline are asked for in the next. -/
theorem asked_of_recent {peer : Name} {names : List String} (hnow : now < deadline)
    (h : Recent listParameters ticks now deadline peer names)
    (hasks : Asks ticks peer now (Poll.dedup (names.insertionSort (· ≤ ·)))) :
    Asked ticks (now + seconds 3) peer (Poll.dedup (names.insertionSort (· ≤ ·))) := by
  obtain ⟨t, hreceives, ht, hd⟩ := h
  exact ⟨t, names, now, hreceives, hasks, ht, rfl, within_six (hnow.trans_le hd), rfl⟩

/-- The tick that has the names of all peers asks each of them for its own. -/
theorem asks_of_tick {results results' : List (Option (List String))}
    (hm : ⟨now, ⟨clients, .listing results, deadline⟩, answers⟩ ∈ ticks) (hnow : ¬ now ≥ deadline)
    (hc : collect answers.recvList 0 results = .ok results') {lists names : List (List String)}
    (hl : results'.mapM id = some lists)
    (hn : lists.map (fun names => Poll.dedup (names.insertionSort (· ≤ ·))) = names)
    (hg : Poll.callGets answers 0 names = .ok ()) {i : ℕ} {peer : Name} {asked : List String}
    (hi : clients[i]? = some peer) (ha : names[i]? = some asked) : Asks ticks peer now asked := by
  refine ⟨_, hm, rfl, i, hi, ?_⟩
  have hsent := (Polling.run_listing clients answers [] hnow hc).2 lists names hl hn hg
  rw [Tick.sent, hsent, List.nil_append, List.mem_mapIdx]
  obtain ⟨hlt, hget⟩ := List.getElem?_eq_some_iff.mp ha
  exact ⟨i, hlt, by rw [hget, Nat.zero_add]⟩

theorem Poll.Heard.tick (h : poll.Heard ticks now) (hm : ⟨now, poll, answers⟩ ∈ ticks)
    (ht : poll.tick now answers = .ok (poll', none)) : poll'.Heard ticks now := by
  obtain ⟨hd, hstage⟩ := h
  obtain ⟨clients, stage, deadline⟩ := poll
  unfold Poll.tick at ht
  split at ht
  · cases ht
  rename_i hnow
  cases stage with
  | ready =>
    obtain ⟨ready, -, ht⟩ := except_bind_eq_ok ht
    rcases ready with _ | _
    · cases ht
      exact ⟨hd, trivial⟩
    · obtain ⟨-, -, ht⟩ := except_bind_eq_ok ht
      cases ht
      exact ⟨le_rfl, forall₂_unanswered _ clients⟩
  | listing results =>
    obtain ⟨results', hc, ht⟩ := except_bind_eq_ok ht
    have hheld := collect_holds hstage hc fun j peer a hr hj ha =>
      recent_of_tick hm hd (not_le.mp hnow) hr hj ha
    rcases hl : results'.mapM id with _ | lists <;> simp only [hl] at ht
    · cases ht
      exact ⟨hd, hheld⟩
    · obtain ⟨u, hg, ht⟩ := except_bind_eq_ok ht
      cases ht
      refine ⟨le_rfl, ?_, forall₂_unanswered _ clients⟩
      obtain ⟨hlen, hrecent⟩ := List.forall₂_iff_get.mp (forall₂_of_all hheld hl)
      rw [List.forall₂_map_right_iff]
      refine List.forall₂_iff_get.mpr ⟨hlen, fun i h₁ h₂ => ?_⟩
      refine asked_of_recent (not_le.mp hnow) (hrecent i h₁ h₂) ?_
      exact asks_of_tick hm hnow hc hl rfl hg (List.getElem?_eq_getElem h₁)
        (by simp [List.getElem?_eq_getElem h₂])
  | getting results names =>
    obtain ⟨results', hc, ht⟩ := except_bind_eq_ok ht
    have hheld := collect_holds hstage.2 hc fun j peer a hr hj ha =>
      recent_of_tick hm hd (not_le.mp hnow) hr hj ha
    rcases hl : results'.mapM id with _ | responses <;> simp only [hl] at ht
    · cases ht
      exact ⟨hd, hstage.1, hheld⟩
    · obtain ⟨ps, -, ht⟩ := except_bind_eq_ok ht
      cases ht

/-- A snapshot holds what the nodes told. -/
theorem Poll.Heard.told (h : poll.Heard ticks now) (hm : ⟨now, poll, answers⟩ ∈ ticks)
    {ps : List Parameter} (ht : poll.tick now answers = .ok (poll', some ps)) :
    ∀ p ∈ ps, ∃ v, p.Told ticks now v ∧ value v = .ok (p.kind, p.value) := by
  obtain ⟨hd, hstage⟩ := h
  obtain ⟨clients, stage, deadline⟩ := poll
  unfold Poll.tick at ht
  split at ht
  · cases ht
  rename_i hnow
  cases stage with
  | ready =>
    obtain ⟨ready, -, ht⟩ := except_bind_eq_ok ht
    rcases ready with _ | _
    · cases ht
    · obtain ⟨-, -, ht⟩ := except_bind_eq_ok ht
      cases ht
  | listing results =>
    obtain ⟨results', -, ht⟩ := except_bind_eq_ok ht
    rcases hl : results'.mapM id with _ | lists <;> simp only [hl] at ht
    · cases ht
    · obtain ⟨-, -, ht⟩ := except_bind_eq_ok ht
      cases ht
  | getting results asked =>
    obtain ⟨results', hc, ht⟩ := except_bind_eq_ok ht
    have hheld := collect_holds hstage.2 hc fun j peer a hr hj ha =>
      recent_of_tick hm hd (not_le.mp hnow) hr hj ha
    rcases hl : results'.mapM id with _ | responses <;> simp only [hl] at ht
    · cases ht
    · obtain ⟨snapshot, hs, ht⟩ := except_bind_eq_ok ht
      cases ht
      intro p hp
      obtain ⟨asked, values, ⟨t₁, names, t₂, hlist, hasks, hearly, rfl, hlate, hasked⟩,
        ⟨t₃, hget, hpast, hrecent⟩, k, v, hname, hv, hval⟩ :=
          mem_snapshot hstage.1 (forall₂_of_all hheld hl) hs p hp
      have hbefore : now < t₂ + seconds 3 := not_le.mp hnow
      exact ⟨v, ⟨t₁, names, t₂, asked, t₃, values, hlist, hasked, hasks, hget, hearly,
        by simpa using hrecent, hpast, hbefore.trans_le hlate, hbefore, k, hname, hv⟩, hval⟩

theorem Poll.Heard.start {nodes : List Name} {answers : StartAnswers}
    (h : Poll.start now nodes answers = .ok poll) : poll.Heard ticks now := by
  obtain ⟨clients, -, h⟩ := except_bind_eq_ok h
  cases h
  exact ⟨le_rfl, trivial⟩

end Poll

/-! ## Runs -/

section Runs

variable [Rclrs] {w w' : World} {e : Event} {es : List Event}

/-- The ticks of the polls in a run. -/
def World.ticks (w₀ : World) (es : List Event) : List Tick :=
  history World.step World.ticked w₀ es

/-- A poll starts. -/
def World.StartsPoll (w : World) (e : Event) : Prop := w.pollMark e = some .started

/-- A poll is under way, and no other starts. -/
def World.Polls (w : World) (e : Event) : Prop :=
  (∃ s ∈ w.session, s.parameterPoll.isSome) ∧ ¬ w.StartsPoll e

/-- The run is past the start of a poll that is under way since. -/
abbrev World.Polling (settings : Settings) (es before : List Event) (m : World)
    (after : List Event) : Prop :=
  Since World.step World.StartsPoll World.Polls (.initial settings) es before m after

/-- The poll under way was told what it holds. -/
def World.Heard (settings : Settings) (es : List Event) (w : World) : Prop :=
  ∀ s ∈ w.session, ∀ poll ∈ s.parameterPoll, ∃ before m after,
    World.Polling settings es before m after ∧ poll.Heard (m.ticks after) w.now

theorem ticked_of_poll {s : Session} (hs : w.session = some s) {poll : Poll}
    (hpoll : s.parameterPoll = some poll) (answers : TickAnswers) :
    w.ticked (.tick answers) = some ⟨w.now, poll, answers⟩ := by
  simp [World.ticked, hs, hpoll]

/-- What the poll under way holds, it holds after an event that starts none. -/
theorem World.Heard.extend {settings : Settings}
    (hr : run World.step (.initial settings) es = some w) (hI : w.Heard settings es)
    (he : ¬ w.StartsPoll e) {s : Session} (hs : w.session = some s)
    {poll : Poll} (hpoll : s.parameterPoll = some poll) :
    ∃ before m after, World.Polling settings (es ++ [e]) before m (after ++ [e])
      ∧ m.ticks (after ++ [e]) = m.ticks after ++ (w.ticked e).toList
      ∧ poll.Heard (m.ticks after) w.now := by
  obtain ⟨before, m, after, hsince, hheard⟩ := hI s hs poll hpoll
  refine ⟨before, m, after, hsince.extend hr ⟨⟨s, hs, by rw [hpoll]; rfl⟩, he⟩, ?_, hheard⟩
  rw [World.ticks, history_append (hsince.run_eq hr), history_singleton]
  rfl

theorem heard_step {settings : Settings} (hr : run World.step (.initial settings) es = some w)
    (hI : w.Heard settings es) (h : w.step e = some w') : w'.Heard settings (es ++ [e]) := by
  have hle := step_now h
  by_cases hb : e = .beginSession
  · subst hb
    obtain ⟨o, reinitAfter, -, rfl⟩ := step_spec h
    intro s hs poll hpoll
    cases hs
    cases hpoll
  · intro s' hs' poll' hpoll'
    obtain ⟨s, hs, hchange⟩ := step_poll h hb s' hs'
    -- a poll that stays under way holds what it held
    have hstay : w.pollMark e ≠ some .started → s.parameterPoll = some poll' →
        ∃ before m after, World.Polling settings (es ++ [e]) before m after
          ∧ poll'.Heard (m.ticks after) w'.now := by
      intro he hpoll
      obtain ⟨before, m, after, hpolling, hticks, hheard⟩ := hI.extend hr he hs hpoll
      refine ⟨before, m, after ++ [e], hpolling, hheard.mono ?_ hle⟩
      exact hticks ▸ List.subset_append_left _ _
    generalize hmark : w.pollMark e = mark at hchange
    cases hchange with
    | keep hpoll _ _ => exact hstay (by rw [hmark]; nofun) (hpoll ▸ hpoll')
    | drop _ _ hpoll _ =>
      rw [hpoll] at hpoll'
      cases hpoll'
    | @go _ _ poll _ answers hpoll ht hgo _ _ =>
      rw [hgo] at hpoll'
      cases hpoll'
      obtain ⟨before, m, after, hpolling, hticks, hheard⟩ :=
        hI.extend hr (e := .tick answers) (by rw [World.StartsPoll, hmark]; nofun) hs hpoll
      refine ⟨before, m, after ++ [.tick answers], hpolling, ?_⟩
      have hnow := hheard.mono (hticks ▸ List.subset_append_left _ _) le_rfl
      refine (hnow.tick ?_ ht).mono (List.Subset.refl _) hle
      rw [hticks, ticked_of_poll hs hpoll]
      simp
    | stop _ _ hpoll _ _ =>
      rw [hpoll] at hpoll'
      cases hpoll'
    | start answers _ ht hpoll _ =>
      rw [hpoll] at hpoll'
      cases hpoll'
      exact ⟨es, w', [], .begin hr hmark h, (Poll.Heard.start ht).mono (List.Subset.refl _) hle⟩
    | fail _ _ hpoll _ _ => exact hstay (by rw [hmark]; nofun) (hpoll ▸ hpoll')

theorem run_heard {settings : Settings} (hr : run World.step (.initial settings) es = some w) :
    w.Heard settings es :=
  run_history (G := fun _ _ => True) (I := fun es w => w.Heard settings es)
    (fun _ _ _ _ hr hI _ h => heard_step hr hI h) (fun s hs => by cases hs) (along_true es _) hr

/-- A snapshot comes of a poll's last tick. -/
theorem polled_ok {oid : Oid} {ps : List Parameter} (h : w.polled e = some (oid, .ok ps)) :
    ∃ answers s poll poll', e = .tick answers ∧ w.session = some s ∧ s.parameterPoll = some poll
      ∧ poll.tick w.now answers = .ok (poll', some ps) := by
  unfold World.polled at h
  split at h
  · rename_i answers
    obtain ⟨o, ho, h⟩ := Option.bind_eq_some_iff.mp h
    obtain ⟨s, hs, h⟩ := Option.bind_eq_some_iff.mp h
    obtain ⟨ext, -, h⟩ := Option.bind_eq_some_iff.mp h
    split at h
    · rename_i poll _ hpoll
      refine ⟨answers, s, poll, ?_⟩
      split at h
      · cases h
      · rename_i poll' snapshot ht
        cases h
        exact ⟨poll', rfl, Option.bind_eq_some_iff.mpr ⟨o, ho, hs⟩, hpoll, ht⟩
      · cases h
    · cases h
  · obtain ⟨o, -, h⟩ := Option.bind_eq_some_iff.mp h
    obtain ⟨s, -, h⟩ := Option.bind_eq_some_iff.mp h
    obtain ⟨ext, -, h⟩ := Option.bind_eq_some_iff.mp h
    split at h
    · split at h <;> cases h
    · cases h
  · cases h

/-- At `t` a poll of the run came to a snapshot, in the installation: its ticks, from its start to
the one that ended it. -/
def World.CameTo (settings : Settings) (es : List Event) (oid : Oid) (t : Time)
    (ps : List Parameter) (ticks : List Tick) : Prop :=
  ∃ polling w answers rest before m after, es = polling ++ .tick answers :: rest
    ∧ run World.step (.initial settings) polling = some w ∧ w.now = t
    ∧ w.polled (.tick answers) = some (oid, .ok ps)
    ∧ World.Polling settings (polling ++ [.tick answers]) before m after ∧ ticks = m.ticks after

/-- What a poll saved is the snapshot it came to, and was told to it. -/
theorem cameTo_of_note {settings : Settings} {n : Note (List Parameter) String Time}
    (hn : n ∈ (World.initial settings).parameterNotes es) {ps : List Parameter}
    (hps : n.outcome = .ok ps) : ∃ ticks, World.CameTo settings es n.id n.time ps ticks
      ∧ ∀ p ∈ ps, ∃ v, p.Told ticks n.time v ∧ value v = .ok (p.kind, p.value) := by
  obtain ⟨polling, e, rest, w, rfl, hr, hn⟩ := mem_history hn
  unfold World.parameterNote at hn
  split_ifs at hn
  obtain ⟨⟨oid, outcome⟩, hpolled, rfl⟩ := Option.map_eq_some_iff.mp hn
  obtain rfl : outcome = .ok ps := hps
  obtain ⟨answers, s, poll, poll', rfl, hs, hpoll, ht⟩ := polled_ok hpolled
  have he : ¬ w.StartsPoll (.tick answers) := by
    simp [World.StartsPoll, World.pollMark, hs, hpoll, ht]
  obtain ⟨before, m, after, hpolling, hticks, hheard⟩ := (run_heard hr).extend hr he hs hpoll
  refine ⟨_, ⟨polling, w, answers, rest, before, m, _, rfl, hr, rfl, hpolled, hpolling, rfl⟩, ?_⟩
  refine (hheard.mono (hticks ▸ List.subset_append_left _ _) le_rfl).told ?_ ht
  rw [hticks, ticked_of_poll hs hpoll]
  simp

end Runs

/-! ## What a client reads of a row -/

/-- The type of what is read under a kind of parameter. -/
def fieldOfKind : String → Option FieldType
  | "bool" => some (.simple (.prim .boolean))
  | "integer" => some (.simple (.prim .int64))
  | "double" => some (.simple (.prim .double))
  | "string" => some (.simple (.prim .string))
  | "byte_array" => some (.sequence (.prim .octet))
  | "bool_array" => some (.sequence (.prim .boolean))
  | "integer_array" => some (.sequence (.prim .int64))
  | "double_array" => some (.sequence (.prim .double))
  | "string_array" => some (.sequence (.prim .string))
  | _ => none

/-- The member of a value that its type names. -/
def ParameterValue.member [Bounds] (v : ParameterValue) : Option ((f : FieldType) × f.Val) :=
  match v.type with
  | 1 => some ⟨.simple (.prim .boolean), v.boolValue⟩
  | 2 => some ⟨.simple (.prim .int64), v.integerValue⟩
  | 3 => some ⟨.simple (.prim .double), v.doubleValue⟩
  | 4 => some ⟨.simple (.prim .string), v.stringValue⟩
  | 5 => some ⟨.sequence (.prim .octet), v.byteArrayValue⟩
  | 6 => some ⟨.sequence (.prim .boolean), v.boolArrayValue⟩
  | 7 => some ⟨.sequence (.prim .int64), v.integerArrayValue⟩
  | 8 => some ⟨.sequence (.prim .double), v.doubleArrayValue⟩
  | 9 => some ⟨.sequence (.prim .string), v.stringArrayValue⟩
  | _ => none

section Reading

variable [Rclrs]

/-- The JSON is read as the value, by its kind: a parameter that is not set as null, another as the
member that is set, with NaN for each float that is not finite and but for the sign of zeros. -/
def ParameterValue.ReadAs (v : ParameterValue) (kind : String) (back : Value) : Prop :=
  match v.member with
  | none => v.type = 0 ∧ kind = "not_set" ∧ back = .null
  | some ⟨f, x⟩ => fieldOfKind kind = some f ∧ f.Conforms back
    ∧ ∀ old, f.unsigned (f.overlay old back) = f.unsigned (f.orNan x)

/-- The JSON names no member twice, conforms, and gives `x` whatever it is laid over. -/
def ElemType.Spells (e : ElemType) (x : e.Val) (j : Value) : Prop :=
  j.Distinct ∧ e.Conforms j ∧ ∀ old, e.overlay old j = e.orNan x

def FieldType.Spells (f : FieldType) (x : f.Val) (j : Value) : Prop :=
  j.Distinct ∧ f.Conforms j ∧ ∀ old, f.overlay old j = f.orNan x

omit [Rclrs] in
theorem spells_of_integer {T : Type} [FixedInt T] {x : T} {j : Value}
    (h : Value.integer j = some (FixedInt.toInt x)) :
    InRange T j ∧ ∀ old, (readInt T j).getD old = x := by
  refine ⟨⟨_, h, FixedInt.bounds x⟩, fun old => ?_⟩
  rw [readInt, h, Option.map_some, FixedInt.ofInt_toInt, Option.getD_some]

omit [Rclrs] in
theorem integer_jsonInt (i : Int64) : Value.integer (jsonInt i) = some i.toInt := by
  unfold jsonInt
  split
  · have hlt := i.toInt_lt
    simp only [Value.integer, Option.some.injEq, UInt64.toNat_ofNat']
    omega
  · rfl

theorem spells_int (i : Int64) : (ElemType.prim .int64).Spells i (jsonInt i) :=
  ⟨trivial, spells_of_integer (integer_jsonInt i)⟩

theorem spells_byte (b : UInt8) :
    (ElemType.prim .octet).Spells b (.number (.posInt (UInt64.ofNat b.toNat))) := by
  refine ⟨trivial, spells_of_integer (T := UInt8) ?_⟩
  have hb := b.toNat_lt
  have hn : (UInt64.ofNat b.toNat).toNat = b.toNat := by
    rw [UInt64.toNat_ofNat']
    omega
  exact congrArg (fun n : ℕ => some (n : ℤ)) hn

theorem spells_float (x : Float) : (ElemType.prim .double).Spells x (jsonFloat x) := by
  unfold jsonFloat
  split
  · rename_i h
    refine ⟨trivial, .inr ⟨_, rfl⟩, fun old => ?_⟩
    exact (if_pos h).symm
  · rename_i h
    refine ⟨trivial, .inl rfl, fun old => ?_⟩
    exact (if_neg h).symm

theorem spells_bool (b : Bool) : (ElemType.prim .boolean).Spells b (.bool b) :=
  ⟨trivial, ⟨b, rfl⟩, fun _ => rfl⟩

theorem spells_string (s : String) : (ElemType.prim .string).Spells s (.string s) :=
  ⟨trivial, ⟨s, rfl⟩, fun _ => rfl⟩

theorem spells_sequence (e : ElemType) {json : e.Val → Value} (he : e.isLongDouble = false)
    (h : ∀ x, e.Spells x (json x)) (xs : List e.Val) :
    (FieldType.sequence e).Spells xs (.array (xs.map json)) := by
  refine ⟨Value.distinctElements_iff.mpr fun j hj => ?_, ⟨_, rfl, he, fun j hj => ?_⟩,
    fun old => ?_⟩
  · obtain ⟨x, -, rfl⟩ := List.mem_map.mp hj
    exact (h x).1
  · obtain ⟨x, -, rfl⟩ := List.mem_map.mp hj
    exact (h x).2.1
  · have hmap : (xs.map json).map (fun j => e.overlay (Rclrs.elemDefault e) j)
        = xs.map fun x => e.orNan x := by
      rw [List.map_map]
      exact List.map_congr_left fun x _ => (h x).2.2 _
    exact hmap

theorem spells_simple {e : ElemType} {x : e.Val} {j : Value} (h : e.Spells x j) :
    (FieldType.simple e).Spells x j := h

theorem FieldType.Spells.readAs {f : FieldType} {x : f.Val} {j back : Value} (h : f.Spells x j)
    (hback : j.Preserved back) :
    f.Conforms back ∧ ∀ old, f.unsigned (f.overlay old back) = f.unsigned (f.orNan x) := by
  obtain ⟨hc, ho⟩ := f.agrees j back h.1 h.2.1 hback
  exact ⟨hc, fun old => by rw [ho, h.2.2]⟩

/-- What comes back of a value is read as that value. -/
theorem value_readAs {v : ParameterValue} {kind : String} {j back : Value}
    (h : value v = .ok (kind, j)) (hback : j.Preserved back) : v.ReadAs kind back := by
  unfold value at h
  unfold ParameterValue.ReadAs ParameterValue.member
  split at h <;> rename_i ht <;> cases h
  · rw [ht]
    exact ⟨rfl, rfl, hback⟩
  · rw [ht]
    exact ⟨rfl, (spells_simple (spells_bool _)).readAs hback⟩
  · rw [ht]
    exact ⟨rfl, (spells_simple (spells_int _)).readAs hback⟩
  · rw [ht]
    exact ⟨rfl, (spells_simple (spells_float _)).readAs hback⟩
  · rw [ht]
    exact ⟨rfl, (spells_simple (spells_string _)).readAs hback⟩
  · rw [ht]
    exact ⟨rfl, (spells_sequence (.prim .octet) rfl spells_byte _).readAs hback⟩
  · rw [ht]
    exact ⟨rfl, (spells_sequence (.prim .boolean) rfl spells_bool _).readAs hback⟩
  · rw [ht]
    exact ⟨rfl, (spells_sequence (.prim .int64) rfl spells_int _).readAs hback⟩
  · rw [ht]
    exact ⟨rfl, (spells_sequence (.prim .double) rfl spells_float _).readAs hback⟩
  · rw [ht]
    exact ⟨rfl, (spells_sequence (.prim .string) rfl spells_string _).readAs hback⟩

end Reading

/-! ## Rows -/

/-- A row is stored of a parameter of the snapshot. -/
theorem showsParameters_mem {ps rows : List Parameter} (h : showsParameters ps rows) :
    ∀ row ∈ rows, ∃ p ∈ ps, p.jsonb = some row := by
  have hrows := forall₂_of_mapM h
  clear h
  induction hrows with
  | nil => simp
  | @cons p row ps rows hp _ ih =>
    intro row' hrow
    rcases List.mem_cons.mp hrow with rfl | hrow
    · exact ⟨p, List.mem_cons_self, hp⟩
    · obtain ⟨p', hp', hj⟩ := ih row' hrow
      exact ⟨p', List.mem_cons_of_mem _ hp', hj⟩

/-- What was saved was noted. -/
theorem exists_note {notes : List (Note (List Parameter) String Time)} {oid : ℕ} {t : Time}
    {ps : List Parameter} (h : (t, ps) ∈ saved (recorded oid notes)) :
    ∃ n ∈ notes, n.id = oid ∧ n.time = t ∧ n.outcome = .ok ps := by
  obtain ⟨⟨t', outcome⟩, hrecorded, hps⟩ := List.mem_filterMap.mp h
  obtain ⟨n, hn, hid⟩ := List.mem_filterMap.mp hrecorded
  split_ifs at hid with hsame
  cases hid
  obtain ⟨ps', hok, heq⟩ := Option.map_eq_some_iff.mp hps
  cases heq
  rcases hout : n.outcome with error | ps'
  · rw [hout] at hok
    cases hok
  · rw [hout] at hok
    cases hok
    exact ⟨n, hn, hsame, rfl, hout⟩

section Rows

variable [Rclrs] {w : World} {es : List Event}

/-- In every run a row of `ros2.parameters` is of a snapshot that a poll came to at the row's date.
In the ticks of that poll the row's node listed the parameter less than six seconds before, and then
told its value when it was asked, less than three seconds before; and what a client reads of the
row, by its kind, is that value, with NaN for each float that is not finite and but for the sign of
zeros. -/
theorem parameters_told {settings : Settings} {ext : Extension}
    (hr : run World.step (.initial settings) es = some w) (hx : w.extension = some ext)
    {p : Parameter} {t : Time} (hp : (p, t) ∈ ext.parameters) :
    ∃ ps ticks q v, World.CameTo settings es ext.oid t ps ticks ∧ q ∈ ps ∧ q.jsonb = some p
      ∧ p.Told ticks t v ∧ ∀ back, p.value.Preserved back → v.ReadAs p.kind back := by
  have h := (parameterRegister_honest rfl hr).honest ext.oid ext.parameterRegister
    (by simp [parameterRegister, hx])
  have hd : t ∈ ext.parameterRegister.dates := List.mem_map_of_mem (f := Prod.snd) hp
  rcases hrefreshed : ext.parameterRegister.refreshed with _ | t'
  · rw [h.blank hrefreshed] at hd
    cases hd
  obtain rfl := (h.dated t' hrefreshed).1 t hd
  obtain ⟨before, ps, rest, hsaved, hshows, -⟩ := h.shown t hrefreshed
  obtain ⟨n, hn, hid, rfl, hps⟩ :=
    exists_note (hsaved ▸ List.mem_append_right before List.mem_cons_self)
  obtain ⟨q, hq, hjsonb⟩ := showsParameters_mem hshows p (List.mem_map_of_mem hp)
  obtain ⟨ticks, hcame, htold⟩ := cameTo_of_note hn hps
  obtain ⟨v, htold, hvalue⟩ := htold q hq
  obtain ⟨stored, hstored, rfl⟩ := Option.map_eq_some_iff.mp hjsonb
  exact ⟨ps, ticks, q, v, hid ▸ hcame, hq, hjsonb, htold, fun back hback =>
    value_readAs hvalue ((Value.preserved_jsonb hstored).trans hback)⟩

end Rows

section Witness

open Reference

/-- A worker that has saved a poll in the new installation. -/
def savesAgain : List Event := savesRate ++ pollsRate ++ [.tick .rate]

theorem parameters_told_rate : ∃ w ext p t ps ticks v,
    run World.step (.initial .default) savesAgain = some w ∧ w.extension = some ext
      ∧ (p, t) ∈ ext.parameters ∧ World.CameTo .default savesAgain ext.oid t ps ticks
      ∧ p.Told ticks t v ∧ v.ReadAs p.kind p.value := by
  have h : ((run World.step (.initial .default) savesAgain).any fun w =>
      w.extension.any fun ext => ext.parameters.head?.isSome) = true := by
    decide +kernel
  simp only [Option.any_eq_true, Option.isSome_iff_exists] at h
  obtain ⟨w, hr, ext, hx, ⟨p, t⟩, hrow⟩ := h
  have hp := List.mem_of_mem_head? hrow
  obtain ⟨ps, ticks, -, v, hcame, -, -, htold, hread⟩ := parameters_told hr hx hp
  exact ⟨w, ext, p, t, ps, ticks, v, hr, hx, hp, hcame, htold, hread p.value (.refl _)⟩

end Witness

end PgRos2
