import PgRos2.Lib.Sorted
import PgRos2.Proofs.Database
import PgRos2.Reference

/-!
# No parameter twice

`start` sorts the peers and removes repetitions, and the step to the values does so with the names
of each peer, so no tick returns two rows of one key (`snapshot_distinct`): the `INSERT`s of
`persist` fail only on a value that `jsonb` refuses.
-/

namespace PgRos2

open Lib

namespace Poll

/-- The peers depend on neither the order nor the repetitions of the nodes. -/
theorem start_congr (now : Time) {nodes nodes' : List Name} (answers : StartAnswers)
    (h : ∀ peer, peer ∈ nodes ↔ peer ∈ nodes') :
    start now nodes answers = start now nodes' answers := by
  unfold start dedup
  rw [destutter_insertionSort_congr h]

theorem startPeers_sublist (answers : StartAnswers) : ∀ {peers clients : List Name},
    startPeers answers peers = .ok clients → clients.Sublist peers
  | [], clients, h => by
    cases h
    exact .slnil
  | peer :: peers, clients, h => by
    unfold startPeers at h
    obtain ⟨services, -, h⟩ := except_bind_eq_ok h
    dsimp only at h
    split at h
    · obtain ⟨-, -, h⟩ := except_bind_eq_ok h
      obtain ⟨-, -, h⟩ := except_bind_eq_ok h
      obtain ⟨clients', hc, h⟩ := except_bind_eq_ok h
      cases h
      exact (startPeers_sublist answers hc).cons_cons peer
    · exact (startPeers_sublist answers h).cons peer

/-- The names a poll asks the values of. -/
def asked (poll : Poll) : List (List String) :=
  match poll.stage with
  | .getting _ names => names
  | _ => []

/-- No peer twice, and no name of a peer twice. -/
structure Distinct (poll : Poll) : Prop where
  clients : poll.clients.Nodup
  names : ∀ names ∈ poll.asked, names.Nodup

theorem start_distinct {now : Time} {nodes : List Name} {answers : StartAnswers} {poll : Poll}
    (h : start now nodes answers = .ok poll) : poll.Distinct := by
  unfold start at h
  obtain ⟨clients, hc, h⟩ := except_bind_eq_ok h
  cases h
  refine ⟨?_, by simp [asked]⟩
  exact (startPeers_sublist answers hc).nodup (nodup_destutter_insertionSort nodes)

/-! ## The keys of a snapshot -/

theorem peerSnapshot_keys (peer : Name) : ∀ {names : List String} {values : List ParameterValue}
    {ps : List Parameter}, peerSnapshot peer names values = .ok ps →
      (ps.map Parameter.key).Sublist (names.map fun name => (peer.1, peer.2, name))
  | [], _, ps, h => by
    cases h
    exact .slnil
  | _ :: _, [], ps, h => by
    cases h
    exact List.nil_sublist _
  | name :: names, v :: values, ps, h => by
    unfold peerSnapshot at h
    obtain ⟨kv, -, h⟩ := except_bind_eq_ok h
    obtain ⟨rest, hr, h⟩ := except_bind_eq_ok h
    cases h
    exact (peerSnapshot_keys peer hr).cons_cons _

theorem snapshot_cons_eq_ok {peer : Name} {peers : List Name} {names : List String}
    {rest : List (List String)} {values : List ParameterValue}
    {responses : List (List ParameterValue)} {ps : List Parameter}
    (h : snapshot (peer :: peers) (names :: rest) (values :: responses) = .ok ps) :
    names.length = values.length ∧ ∃ parameters more,
      peerSnapshot peer names values = .ok parameters
      ∧ snapshot peers rest responses = .ok more ∧ ps = parameters ++ more := by
  unfold snapshot at h
  by_cases hl : names.length ≠ values.length
  · simp only [if_pos hl] at h
    cases h
  · simp only [if_neg hl] at h
    obtain ⟨parameters, hs, h⟩ := except_bind_eq_ok h
    obtain ⟨more, hm, h⟩ := except_bind_eq_ok h
    cases h
    exact ⟨not_not.mp hl, parameters, more, hs, hm, rfl⟩

/-- The rows of a snapshot are those of its peers, and no key is there twice. -/
theorem snapshot_keys : ∀ {peers : List Name} {names : List (List String)}
    {responses : List (List ParameterValue)} {ps : List Parameter},
    snapshot peers names responses = .ok ps → peers.Nodup → (∀ ns ∈ names, ns.Nodup) →
      (ps.map Parameter.key).Nodup ∧ ∀ p ∈ ps, (p.node, p.namespaceName) ∈ peers
  | [], _, _, ps, h, _, _ => by
    cases h
    simp
  | _ :: _, [], _, ps, h, _, _ => by
    cases h
    simp
  | _ :: _, _ :: _, [], ps, h, _, _ => by
    cases h
    simp
  | peer :: peers, names :: rest, values :: responses, ps, h, hp, hn => by
    obtain ⟨-, parameters, more, hs, hm, rfl⟩ := snapshot_cons_eq_ok h
    obtain ⟨hnodup, hpeers⟩ := snapshot_keys hm (List.nodup_cons.mp hp).2
      fun ns hns => hn ns (List.mem_cons_of_mem _ hns)
    have hkeys := peerSnapshot_keys peer hs
    have hpeer : ∀ p ∈ parameters, (p.node, p.namespaceName) = peer := by
      intro p hpm
      obtain ⟨name, -, hname⟩ := List.mem_map.mp (hkeys.subset (List.mem_map_of_mem hpm))
      simp only [Parameter.key, Prod.mk.injEq] at hname
      rw [← hname.1, ← hname.2.1]
    refine ⟨?_, ?_⟩
    · rw [List.map_append]
      refine List.Nodup.append (hkeys.nodup ?_) hnodup ?_
      · refine (hn names List.mem_cons_self).map fun a b hab => ?_
        simpa using hab
      · -- the rows of another peer have another node or namespace
        intro key hk hk'
        obtain ⟨p, hpm, rfl⟩ := List.mem_map.mp hk
        obtain ⟨q, hqm, hq⟩ := List.mem_map.mp hk'
        simp only [Parameter.key, Prod.mk.injEq] at hq
        have := hpeers q hqm
        rw [hq.1, hq.2.1, hpeer p hpm] at this
        exact (List.nodup_cons.mp hp).1 this
    · intro p hpm
      rcases List.mem_append.mp hpm with hpm | hpm
      · rw [hpeer p hpm]
        exact List.mem_cons_self
      · exact List.mem_cons_of_mem _ (hpeers p hpm)

/-! ## The poll -/

/-- A tick that leaves the poll to go on. -/
def advance (poll : Poll) (e : Time × TickAnswers) : Option Poll :=
  match poll.tick e.1 e.2 with
  | .ok (poll, none) => some poll
  | _ => none

/-- A tick leaves no peer and no name twice, and returns no key twice. -/
theorem tick_distinct {poll poll' : Poll} {now : Time} {answers : TickAnswers}
    {rows : Option (List Parameter)} (hd : poll.Distinct)
    (h : poll.tick now answers = .ok (poll', rows)) :
    poll'.Distinct ∧ ∀ ps ∈ rows, (ps.map Parameter.key).Nodup := by
  obtain ⟨clients, stage, deadline⟩ := poll
  unfold tick at h
  split at h
  · cases h
  cases stage with
  | ready =>
    obtain ⟨ready, -, h⟩ := except_bind_eq_ok h
    rcases ready with _ | _
    · cases h
      exact ⟨hd, by simp⟩
    · obtain ⟨-, -, h⟩ := except_bind_eq_ok h
      cases h
      exact ⟨⟨hd.clients, by simp [asked]⟩, by simp⟩
  | listing results =>
    obtain ⟨results', -, h⟩ := except_bind_eq_ok h
    rcases hl : results'.mapM id with _ | lists <;> simp only [hl] at h
    · cases h
      exact ⟨⟨hd.clients, by simp [asked]⟩, by simp⟩
    · obtain ⟨-, -, h⟩ := except_bind_eq_ok h
      cases h
      refine ⟨⟨hd.clients, fun names hn => ?_⟩, by simp⟩
      obtain ⟨list, -, rfl⟩ := List.mem_map.mp hn
      exact nodup_destutter_insertionSort list
  | getting results names =>
    obtain ⟨results', -, h⟩ := except_bind_eq_ok h
    rcases hl : results'.mapM id with _ | responses <;> simp only [hl] at h
    · cases h
      exact ⟨⟨hd.clients, hd.names⟩, by simp⟩
    · obtain ⟨ps, hs, h⟩ := except_bind_eq_ok h
      cases h
      refine ⟨⟨hd.clients, hd.names⟩, fun ps' hps => ?_⟩
      cases hps
      exact (snapshot_keys hs hd.clients hd.names).1

theorem advance_distinct {poll poll' : Poll} {e : Time × TickAnswers} (hd : poll.Distinct)
    (h : poll.advance e = some poll') : poll'.Distinct := by
  unfold advance at h
  split at h
  · rename_i ht
    cases h
    exact (tick_distinct hd ht).1
  · cases h

end Poll

section Insert

variable [Postgres]

/-- Rows of distinct keys are inserted unless `jsonb` or the index refuses one of them. -/
theorem insertParameters_eq_none_iff (now : Time) : ∀ {ps : List Parameter} {ext : Extension},
    (ps.map Parameter.key).Nodup →
      (∀ p ∈ ps, p.key ∉ ext.parameters.map fun row => row.1.key) →
      (insertParameters now ps ext = none
        ↔ ∃ p ∈ ps, p.value.jsonb = none ∨ Postgres.indexes p.key = false)
  | [], ext, _, _ => by simp [insertParameters]
  | p :: ps, ext, hk, hx => by
    rw [List.map_cons, List.nodup_cons] at hk
    rw [insertParameters, Extension.insertParameter]
    rcases hindex : Postgres.indexes p.key with _ | _
    · simp [hindex]
    rw [if_neg (by simpa using hx p List.mem_cons_self)]
    rcases hv : p.value.jsonb with _ | v
    · simp [hv]
    · have ih := @insertParameters_eq_none_iff now ps { ext with
        parameters := ext.parameters ++ [({ p with value := v }, now)] } hk.2 fun q hq hm => by
          simp only [List.map_append, List.map_cons, List.map_nil, List.mem_append,
            List.mem_singleton] at hm
          rcases hm with hm | hm
          · exact hx q (List.mem_cons_of_mem _ hq) hm
          · exact hk.1 (List.mem_map.mpr ⟨q, hq, hm⟩)
      simpa [hv, hindex] using ih

/-- The rows a poll returns, whatever ROS answers it, have distinct keys, so `persist` inserts them
after its `DELETE` unless `jsonb` refuses a value or the index a key; and nodes that differ in order
or repetitions make the same poll, and with it the same rows. -/
theorem snapshot_distinct (started : Time) (nodes : List Name) (answers : StartAnswers) :
    (∀ poll₀ ticks poll now tickAnswers poll' ps, Poll.start started nodes answers = .ok poll₀ →
      run Poll.advance poll₀ ticks = some poll →
      poll.tick now tickAnswers = .ok (poll', some ps) →
        (ps.map Parameter.key).Nodup
        ∧ ∀ (ext : Extension) (saved : Time),
          insertParameters saved ps { ext with parameters := [] } = none
            ↔ ∃ p ∈ ps, p.value.jsonb = none ∨ Postgres.indexes p.key = false)
    ∧ ∀ nodes', (∀ peer, peer ∈ nodes ↔ peer ∈ nodes') →
      Poll.start started nodes answers = Poll.start started nodes' answers := by
  refine ⟨fun poll₀ ticks poll now tickAnswers poll' ps h₀ hr ht => ?_, fun nodes' h =>
    Poll.start_congr started answers h⟩
  have hd : poll.Distinct := run_invariant (fun _ _ _ hd h => Poll.advance_distinct hd h) hr
    (Poll.start_distinct h₀)
  have hk := (Poll.tick_distinct hd ht).2 ps rfl
  exact ⟨hk, fun ext saved => insertParameters_eq_none_iff saved hk (by simp)⟩

end Insert

section Witness

open Reference

/-- A discovery that finds a node twice. -/
def foundTwice : List Name := [("arm", "/"), ("base", "/"), ("arm", "/")]

def StartAnswers.listing : StartAnswers where
  services peer :=
    .ok [(s!"{Poll.prefixOf peer}/list_parameters", ["rcl_interfaces/srv/ListParameters"])]
  createClient _ := .ok ()

/-- The first node lists a name twice. -/
def TickAnswers.listedTwice : TickAnswers where
  listIsReady _ := .ok true
  getIsReady _ := .ok true
  callList _ := .ok ()
  callGet _ _ := .ok ()
  recvList peer := .ok (some (if peer = 0 then ["b", "a", "b"] else ["a"]))
  recvGet peer := .ok (some ((⟨1, true, 0, 0, "", [], [], [], [], []⟩ : ParameterValue) ::
    if peer = 0 then [⟨4, false, 0, 0, "x", [], [], [], [], []⟩] else []))

theorem snapshot_distinct_foundTwice : ∃ poll₀ poll poll' ps ext,
    Poll.start 0 foundTwice .listing = .ok poll₀
      ∧ run Poll.advance poll₀ [(0, .listedTwice), (0, .listedTwice)] = some poll
      ∧ poll.tick 0 .listedTwice = .ok (poll', some ps) ∧ ps.length = 3
      ∧ (ps.map Parameter.key).Nodup
      ∧ insertParameters 0 ps { Extension.new 1 with parameters := [] } = some ext
      ∧ Poll.start 0 [("base", "/"), ("arm", "/")] .listing = .ok poll₀ := by
  have h : ((Poll.start 0 foundTwice .listing).toOption.any fun poll₀ =>
      (run Poll.advance poll₀ [(0, .listedTwice), (0, .listedTwice)]).any fun poll =>
        (poll.tick 0 .listedTwice).toOption.any fun x => x.2.any fun ps => decide (ps.length = 3)
          && ps.all fun p => p.value.jsonb.isSome && Postgres.indexes p.key) = true := by
    decide +kernel
  simp only [Option.any_eq_true, Bool.and_eq_true, decide_eq_true_eq, List.all_eq_true] at h
  obtain ⟨poll₀, h₀, poll, hr, ⟨poll', -⟩, ht, ps, rfl, hlength, hall⟩ := h
  have hok {α : Type} {x : Except String α} {a : α} (hx : x.toOption = some a) : x = .ok a := by
    rcases x with error | a' <;> cases hx
    rfl
  have h₀ := hok h₀
  have ht := hok ht
  obtain ⟨hrows, hstart⟩ := snapshot_distinct 0 foundTwice .listing
  obtain ⟨hk, hinsert⟩ := hrows _ _ _ _ _ _ _ h₀ hr ht
  have hsome : insertParameters 0 ps { Extension.new 1 with parameters := [] } ≠ none := by
    rw [Ne, hinsert]
    rintro ⟨p, hp, hno⟩
    obtain ⟨hvalue, hindex⟩ := hall p hp
    rcases hno with hno | hno
    · rw [hno] at hvalue
      cases hvalue
    · rw [hindex] at hno
      cases hno
  obtain ⟨ext, hext⟩ := Option.ne_none_iff_exists'.mp hsome
  refine ⟨poll₀, poll, poll', ps, ext, h₀, hr, ht, hlength, hk, hext, ?_⟩
  rw [← hstart _ (by simp [foundTwice])]
  exact h₀

end Witness

end PgRos2
