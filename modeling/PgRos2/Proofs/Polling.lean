import PgRos2.Polling
import PgRos2.Proofs.Distinct

/-!
# What a poll comes to

`tickSending` is `tick` (`tickSending_erases`), and no `unwrap` of it is reached. Between the
arrivals the results of a stage hold what has been handed over, each at the place of its own peer
(`Filled`), whatever the order, so a poll that ends ends as the responses alone say.
-/

namespace PgRos2

open Lib

/-! ## What a tick sends beside what it does -/

namespace Sends

variable {α β : Type}

theorem run_bind (x : Sends α) (f : α → Sends β) (sent : List Request) :
    (x >>= f).run.run sent = match x.run.run sent with
      | (.ok a, sent) => (f a).run.run sent
      | (.error e, sent) => (.error e, sent) := by
  have h : (x >>= f).run.run sent
      = (fun r => StateT.run (ExceptT.bindCont f r.1) r.2) (x.run.run sent) := rfl
  rw [h]
  rcases x.run.run sent with ⟨_ | a, sent'⟩ <;> rfl

theorem run_bind_of_ok {x : Sends α} {f : α → Sends β} {a : α} {sent sent' : List Request}
    (h : x.run.run sent = (.ok a, sent')) : (x >>= f).run.run sent = (f a).run.run sent' := by
  rw [run_bind, h]

theorem run_lift (x : Except String α) (sent : List Request) :
    (lift x).run.run sent = (x.mapError .error, sent) := rfl

theorem run_send (request : Request) (answer : Except String Unit) (sent : List Request) :
    (send request answer).run.run sent = (answer.mapError .error, sent ++ [request]) := rfl

/-- Each peer is asked for its names, in order. -/
theorem run_lists {answers : TickAnswers} (h : ∀ i, answers.callList i = .ok ()) :
    ∀ (clients : List Name) (i : ℕ) (sent : List Request),
      (lists answers i clients).run.run sent
        = (.ok (), sent ++ (List.range' i clients.length).map .list)
  | [], i, sent => by
    rw [List.length_nil, List.range'_zero, List.map_nil, List.append_nil]
    rfl
  | _ :: clients, i, sent => by
    have hs : (send (.list i) (answers.callList i)).run.run sent = (.ok (), sent ++ [.list i]) := by
      rw [run_send, h]
      rfl
    rw [lists, run_bind_of_ok hs, run_lists h clients, List.length_cons, List.range'_succ,
      List.map_cons, List.append_assoc, List.singleton_append]

theorem callGets_ok {answers : TickAnswers} (h : ∀ i names, answers.callGet i names = .ok ()) :
    ∀ (names : List (List String)) (i : ℕ), Poll.callGets answers i names = .ok ()
  | [], _ => rfl
  | names :: rest, i => by
    rw [Poll.callGets, h, callGets_ok h rest]
    rfl

/-- Each peer is asked for the values of its own names, in order. -/
theorem run_gets {answers : TickAnswers} : ∀ {names : List (List String)} {i : ℕ},
    Poll.callGets answers i names = .ok () → ∀ sent : List Request,
      (gets answers i names).run.run sent
        = (.ok (), sent ++ names.mapIdx fun j names => .get (i + j) names)
  | [], i, _, sent => by
    rw [List.mapIdx_nil, List.append_nil]
    rfl
  | names :: rest, i, h, sent => by
    obtain ⟨u, hfirst, hrest⟩ := except_bind_eq_ok h
    have hs : (send (.get i names) (answers.callGet i names)).run.run sent
        = (.ok (), sent ++ [.get i names]) := by
      rw [run_send, hfirst]
      rfl
    rw [gets, run_bind_of_ok hs, run_gets hrest, List.mapIdx_cons, List.append_assoc,
      List.singleton_append]
    simp only [Nat.add_assoc, Nat.add_comm 1, Nat.add_zero]

/-- No result is missing when every one is there. -/
theorem takeAll_of_mapM : ∀ {results : List (Option α)} {taken : List α},
    results.mapM id = some taken → results.all Option.isSome = true ∧ takeAll results = pure taken
  | [], taken, h => by
    cases h
    exact ⟨rfl, rfl⟩
  | none :: results, taken, h => by cases h
  | some result :: results, taken, h => by
    rcases hr : results.mapM id with _ | rest
    · rw [List.mapM_cons, hr] at h
      cases h
    rw [List.mapM_cons, hr] at h
    cases h
    obtain ⟨hall, htake⟩ := takeAll_of_mapM hr
    exact ⟨by simpa using hall, by rw [takeAll, htake, pure_bind]⟩

theorem all_of_mapM_eq_none : ∀ {results : List (Option α)},
    results.mapM id = none → results.all Option.isSome = false
  | [], h => by cases h
  | none :: results, _ => rfl
  | some result :: results, h => by
    rcases hr : results.mapM id with _ | rest
    · simpa using all_of_mapM_eq_none hr
    · rw [List.mapM_cons, hr] at h
      cases h

end Sends

/-- A computation with requests comes to what another without them comes to, whatever was sent. -/
def Erases {α : Type} (x : Sends α) (y : Except String α) : Prop :=
  ∀ sent, (x.run.run sent).1 = y.mapError .error

namespace Erases

variable {α β : Type}

theorem lift (y : Except String α) : Erases (Sends.lift y) y := fun _ => rfl

theorem pure (a : α) : Erases (Pure.pure a) (.ok a) := fun _ => rfl

theorem send (request : Request) (answer : Except String Unit) :
    Erases (Sends.send request answer) answer := fun sent => by rw [Sends.run_send]

theorem bind {x : Sends α} {y : Except String α} {f : α → Sends β} {g : α → Except String β}
    (h : Erases x y) (hf : ∀ a, Erases (f a) (g a)) : Erases (x >>= f) (y >>= g) := by
  intro sent
  have hx := h sent
  rw [Sends.run_bind]
  rcases hr : x.run.run sent with ⟨r, sent'⟩
  rw [hr] at hx
  rcases y with e | a
  · cases hx
    rfl
  · cases hx
    exact hf a sent'

theorem lists (answers : TickAnswers) : ∀ (clients : List Name) (i : ℕ),
    Erases (Sends.lists answers i clients) (Poll.callLists answers i clients)
  | [], _ => Erases.pure ()
  | _ :: clients, i => (Erases.send _ _).bind fun _ => lists answers clients (i + 1)

theorem gets (answers : TickAnswers) : ∀ (names : List (List String)) (i : ℕ),
    Erases (Sends.gets answers i names) (Poll.callGets answers i names)
  | [], _ => Erases.pure ()
  | _ :: names, i => (Erases.send _ _).bind fun _ => gets answers names (i + 1)

end Erases

/-- With its requests or without, a tick does the same, and no `unwrap` is reached. -/
theorem Poll.tickSending_erases (poll : Poll) (now : Time) (answers : TickAnswers) :
    Erases (poll.tickSending now answers) (poll.tick now answers) := by
  unfold tickSending tick
  split_ifs
  · exact fun _ => rfl
  obtain ⟨clients, stage, deadline⟩ := poll
  cases stage with
  | ready =>
    refine (Erases.lift _).bind fun ready => ?_
    rcases ready with _ | _
    · exact Erases.pure _
    · exact (Erases.lists answers clients 0).bind fun _ => Erases.pure _
  | listing results =>
    refine (Erases.lift _).bind fun results => ?_
    rcases hm : results.mapM id with _ | lists
    · rw [Sends.all_of_mapM_eq_none hm]
      exact Erases.pure _
    · obtain ⟨hall, htake⟩ := Sends.takeAll_of_mapM hm
      rw [hall, htake]
      exact (Erases.gets answers _ 0).bind fun _ => Erases.pure _
  | getting results names =>
    refine (Erases.lift _).bind fun results => ?_
    rcases hm : results.mapM id with _ | responses
    · rw [Sends.all_of_mapM_eq_none hm]
      exact Erases.pure _
    · obtain ⟨hall, htake⟩ := Sends.takeAll_of_mapM hm
      rw [hall, htake]
      exact (Erases.lift _).bind fun _ => Erases.pure _

/-! ## Results that fill up -/

/-- The results of a stage hold what has been handed over, each at the place of its own peer. -/
inductive Filled {α : Type} (f : ℕ → α) : ℕ → List (Option α) → List Promise → Prop
  | nil (i : ℕ) : Filled f i [] []
  | waiting {i : ℕ} {results promises} (h : Filled f (i + 1) results promises) :
    Filled f i (none :: results) (.waiting :: promises)
  | arrived {i : ℕ} {results promises} (h : Filled f (i + 1) results promises) :
    Filled f i (none :: results) (.arrived :: promises)
  | taken {i : ℕ} {results promises} (h : Filled f (i + 1) results promises) :
    Filled f i (some (f i) :: results) (.taken :: promises)

namespace Filled

variable {α : Type} {f : ℕ → α}

theorem fresh : ∀ n i : ℕ, Filled f i (List.replicate n none) (List.replicate n .waiting)
  | 0, i => .nil i
  | n + 1, i => .waiting (fresh n (i + 1))

theorem length {i : ℕ} {results : List (Option α)} {promises : List Promise}
    (h : Filled f i results promises) : results.length = promises.length := by
  induction h with
  | nil => rfl
  | waiting _ ih | arrived _ ih | taken _ ih => rw [List.length_cons, List.length_cons, ih]

/-- A response arrives, and nothing is handed over by it. -/
theorem arrive {i : ℕ} {results : List (Option α)} {promises : List Promise}
    (h : Filled f i results promises) : ∀ {peer : ℕ}, promises[peer]? = some .waiting →
      Filled f i results (promises.set peer .arrived) := by
  induction h with
  | nil => intro peer hp; simp at hp
  | waiting h ih =>
    intro peer hp
    rcases peer with _ | peer
    · exact .arrived h
    · exact .waiting (ih (by simpa using hp))
  | arrived h ih =>
    intro peer hp
    rcases peer with _ | peer
    · simp at hp
    · exact .arrived (ih (by simpa using hp))
  | taken h ih =>
    intro peer hp
    rcases peer with _ | peer
    · simp at hp
    · exact .taken (ih (by simpa using hp))

/-- `collect` fills in what has arrived, and no promise is asked again after it was handed over. -/
theorem collect {i : ℕ} {results : List (Option α)} {promises : List Promise}
    (h : Filled f i results promises) (tryRecv : ℕ → Except String (Option α))
    (ht : ∀ j, tryRecv (i + j) = (promises.getD j .waiting).tryRecv (f (i + j))) :
    ∃ results', PgRos2.collect tryRecv i results = .ok results'
      ∧ Filled f i results' (results.zipWith Promise.collected promises) := by
  induction h with
  | nil i => exact ⟨[], rfl, .nil i⟩
  | @waiting i results promises h ih =>
    obtain ⟨results', hc, hf⟩ := ih fun j => by
      rw [Nat.add_assoc, Nat.add_comm 1]
      exact ht (j + 1)
    refine ⟨none :: results', ?_, .waiting hf⟩
    have h0 : tryRecv i = .ok none := ht 0
    rw [PgRos2.collect, h0, hc]
    rfl
  | @arrived i results promises h ih =>
    obtain ⟨results', hc, hf⟩ := ih fun j => by
      rw [Nat.add_assoc, Nat.add_comm 1]
      exact ht (j + 1)
    refine ⟨some (f i) :: results', ?_, .taken hf⟩
    have h0 : tryRecv i = .ok (some (f i)) := ht 0
    rw [PgRos2.collect, h0, hc]
    rfl
  | @taken i results promises h ih =>
    obtain ⟨results', hc, hf⟩ := ih fun j => by
      rw [Nat.add_assoc, Nat.add_comm 1]
      exact ht (j + 1)
    refine ⟨some (f i) :: results', ?_, .taken hf⟩
    rw [PgRos2.collect, hc]
    rfl

/-- Results that are all there are those of all peers, in order. -/
theorem all_there {i : ℕ} {results : List (Option α)} {promises : List Promise}
    (h : Filled f i results promises) : ∀ {taken : List α}, results.mapM id = some taken →
      taken = (List.range' i promises.length).map f
        ∧ promises = List.replicate promises.length .taken := by
  induction h with
  | nil =>
    intro taken ht
    cases ht
    exact ⟨rfl, rfl⟩
  | waiting | arrived =>
    intro taken ht
    cases ht
  | @taken i results promises h ih =>
    intro taken ht
    rcases hr : results.mapM id with _ | rest
    · rw [List.mapM_cons, hr] at ht
      cases ht
    rw [List.mapM_cons, hr] at ht
    cases ht
    obtain ⟨rfl, hp⟩ := ih hr
    refine ⟨by simp [List.range'_succ], ?_⟩
    rw [List.length_cons, List.replicate_succ, ← hp]

/-- When no response is missing, `collect` is handed every one. -/
theorem collected {i : ℕ} {results : List (Option α)} {promises : List Promise}
    (h : Filled f i results promises) (hw : .waiting ∉ promises) :
    results.zipWith Promise.collected promises = List.replicate promises.length .taken := by
  induction h with
  | nil => rfl
  | waiting => simp at hw
  | arrived h ih | taken h ih =>
    rw [List.zipWith_cons_cons, ih fun hm => hw (List.mem_cons_of_mem _ hm), List.length_cons,
      List.replicate_succ]
    rfl

theorem mapM_of_taken : ∀ {n i : ℕ} {results : List (Option α)},
    Filled f i results (List.replicate n .taken) → results.mapM id = some ((List.range' i n).map f)
  | 0, i, _, h => by
    cases h
    rfl
  | n + 1, i, _, .taken h => by
    rw [List.mapM_cons, mapM_of_taken h, List.range'_succ]
    rfl

end Filled

/-! ## A poll between its arrivals -/

/-- Where a poll can stand: in each stage the requests of the stages so far have been sent, and the
results are filled with what the promises have handed over. -/
inductive Polling.Sound (r : Responses) (clients : List Name) : Polling → Prop
  | ready (deadline : Time) : Sound r clients ⟨⟨clients, .ready, deadline⟩, [], [], [], none⟩
  | listing {results promises} (deadline : Time) (h : Filled r.list 0 results promises)
    (hl : promises.length = clients.length) :
    Sound r clients ⟨⟨clients, .listing results, deadline⟩, promises, [],
      listRequests clients.length, none⟩
  | getting {results promises} (deadline : Time) (h : Filled r.get 0 results promises)
    (hl : promises.length = clients.length) :
    Sound r clients
      ⟨⟨clients, .getting results ((List.range clients.length).map r.names), deadline⟩,
        List.replicate clients.length .taken, promises,
        listRequests clients.length ++ r.getRequests clients.length, none⟩
  | ended (results) (deadline : Time) :
    Sound r clients
      ⟨⟨clients, .getting results ((List.range clients.length).map r.names), deadline⟩,
        List.replicate clients.length .taken, List.replicate clients.length .taken,
        listRequests clients.length ++ r.getRequests clients.length, some (r.verdict clients)⟩

namespace Polling

variable {r : Responses} {clients : List Name}

theorem allReady_ok {answers : TickAnswers} {listIsReady getIsReady : ℕ → Bool}
    (hl : ∀ i, answers.listIsReady i = .ok (listIsReady i))
    (hg : ∀ i, answers.getIsReady i = .ok (getIsReady i)) :
    ∀ (clients : List Name) (i : ℕ), Poll.allReady answers i clients
      = .ok ((List.range' i clients.length).all fun i => listIsReady i && getIsReady i)
  | [], _ => rfl
  | _ :: clients, i => by
    have ih := allReady_ok hl hg clients (i + 1)
    rw [Poll.allReady, hl, hg, ih, List.length_cons, List.range'_succ, List.all_cons]
    rcases listIsReady i with _ | _
    · rfl
    rcases getIsReady i with _ | _ <;> rfl

section Runs

variable {now deadline : Time} (clients) (answers : TickAnswers) (sent : List Request)

/-- In the first stage a tick asks every peer for its names, once all services are ready. -/
theorem run_ready (hnow : ¬ now ≥ deadline) {ready : Bool}
    (hr : Poll.allReady answers 0 clients = .ok ready) (hc : ∀ i, answers.callList i = .ok ()) :
    (Poll.tickSending ⟨clients, .ready, deadline⟩ now answers).run.run sent
      = if ready then (.ok (⟨clients, .listing (List.replicate clients.length none),
          now + seconds 3⟩, none), sent ++ listRequests clients.length)
        else (.ok (⟨clients, .ready, deadline⟩, none), sent) := by
  unfold Poll.tickSending
  rw [if_neg hnow]
  simp only
  rw [Sends.run_bind_of_ok (a := ready) (by rw [Sends.run_lift, hr]; rfl)]
  cases ready with
  | false => rfl
  | true =>
    rw [if_neg (by simp), if_pos rfl, Sends.run_bind_of_ok (Sends.run_lists hc clients 0 sent),
      ← List.range_eq_range', List.map_const']
    rfl

theorem mapIdx_get (n : ℕ) :
    (((List.range n).map r.names).mapIdx fun j names => Request.get (0 + j) names)
      = r.getRequests n :=
  List.ext_getElem (by simp [Responses.getRequests]) (by simp [Responses.getRequests])

/-- In the second stage a tick asks every peer for its values, once all names are there. -/
theorem run_listing (hnow : ¬ now ≥ deadline) {results results' : List (Option (List String))}
    (hr : collect answers.recvList 0 results = .ok results') :
    (results'.mapM id = none →
      (Poll.tickSending ⟨clients, .listing results, deadline⟩ now answers).run.run sent
        = (.ok (⟨clients, .listing results', deadline⟩, none), sent))
    ∧ ∀ lists names, results'.mapM id = some lists →
      lists.map (fun names => Poll.dedup (names.insertionSort (· ≤ ·))) = names →
      Poll.callGets answers 0 names = .ok () →
      (Poll.tickSending ⟨clients, .listing results, deadline⟩ now answers).run.run sent
        = (.ok (⟨clients, .getting (List.replicate clients.length none) names, now + seconds 3⟩,
          none), sent ++ names.mapIdx fun j names => .get (0 + j) names) := by
  unfold Poll.tickSending
  rw [if_neg hnow]
  simp only
  rw [Sends.run_bind_of_ok (a := results') (by rw [Sends.run_lift, hr]; rfl)]
  refine ⟨fun hm => ?_, fun lists names hm hnames hc => ?_⟩
  · rw [Sends.all_of_mapM_eq_none hm]
    rfl
  · obtain ⟨hall, htake⟩ := Sends.takeAll_of_mapM hm
    rw [hall, htake, if_neg (by simp), pure_bind, hnames,
      Sends.run_bind_of_ok (Sends.run_gets hc sent), List.map_const']
    rfl

/-- In the last stage a tick ends the poll, once all values are there. -/
theorem run_getting (hnow : ¬ now ≥ deadline) {names : List (List String)}
    {results results' : List (Option (List ParameterValue))}
    (hr : collect answers.recvGet 0 results = .ok results') :
    (results'.mapM id = none →
      (Poll.tickSending ⟨clients, .getting results names, deadline⟩ now answers).run.run sent
        = (.ok (⟨clients, .getting results' names, deadline⟩, none), sent))
    ∧ ∀ responses, results'.mapM id = some responses →
      (Poll.tickSending ⟨clients, .getting results names, deadline⟩ now answers).run.run sent
        = (((Poll.snapshot clients names responses).mapError Stop.error).map fun parameters =>
          (⟨clients, .getting results' names, deadline⟩, some parameters), sent) := by
  unfold Poll.tickSending
  rw [if_neg hnow]
  simp only
  rw [Sends.run_bind_of_ok (a := results') (by rw [Sends.run_lift, hr]; rfl)]
  refine ⟨fun hm => ?_, fun responses hm => ?_⟩
  · rw [Sends.all_of_mapM_eq_none hm]
    rfl
  · obtain ⟨hall, htake⟩ := Sends.takeAll_of_mapM hm
    rw [hall, htake, if_neg (by simp), pure_bind, Sends.run_bind, Sends.run_lift]
    rcases Poll.snapshot clients names responses with e | parameters <;> rfl

end Runs

/-! ## The run of a poll -/

theorem tick_eq {p : Polling} {now : Time} {listIsReady getIsReady : ℕ → Bool}
    {result : Except Stop (Poll × Option (List Parameter))} {sent : List Request}
    (h : (p.poll.tickSending now (p.answers r listIsReady getIsReady)).run.run p.sent
      = (result, sent)) : p.tick r now listIsReady getIsReady = p.after result sent := by
  unfold tick
  rw [h]

theorem getD_tryRecv {α : Type} {f : ℕ → α} {promises : List Promise} (j : ℕ) :
    (fun i => (promises.getD i .waiting).tryRecv (f i)) (0 + j)
      = (promises.getD j .waiting).tryRecv (f (0 + j)) := by
  rw [Nat.zero_add]

theorem fresh_eq (sent : List Request) (xs : List ℕ) (f : ℕ → Request) :
    (((sent ++ xs.map f).drop sent.length).map fun _ => Promise.waiting)
      = List.replicate xs.length .waiting := by
  rw [List.drop_left, List.map_map]
  exact List.map_const' ..

section Ticks

variable {now deadline : Time} (listIsReady getIsReady : ℕ → Bool) (hnow : ¬ now ≥ deadline)

include hnow

theorem tick_ready :
    tick r ⟨⟨clients, .ready, deadline⟩, [], [], [], none⟩ now listIsReady getIsReady
      = if (List.range clients.length).all fun i => listIsReady i && getIsReady i then
          ⟨⟨clients, .listing (List.replicate clients.length none), now + seconds 3⟩,
            List.replicate clients.length .waiting, [], listRequests clients.length, none⟩
        else ⟨⟨clients, .ready, deadline⟩, [], [], [], none⟩ := by
  have hr := run_ready clients
    (answers r ⟨⟨clients, .ready, deadline⟩, [], [], [], none⟩ listIsReady getIsReady) [] hnow
    (allReady_ok (fun _ => rfl) (fun _ => rfl) clients 0) (fun _ => rfl)
  rw [← List.range_eq_range'] at hr
  split_ifs at hr with h
  · have hl := fresh_eq [] (List.range clients.length) .list
    rw [List.length_range] at hl
    rw [tick_eq hr, if_pos h]
    simp only [after]
    rw [listRequests, hl]
    rfl
  · rw [tick_eq hr, if_neg h]
    rfl

/-- Without a missing name the poll goes on to the values. -/
theorem tick_listing {results : List (Option (List String))} {promises : List Promise}
    (h : Filled r.list 0 results promises) (hl : promises.length = clients.length) :
    ∃ results', Filled r.list 0 results' (results.zipWith Promise.collected promises)
      ∧ tick r ⟨⟨clients, .listing results, deadline⟩, promises, [], listRequests clients.length,
          none⟩ now listIsReady getIsReady
        = if results'.mapM id = none then
            ⟨⟨clients, .listing results', deadline⟩, results.zipWith Promise.collected promises, [],
              listRequests clients.length, none⟩
          else ⟨⟨clients, .getting (List.replicate clients.length none)
              ((List.range clients.length).map r.names), now + seconds 3⟩,
            List.replicate clients.length .taken, List.replicate clients.length .waiting,
            listRequests clients.length ++ r.getRequests clients.length, none⟩ := by
  obtain ⟨results', hc, h'⟩ := h.collect
    (fun i => (promises.getD i .waiting).tryRecv (r.list i)) getD_tryRecv
  have hlen : (results.zipWith Promise.collected promises).length = clients.length := by
    rw [List.length_zipWith, h.length, hl, min_self]
  obtain ⟨hnone, hsome⟩ := run_listing clients
    (answers r
      ⟨⟨clients, .listing results, deadline⟩, promises, [], listRequests clients.length, none⟩
      listIsReady getIsReady) (listRequests clients.length) hnow hc
  refine ⟨results', h', ?_⟩
  rcases hm : results'.mapM id with _ | lists
  · rw [tick_eq (hnone hm), if_pos rfl]
    simp only [after, List.drop_length, List.map_nil]
  · obtain ⟨rfl, htaken⟩ := h'.all_there hm
    rw [hlen, ← List.range_eq_range'] at hm
    have hf := fresh_eq (listRequests clients.length) (List.range clients.length)
      fun peer => .get peer (r.names peer)
    rw [List.length_range] at hf
    have hnames : ((List.range clients.length).map r.list).map (fun names =>
        Poll.dedup (names.insertionSort (· ≤ ·))) = (List.range clients.length).map r.names := by
      rw [List.map_map]
      rfl
    rw [tick_eq (hsome _ _ hm hnames (Sends.callGets_ok (fun _ _ => rfl) _ 0)), mapIdx_get,
      if_neg (by simp)]
    simp only [after]
    rw [Responses.getRequests, hf, htaken, hlen]

/-- Without a missing value the poll ends, with the verdict on what the peers have answered. -/
theorem tick_getting {results : List (Option (List ParameterValue))} {promises : List Promise}
    (h : Filled r.get 0 results promises) (hl : promises.length = clients.length) :
    ∃ results', Filled r.get 0 results' (results.zipWith Promise.collected promises)
      ∧ (results'.mapM id = none →
        tick r ⟨⟨clients, .getting results ((List.range clients.length).map r.names), deadline⟩,
          List.replicate clients.length .taken, promises,
          listRequests clients.length ++ r.getRequests clients.length, none⟩ now
          listIsReady getIsReady
        = ⟨⟨clients, .getting results' ((List.range clients.length).map r.names), deadline⟩,
            List.replicate clients.length .taken, results.zipWith Promise.collected promises,
            listRequests clients.length ++ r.getRequests clients.length, none⟩)
      ∧ (results'.mapM id ≠ none → ∃ results'',
        tick r ⟨⟨clients, .getting results ((List.range clients.length).map r.names), deadline⟩,
          List.replicate clients.length .taken, promises,
          listRequests clients.length ++ r.getRequests clients.length, none⟩ now
          listIsReady getIsReady
        = ⟨⟨clients, .getting results'' ((List.range clients.length).map r.names), deadline⟩,
            List.replicate clients.length .taken, List.replicate clients.length .taken,
            listRequests clients.length ++ r.getRequests clients.length,
            some (r.verdict clients)⟩) := by
  obtain ⟨results', hc, h'⟩ := h.collect
    (fun i => (promises.getD i .waiting).tryRecv (r.get i)) getD_tryRecv
  have hlen : (results.zipWith Promise.collected promises).length = clients.length := by
    rw [List.length_zipWith, h.length, hl, min_self]
  obtain ⟨hnone, hsome⟩ := run_getting clients
    (answers r
      ⟨⟨clients, .getting results ((List.range clients.length).map r.names), deadline⟩,
        List.replicate clients.length .taken, promises,
        listRequests clients.length ++ r.getRequests clients.length, none⟩
      listIsReady getIsReady) (listRequests clients.length ++ r.getRequests clients.length) hnow hc
  refine ⟨results', h', fun hm => ?_, fun hm => ?_⟩
  · rw [tick_eq (hnone hm)]
    rfl
  · obtain ⟨responses, hm⟩ := Option.ne_none_iff_exists'.mp hm
    obtain ⟨rfl, htaken⟩ := h'.all_there hm
    rw [hlen, ← List.range_eq_range'] at hm
    rw [hlen] at htaken
    have hv : (Poll.snapshot clients ((List.range clients.length).map r.names)
        ((List.range clients.length).map r.get)).mapError Stop.error = r.verdict clients := rfl
    rw [tick_eq (hsome _ hm), hv]
    rcases hr : r.verdict clients with e | parameters
    · refine ⟨results, ?_⟩
      simp only [after, Except.map, htaken]
    · refine ⟨results', ?_⟩
      simp only [after, Except.map, htaken]

end Ticks

/-- A tick keeps a poll where it can stand, and at most goes on to the next stage. -/
theorem Sound.tick {p : Polling} (h : p.Sound r clients) (ho : p.outcome = none) {now : Time}
    (hnow : ¬ now ≥ p.poll.deadline) (listIsReady getIsReady : ℕ → Bool) :
    (p.tick r now listIsReady getIsReady).Sound r clients
      ∧ ((p.tick r now listIsReady getIsReady).poll.stage.rank = p.poll.stage.rank
        ∨ (p.tick r now listIsReady getIsReady).poll.stage.rank = p.poll.stage.rank + 1) := by
  cases h with
  | ended => cases ho
  | ready deadline =>
    rw [tick_ready listIsReady getIsReady hnow]
    split_ifs
    · exact ⟨.listing _ (Filled.fresh _ _) (by simp), .inr rfl⟩
    · exact ⟨.ready deadline, .inl rfl⟩
  | listing deadline h hl =>
    obtain ⟨results', h', ht⟩ := tick_listing listIsReady getIsReady hnow h hl
    rw [ht]
    split_ifs
    · exact ⟨.listing _ h' (by rw [List.length_zipWith, h.length, hl, min_self]), .inl rfl⟩
    · exact ⟨.getting _ (Filled.fresh _ _) (by simp), .inr rfl⟩
  | getting deadline h hl =>
    obtain ⟨results', h', hnone, hsome⟩ := tick_getting listIsReady getIsReady hnow h hl
    by_cases hm : results'.mapM id = none
    · rw [hnone hm]
      exact ⟨.getting _ h' (by rw [List.length_zipWith, h.length, hl, min_self]), .inl rfl⟩
    · obtain ⟨results'', ht⟩ := hsome hm
      rw [ht]
      exact ⟨.ended results'' deadline, .inl rfl⟩

/-- A tick that finds nothing missing goes on to the next stage or ends the poll. -/
theorem Sound.progress {p : Polling} (h : p.Sound r clients) (ho : p.outcome = none) {now : Time}
    (hnow : ¬ now ≥ p.poll.deadline) {listIsReady getIsReady : ℕ → Bool}
    (hready : ∀ i, listIsReady i = true ∧ getIsReady i = true)
    (hw : .waiting ∉ p.lists ∧ .waiting ∉ p.gets) :
    (p.tick r now listIsReady getIsReady).outcome ≠ none
      ∨ (p.tick r now listIsReady getIsReady).poll.stage.rank = p.poll.stage.rank + 1 := by
  cases h with
  | ended => cases ho
  | ready deadline =>
    rw [tick_ready listIsReady getIsReady hnow, if_pos (by simp [hready])]
    exact .inr rfl
  | listing deadline h hl =>
    obtain ⟨results', h', ht⟩ := tick_listing listIsReady getIsReady hnow h hl
    rw [h.collected hw.1] at h'
    rw [ht, if_neg (by rw [h'.mapM_of_taken]; simp)]
    exact .inr rfl
  | getting deadline h hl =>
    obtain ⟨results', h', -, hsome⟩ := tick_getting listIsReady getIsReady hnow h hl
    rw [h.collected hw.2] at h'
    obtain ⟨results'', ht⟩ := hsome (by rw [h'.mapM_of_taken]; simp)
    rw [ht]
    exact .inl (by simp)

/-- Every step keeps a poll where it can stand, and the stages follow one another. -/
theorem Sound.step {p p' : Polling} {act : Act} (h : p.Sound r clients)
    (hs : p.step r act = some p') : p'.Sound r clients
      ∧ (p'.poll.stage.rank = p.poll.stage.rank
        ∨ p'.poll.stage.rank = p.poll.stage.rank + 1) := by
  unfold Polling.step at hs
  split at hs
  · cases hs
  · rename_i peer ho
    obtain ⟨lists, ha, rfl⟩ := Option.map_eq_some_iff.mp hs
    unfold arrives at ha
    split at ha
    · rename_i hw
      cases ha
      cases h with
      | listing deadline h hl =>
        exact ⟨.listing deadline (h.arrive hw) (by simpa using hl), .inl rfl⟩
      | _ => simp [List.getElem?_replicate] at hw
    · cases ha
  · rename_i peer ho
    obtain ⟨gets, ha, rfl⟩ := Option.map_eq_some_iff.mp hs
    unfold arrives at ha
    split at ha
    · rename_i hw
      cases ha
      cases h with
      | getting deadline h hl =>
        exact ⟨.getting deadline (h.arrive hw) (by simpa using hl), .inl rfl⟩
      | _ => simp [List.getElem?_replicate] at hw
    · cases ha
  · rename_i now listIsReady getIsReady ho
    split at hs
    · cases hs
    · rename_i hnow
      cases hs
      exact h.tick ho hnow listIsReady getIsReady

theorem sound_of_run {deadline : Time} {acts : List Polling.Act} {p : Polling}
    (hr : run (step r) (start clients deadline) acts = some p) : p.Sound r clients :=
  run_invariant (fun _ _ _ h hs => (h.step hs).1) hr (.ready deadline)

end Polling

/-! ## The verdict -/

namespace Poll

theorem peerSnapshot_of_known (peer : Name) : ∀ {names : List String}
    {values : List ParameterValue}, (∀ v ∈ values, (value v).isOk = true) →
      peerSnapshot peer names values = .ok ((names.zip values).filterMap fun x =>
        (value x.2).toOption.map fun kv => ⟨peer.1, peer.2, x.1, kv.1, kv.2⟩)
  | [], _, _ => rfl
  | _ :: _, [], _ => rfl
  | name :: names, v :: values, h => by
    have ih := @peerSnapshot_of_known peer names values fun v hv =>
      h v (List.mem_cons_of_mem _ hv)
    rcases hv : value v with e | kv
    · have := h v List.mem_cons_self
      rw [hv] at this
      cases this
    · rw [peerSnapshot, hv, ih, List.zip_cons_cons, List.filterMap_cons]
      simp only [hv]
      rfl

theorem peerSnapshot_of_unknown (peer : Name) : ∀ {names : List String}
    {values : List ParameterValue}, names.length = values.length →
      (∃ v ∈ values, (value v).isOk = false) → ∃ e, peerSnapshot peer names values = .error e
  | [], [], _, ⟨_, hv, _⟩ => by cases hv
  | name :: names, v :: values, hl, hu => by
    rcases hv : value v with e | kv
    · exact ⟨e, by rw [peerSnapshot, hv]; rfl⟩
    · obtain ⟨v', hm, hv'⟩ := hu
      rcases List.mem_cons.mp hm with rfl | hm
      · rw [hv] at hv'
        cases hv'
      · obtain ⟨e, he⟩ := peerSnapshot_of_unknown peer (by simpa using hl) ⟨v', hm, hv'⟩
        exact ⟨e, by rw [peerSnapshot, hv, he]; rfl⟩

/-- Peers that have all answered in full make a snapshot, each of its own rows. -/
theorem snapshot_of_complete (r : Responses) : ∀ (clients : List Name) (i : ℕ),
    (∀ peer, i ≤ peer → peer < i + clients.length → r.Complete peer) →
      snapshot clients ((List.range' i clients.length).map r.names)
          ((List.range' i clients.length).map r.get)
        = .ok ((clients.zipIdx i).flatMap fun x => r.rows x.2 x.1)
  | [], _, _ => rfl
  | client :: clients, i, h => by
    have hi := h i le_rfl (by simp)
    have ih := snapshot_of_complete r clients (i + 1) fun peer h₁ h₂ =>
      h peer (by omega) (by simp only [List.length_cons]; omega)
    rw [List.length_cons, List.range'_succ, List.map_cons, List.map_cons, snapshot,
      peerSnapshot_of_known client hi.2, ih, List.zipIdx_cons, List.flatMap_cons]
    simp only [hi.1, ne_eq, not_true_eq_false, if_false]
    rfl

/-- A peer that has not answered in full makes a snapshot fail. -/
theorem snapshot_of_incomplete (r : Responses) : ∀ (clients : List Name) (i : ℕ),
    (∃ peer, i ≤ peer ∧ peer < i + clients.length ∧ ¬ r.Complete peer) →
      ∃ e, snapshot clients ((List.range' i clients.length).map r.names)
        ((List.range' i clients.length).map r.get) = .error e
  | [], _, ⟨_, h₁, h₂, _⟩ => by
    simp only [List.length_nil] at h₂
    omega
  | client :: clients, i, ⟨peer, h₁, h₂, hp⟩ => by
    rw [List.length_cons, List.range'_succ, List.map_cons, List.map_cons, snapshot]
    by_cases hl : (r.names i).length = (r.get i).length
    · simp only [hl, ne_eq, not_true_eq_false, if_false]
      by_cases hk : ∀ v ∈ r.get i, (value v).isOk = true
      · have hne : peer ≠ i := fun h => hp (h ▸ ⟨hl, hk⟩)
        simp only [List.length_cons] at h₂
        obtain ⟨e, he⟩ := snapshot_of_incomplete r clients (i + 1)
          ⟨peer, by omega, by omega, hp⟩
        rw [peerSnapshot_of_known client hk, he]
        exact ⟨e, rfl⟩
      · push Not at hk
        obtain ⟨e, he⟩ := peerSnapshot_of_unknown client hl
          (by simpa using hk)
        exact ⟨e, by rw [he]; rfl⟩
    · simp only [hl, ne_eq, not_false_eq_true, if_true]
      exact ⟨_, rfl⟩

end Poll

theorem Responses.verdict_of_complete {r : Responses} {clients : List Name}
    (h : ∀ peer < clients.length, r.Complete peer) :
    r.verdict clients = .ok (clients.zipIdx.flatMap fun x => r.rows x.2 x.1) := by
  have hs := Poll.snapshot_of_complete r clients 0 fun peer _ hp => h peer (by omega)
  rw [← List.range_eq_range'] at hs
  rw [verdict, hs]
  rfl

theorem Responses.verdict_of_incomplete {r : Responses} {clients : List Name}
    (h : ∃ peer < clients.length, ¬ r.Complete peer) :
    ∃ e, r.verdict clients = .error (.error e) := by
  obtain ⟨peer, hp, hc⟩ := h
  obtain ⟨e, hs⟩ := Poll.snapshot_of_incomplete r clients 0 ⟨peer, by omega, by omega, hc⟩
  rw [← List.range_eq_range'] at hs
  exact ⟨e, by rw [verdict, hs]; rfl⟩

open Polling in
/-- What holds of a poll wherever a schedule of arrivals and ticks has left it. It has sent each
peer one request a stage, and the stages follow one another; it goes on when nothing is missing.
When it is over, every response has been handed over, and it ended with the rows of the peers in
their order if all have answered in full, else with an error, and as under any other schedule. -/
theorem poll_complete {r : Responses} {clients : List Name} {deadline : Time}
    {acts : List Polling.Act}
    {p : Polling} (hr : run (step r) (Polling.start clients deadline) acts = some p) :
    p.sent = r.requests clients.length p.poll.stage
      ∧ (∀ act p', p.step r act = some p' → p'.poll.stage.rank = p.poll.stage.rank
        ∨ p'.poll.stage.rank = p.poll.stage.rank + 1)
      ∧ (∀ now listIsReady getIsReady p', p.step r (.tick now listIsReady getIsReady) = some p' →
        (∀ i, listIsReady i = true ∧ getIsReady i = true) →
        .waiting ∉ p.lists → .waiting ∉ p.gets →
          p'.outcome ≠ none ∨ p'.poll.stage.rank = p.poll.stage.rank + 1)
      ∧ ∀ outcome ∈ p.outcome, p.poll.stage.rank = 2
        ∧ p.lists = List.replicate clients.length .taken
        ∧ p.gets = List.replicate clients.length .taken
        ∧ ((∀ peer < clients.length, r.Complete peer) →
          outcome = .ok (clients.zipIdx.flatMap fun x => r.rows x.2 x.1))
        ∧ ((∃ peer < clients.length, ¬ r.Complete peer) → ∃ e, outcome = .error (.error e))
        ∧ ∀ deadline' acts' p' outcome',
          run (step r) (Polling.start clients deadline') acts' = some p' →
            p'.outcome = some outcome' → outcome' = outcome := by
  have h := sound_of_run hr
  refine ⟨?_, fun act p' hs => (h.step hs).2, ?_, ?_⟩
  · cases h <;> rfl
  · intro now listIsReady getIsReady p' hs hready hl hg
    unfold Polling.step at hs
    split at hs
    · cases hs
    · cases ‹Polling.Act.tick _ _ _ = _›
    · cases ‹Polling.Act.tick _ _ _ = _›
    · rename_i ho heq
      cases heq
      split at hs
      · cases hs
      · rename_i hnow
        cases hs
        exact h.progress ho hnow hready ⟨hl, hg⟩
  · intro outcome ho
    have hover : ∀ {p : Polling} {outcome}, p.Sound r clients → p.outcome = some outcome →
        outcome = r.verdict clients := by
      intro p outcome h ho
      cases h with
      | ended => exact (Option.some.inj ho).symm
      | _ => cases ho
    have hv := hover h ho
    cases h with
    | ended results deadline =>
      refine ⟨rfl, rfl, rfl, fun hc => ?_, fun hc => ?_, fun _ _ _ _ hr' ho' => ?_⟩
      · rw [hv, Responses.verdict_of_complete hc]
      · rw [hv]
        exact Responses.verdict_of_incomplete hc
      · rw [hover (sound_of_run hr') ho', hv]
    | _ => cases ho

/-- Two peers, of which the first lists a name twice. -/
def twoPeers : Responses where
  list peer := if peer = 0 then ["b", "a", "b"] else ["rate"]
  get peer := if peer = 0 then [⟨1, true, 0, 0, "", [], [], [], [], []⟩,
    ⟨4, false, 0, 0, "x", [], [], [], [], []⟩] else [⟨2, false, 5, 0, "", [], [], [], [], []⟩]

/-- A schedule under which the second peer answers first. -/
def secondFirst : List Polling.Act :=
  let tick := Polling.Act.tick 0 (fun _ => true) fun _ => true
  [tick, .listArrives 1, tick, .listArrives 0, tick, .getArrives 1, tick, .getArrives 0, tick]

theorem poll_complete_second_first : ∃ p,
    run (Polling.step twoPeers) (Polling.start [("arm", "/"), ("base", "/")] 1) secondFirst = some p
      ∧ p.sent = [.list 0, .list 1, .get 0 ["a", "b"], .get 1 ["rate"]]
      ∧ p.outcome = some (.ok ([("arm", "/"), ("base", "/")].zipIdx.flatMap fun x =>
        twoPeers.rows x.2 x.1)) := by
  have h : ((run (Polling.step twoPeers) (Polling.start [("arm", "/"), ("base", "/")] 1)
      secondFirst).any fun p => p.outcome.isSome && p.poll.stage.rank = 2) = true := by
    decide +kernel
  simp only [Option.any_eq_true, Bool.and_eq_true, decide_eq_true_eq,
    Option.isSome_iff_exists] at h
  obtain ⟨p, hr, ⟨outcome, ho⟩, hrank⟩ := h
  obtain ⟨hsent, -, -, hover⟩ := poll_complete hr
  obtain ⟨-, -, -, hok, -⟩ := hover outcome ho
  have hc : ∀ peer < 2, twoPeers.Complete peer := by
    unfold Responses.Complete
    decide +kernel
  refine ⟨p, hr, ?_, by rw [ho, hok hc]⟩
  rw [hsent]
  rcases hs : p.poll.stage with _ | _ | _ <;> rw [hs] at hrank
  · cases hrank
  · cases hrank
  · have hreq : listRequests 2 ++ twoPeers.getRequests 2
        = [.list 0, .list 1, .get 0 ["a", "b"], .get 1 ["rate"]] := by decide +kernel
    exact hreq

end PgRos2
