import PgRos2.Parameters
import PgRos2.Lib.Run

/-!
# A poll and its peers

The ticks of one poll between the responses of its peers. `tickSending` is `tick` with what it
sends written down and with the `unwrap`s it makes on the responses; a response is a promise that
arrives at any time after its request and is handed over once.
-/

namespace PgRos2

open Lib

/-- What a poll sends, to a peer by its place in the poll. -/
inductive Request where
  | list (peer : ℕ)
  | get (peer : ℕ) (names : List String)
  deriving DecidableEq

/-- The stages in their order. -/
def Stage.rank : Stage → ℕ
  | .ready => 0
  | .listing _ => 1
  | .getting _ _ => 2

/-- How a tick ends early: with an error, or with a panic in an `unwrap`. -/
inductive Stop where
  | error (text : String)
  | unwrap

/-- A computation that sends requests, also when it ends early. -/
abbrev Sends := ExceptT Stop (StateM (List Request))

namespace Sends

def lift {α : Type} (x : Except String α) : Sends α := ExceptT.mk (pure (x.mapError .error))

/-- `call`, and what comes of it. -/
def send (request : Request) (answer : Except String Unit) : Sends Unit := do
  modify (· ++ [request])
  lift answer

def lists (answers : TickAnswers) : ℕ → List Name → Sends Unit
  | _, [] => pure ()
  | i, _ :: clients => do
    send (.list i) (answers.callList i)
    lists answers (i + 1) clients

def gets (answers : TickAnswers) : ℕ → List (List String) → Sends Unit
  | _, [] => pure ()
  | i, names :: rest => do
    send (.get i names) (answers.callGet i names)
    gets answers (i + 1) rest

/-- `result.take().unwrap()` on every result. -/
def takeAll {T : Type} : List (Option T) → Sends (List T)
  | [] => pure []
  | none :: _ => throw .unwrap
  | some result :: results => do
    let rest ← takeAll results
    return result :: rest

end Sends

/-- `tick`, with what it sends. -/
def Poll.tickSending (poll : Poll) (now : Time) (answers : TickAnswers) :
    Sends (Poll × Option (List Parameter)) :=
  if now ≥ poll.deadline then
    throw (.error s!"parameter {stageName poll.stage} timed out after 3 seconds")
  else
    match poll.stage with
    | .ready => do
      let ready ← Sends.lift (allReady answers 0 poll.clients)
      if !ready then return (poll, none)
      Sends.lists answers 0 poll.clients
      return ({ poll with
        stage := .listing (poll.clients.map fun _ => none), deadline := now + seconds 3 }, none)
    | .listing results => do
      let results ← Sends.lift (collect answers.recvList 0 results)
      if !results.all Option.isSome then return ({ poll with stage := .listing results }, none)
      let lists ← Sends.takeAll results
      let names := lists.map fun names => dedup (names.insertionSort (· ≤ ·))
      Sends.gets answers 0 names
      return ({ poll with
        stage := .getting (poll.clients.map fun _ => none) names,
        deadline := now + seconds 3 }, none)
    | .getting results names => do
      let results ← Sends.lift (collect answers.recvGet 0 results)
      if !results.all Option.isSome then
        return ({ poll with stage := .getting results names }, none)
      let responses ← Sends.takeAll results
      let parameters ← Sends.lift (snapshot poll.clients names responses)
      return ({ poll with stage := .getting results names }, some parameters)

/-- Where a response stands: not there yet, there, or handed over. -/
inductive Promise where
  | waiting
  | arrived
  | taken
  deriving DecidableEq

namespace Promise

/-- `try_recv`, of the response `v`. -/
def tryRecv {α : Type} (v : α) : Promise → Except String (Option α)
  | waiting => .ok none
  | arrived => .ok (some v)
  | taken => .error "oneshot canceled"

/-- The promise of a result after `collect`: it was asked if the result was not there. -/
def collected {α : Type} : Option α → Promise → Promise
  | none, arrived => taken
  | _, promise => promise

end Promise

/-- What each peer answers, by its place in the poll. -/
structure Responses where
  list : ℕ → List String
  get : ℕ → List ParameterValue

/-- A poll with the promises of its requests, what it has sent, and how it ended if it did. -/
structure Polling where
  poll : Poll
  lists : List Promise
  gets : List Promise
  sent : List Request
  outcome : Option (Except Stop (List Parameter))

/-- A response arrives, or the loop ticks and finds some services ready. -/
inductive Polling.Act where
  | listArrives (peer : ℕ)
  | getArrives (peer : ℕ)
  | tick (now : Time) (listIsReady getIsReady : ℕ → Bool)

namespace Polling

def start (clients : List Name) (deadline : Time) : Polling :=
  ⟨⟨clients, .ready, deadline⟩, [], [], [], none⟩

/-- The answers of a tick in which no call errs. -/
def answers (r : Responses) (p : Polling) (listIsReady getIsReady : ℕ → Bool) : TickAnswers where
  listIsReady i := .ok (listIsReady i)
  getIsReady i := .ok (getIsReady i)
  callList _ := .ok ()
  callGet _ _ := .ok ()
  recvList i := (p.lists.getD i .waiting).tryRecv (r.list i)
  recvGet i := (p.gets.getD i .waiting).tryRecv (r.get i)

/-- A response can arrive once its request was sent. -/
def arrives (promises : List Promise) (peer : ℕ) : Option (List Promise) :=
  if promises[peer]? = some .waiting then some (promises.set peer .arrived) else none

/-- The poll after a tick: what was asked for is handed over, and each request that was sent makes a
promise. A snapshot or a failure is the end of the poll. -/
def after (p : Polling) (result : Except Stop (Poll × Option (List Parameter)))
    (sent : List Request) : Polling :=
  let fresh := (sent.drop p.sent.length).map fun _ => Promise.waiting
  let (lists, gets) :=
    match p.poll.stage with
    | .ready => (fresh, p.gets)
    | .listing results => (results.zipWith Promise.collected p.lists, fresh)
    | .getting results _ => (p.lists, results.zipWith Promise.collected p.gets)
  match result with
  | .ok (poll, none) => ⟨poll, lists, gets, sent, none⟩
  | .ok (poll, some snapshot) => ⟨poll, lists, gets, sent, some (.ok snapshot)⟩
  | .error failure => ⟨p.poll, lists, gets, sent, some (.error failure)⟩

/-- A tick of the loop. -/
def tick (r : Responses) (p : Polling) (now : Time) (listIsReady getIsReady : ℕ → Bool) : Polling :=
  let run := (p.poll.tickSending now (p.answers r listIsReady getIsReady)).run.run p.sent
  p.after run.1 run.2

/-- A poll that is over takes no more steps, and no tick comes at a deadline or later. -/
def step (r : Responses) (p : Polling) (act : Act) : Option Polling :=
  match p.outcome, act with
  | some _, _ => none
  | none, .listArrives peer => (arrives p.lists peer).map fun lists => { p with lists }
  | none, .getArrives peer => (arrives p.gets peer).map fun gets => { p with gets }
  | none, .tick now listIsReady getIsReady =>
    if now ≥ p.poll.deadline then none else some (p.tick r now listIsReady getIsReady)

end Polling

/-! ## What a poll is for -/

namespace Responses

/-- What a peer is asked the values of: its names in order, without repetitions. -/
def names (r : Responses) (peer : ℕ) : List String :=
  Poll.dedup ((r.list peer).insertionSort (· ≤ ·))

/-- A peer has answered as many values as it was asked for, each of a known type. -/
def Complete (r : Responses) (peer : ℕ) : Prop :=
  (r.names peer).length = (r.get peer).length ∧ ∀ v ∈ r.get peer, (value v).isOk = true

/-- The rows of a peer: its names with the values that stand in their places. -/
def rows (r : Responses) (peer : ℕ) (name : Name) : List Parameter :=
  ((r.names peer).zip (r.get peer)).filterMap fun x =>
    (value x.2).toOption.map fun kv => ⟨name.1, name.2, x.1, kv.1, kv.2⟩

def getRequests (r : Responses) (n : ℕ) : List Request :=
  (List.range n).map fun peer => .get peer (r.names peer)

end Responses

def listRequests (n : ℕ) : List Request := (List.range n).map .list

/-- All a poll has sent by a stage. -/
def Responses.requests (r : Responses) (n : ℕ) : Stage → List Request
  | .ready => []
  | .listing _ => listRequests n
  | .getting _ _ => listRequests n ++ r.getRequests n

/-- How a poll ends that has heard from all its peers. -/
def Responses.verdict (r : Responses) (clients : List Name) : Except Stop (List Parameter) :=
  (Poll.snapshot clients ((List.range clients.length).map r.names)
    ((List.range clients.length).map r.get)).mapError .error

end PgRos2
