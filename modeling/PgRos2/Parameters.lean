import PgRos2.Graph
import PgRos2.Message

/-!
# The parameter poll

`parameters.rs`: a poll asks every peer that offers the parameter services for its names and then
for their values, one stage after the other, and `persist` rewrites the table unless it takes it to
hold the rows already. What the peers and the ROS client library answer is an argument.
-/

namespace PgRos2

open Lib

/-- `rcl_interfaces/msg/ParameterValue`. -/
structure ParameterValue where
  type : UInt8
  boolValue : Bool
  integerValue : Int64
  doubleValue : Float
  stringValue : String
  byteArrayValue : List UInt8
  boolArrayValue : List Bool
  integerArrayValue : List Int64
  doubleArrayValue : List Float
  stringArrayValue : List String

/-- `json!` of an `i64`. -/
def jsonInt (i : Int64) : Value :=
  .number (if 0 ≤ i.toInt then .posInt (UInt64.ofNat i.toInt.toNat) else .negInt i)

/-- `json!` of an `f64`. -/
def jsonFloat (x : Float) : Value := if x.isFinite then .number (.float x) else .null

def value (parameter : ParameterValue) : Except String (String × Value) :=
  match parameter.type with
  | 0 => .ok ("not_set", .null)
  | 1 => .ok ("bool", .bool parameter.boolValue)
  | 2 => .ok ("integer", jsonInt parameter.integerValue)
  | 3 => .ok ("double", jsonFloat parameter.doubleValue)
  | 4 => .ok ("string", .string parameter.stringValue)
  | 5 => .ok ("byte_array",
      .array (parameter.byteArrayValue.map fun b => .number (.posInt (UInt64.ofNat b.toNat))))
  | 6 => .ok ("bool_array", .array (parameter.boolArrayValue.map .bool))
  | 7 => .ok ("integer_array", .array (parameter.integerArrayValue.map jsonInt))
  | 8 => .ok ("double_array", .array (parameter.doubleArrayValue.map jsonFloat))
  | 9 => .ok ("string_array", .array (parameter.stringArrayValue.map .string))
  | other => .error s!"unknown ROS parameter type {other}"

/-- A poll's stage, with what each peer has answered so far. -/
inductive Stage where
  | ready
  | listing (results : List (Option (List String)))
  | getting (results : List (Option (List ParameterValue))) (names : List (List String))

/-- One poll. A peer is a node's name and namespace, and its two clients. -/
structure Poll where
  clients : List Name
  stage : Stage
  deadline : Time

/-- What the ROS client library answers while a poll starts, by peer: the service names and types
of the node, and whether a client can be created. -/
structure StartAnswers where
  services : Name → Except String (List (String × List String))
  createClient : String → Except String Unit

/-- What it answers while a poll advances, by the peer's place in the poll. -/
structure TickAnswers where
  listIsReady : ℕ → Except String Bool
  getIsReady : ℕ → Except String Bool
  callList : ℕ → Except String Unit
  callGet : ℕ → List String → Except String Unit
  recvList : ℕ → Except String (Option (List String))
  recvGet : ℕ → Except String (Option (List ParameterValue))

/-- `collect`: what has arrived is kept, and the rest is asked for once. -/
def collect {T : Type} (tryRecv : ℕ → Except String (Option T)) :
    ℕ → List (Option T) → Except String (List (Option T))
  | _, [] => .ok []
  | i, some result :: results => do
    let results ← collect tryRecv (i + 1) results
    return some result :: results
  | i, none :: results => do
    let result ← tryRecv i
    let results ← collect tryRecv (i + 1) results
    return result :: results

namespace Poll

/-- The parameter services of a node. -/
def prefixOf (peer : Name) : String :=
  let trimmed := String.ofList (peer.2.toList.reverse.dropWhile (· = '/')).reverse
  s!"{trimmed}/{peer.1}"

/-- Whether the node offers `list_parameters`. -/
def offers (services : List (String × List String)) (list : String) : Bool :=
  match services.lookup list with
  | none => false
  | some types => types.any fun kind => kind = "rcl_interfaces/srv/ListParameters"

def startPeers (answers : StartAnswers) : List Name → Except String (List Name)
  | [] => .ok []
  | peer :: peers => do
    let services ← answers.services peer
    let list := s!"{prefixOf peer}/list_parameters"
    let get := s!"{prefixOf peer}/get_parameters"
    if offers services list then
      answers.createClient list
      answers.createClient get
      let clients ← startPeers answers peers
      return peer :: clients
    else startPeers answers peers

/-- Consecutive repetitions removed. -/
def dedup {α : Type} [DecidableEq α] (xs : List α) : List α := xs.destutter (· ≠ ·)

def start (now : Time) (nodes : List Name) (answers : StartAnswers) : Except String Poll := do
  let clients ← startPeers answers (dedup (nodes.insertionSort Name.Le))
  return ⟨clients, .ready, now + seconds 3⟩

/-- Whether every client of every peer is ready, asked in order up to the first that is not. -/
def allReady (answers : TickAnswers) : ℕ → List Name → Except String Bool
  | _, [] => .ok true
  | i, _ :: clients => do
    let list ← answers.listIsReady i
    if !list then return false
    let get ← answers.getIsReady i
    if !get then return false
    allReady answers (i + 1) clients

def callLists (answers : TickAnswers) : ℕ → List Name → Except String Unit
  | _, [] => .ok ()
  | i, _ :: clients => do
    answers.callList i
    callLists answers (i + 1) clients

def callGets (answers : TickAnswers) : ℕ → List (List String) → Except String Unit
  | _, [] => .ok ()
  | i, names :: rest => do
    answers.callGet i names
    callGets answers (i + 1) rest

/-- The parameters of one peer. -/
def peerSnapshot (peer : Name) : List String → List ParameterValue →
    Except String (List Parameter)
  | name :: names, v :: values => do
    let kv ← value v
    let rest ← peerSnapshot peer names values
    return ⟨peer.1, peer.2, name, kv.1, kv.2⟩ :: rest
  | _, _ => .ok []

/-- The parameters of all peers, each from its own response. -/
def snapshot : List Name → List (List String) → List (List ParameterValue) →
    Except String (List Parameter)
  | peer :: peers, names :: rest, values :: responses => do
    if names.length ≠ values.length then
      throw s!"{peer.2}/{peer.1}: parameter response length mismatch"
    let parameters ← peerSnapshot peer names values
    let more ← snapshot peers rest responses
    return parameters ++ more
  | _, _, _ => .ok []

def stageName : Stage → String
  | .ready => "service discovery"
  | .listing _ => "list"
  | .getting _ _ => "get"

/-- `tick`: the poll as it is left, and the snapshot when the last response is there. -/
def tick (poll : Poll) (now : Time) (answers : TickAnswers) :
    Except String (Poll × Option (List Parameter)) :=
  if now ≥ poll.deadline then
    .error s!"parameter {stageName poll.stage} timed out after 3 seconds"
  else
    match poll.stage with
    | .ready => do
      let ready ← allReady answers 0 poll.clients
      if !ready then return (poll, none)
      callLists answers 0 poll.clients
      return ({ poll with
        stage := .listing (poll.clients.map fun _ => none), deadline := now + seconds 3 }, none)
    | .listing results => do
      let results ← collect answers.recvList 0 results
      match results.mapM id with
      | none => return ({ poll with stage := .listing results }, none)
      | some lists =>
        let names := lists.map fun names => dedup (names.insertionSort (· ≤ ·))
        callGets answers 0 names
        return ({ poll with
          stage := .getting (poll.clients.map fun _ => none) names,
          deadline := now + seconds 3 }, none)
    | .getting results names => do
      let results ← collect answers.recvGet 0 results
      match results.mapM id with
      | none => return ({ poll with stage := .getting results names }, none)
      | some responses =>
        let parameters ← snapshot poll.clients names responses
        return ({ poll with stage := .getting results names }, some parameters)

end Poll

/-- The loop of `INSERT`s; `none` when one of them is an SQL error. -/
def insertParameters [Postgres] (now : Time) : List Parameter → Extension → Option Extension
  | [], ext => some ext
  | p :: ps, ext => (ext.insertParameter now p).bind (insertParameters now ps)

/-- `persist`, within its transaction: the database it leaves and the OID it found. `none` is an
aborted transaction. -/
def persist [Postgres] (ext : Option Extension) (pid : ℕ) (now : Time)
    (snapshot : Except String (List Parameter)) (previous : Option (List Parameter))
    (previousExtension : Option Oid) : Option (Option Extension × Option Oid) :=
  match ext with
  | none => some (none, none)
  | some ext =>
    let oid := ext.oid
    match snapshot with
    | .ok parameters => do
      let changed : Bool := !(previous.any fun previous => Parameter.eqAll previous parameters)
        || previousExtension ≠ some oid
      let ext ← if changed then insertParameters now parameters { ext with parameters := [] }
        else some ext
      return (some { ext with
        parameterStatus := some (upsertStatus ext.parameterStatus pid now changed none) }, some oid)
    | .error error =>
      some (some { ext with
        parameterStatus := some (upsertStatus ext.parameterStatus pid now false (some error)) },
        some oid)

end PgRos2
