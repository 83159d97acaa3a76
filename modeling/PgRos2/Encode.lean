import PgRos2.Message

/-!
# The encoder

`subscriptions/json.rs`: a JSON writer that refuses to grow past a byte limit, the walk over a
message that feeds it, and `payload`, the envelope of a notification.
-/

namespace PgRos2

open Lib

/-- PostgreSQL refuses a notification payload of 8000 bytes or more. -/
def notifyLimit : ℕ := 7999

/-- A JSON writer that refuses to grow past a byte limit. -/
structure Output where
  text : String
  limit : ℕ
  fits : text.utf8ByteSize ≤ limit

namespace Output

def new (limit : ℕ) : Output := ⟨"", limit, by simp⟩

def limitError (limit : ℕ) : String := s!"encoded message exceeds the {limit} byte limit"

/-- `push_str`, within the limit. -/
def pushStr (out : Output) (value : String)
    (h : ¬ out.text.utf8ByteSize + value.utf8ByteSize > out.limit) : Output :=
  ⟨out.text ++ value, out.limit, by rw [String.utf8ByteSize_append]; omega⟩

/-- `Write::write_str`; `none` is `fmt::Error`. -/
def writeStr (out : Output) (value : String) : Option Output :=
  if h : out.text.utf8ByteSize + value.utf8ByteSize > out.limit then none
  else some (out.pushStr value h)

/-- `write!`: the pieces the value is formatted in, up to the first that does not fit. -/
def write (out : Output) (pieces : List String) : Option Output := pieces.foldlM writeStr out

def push (out : Output) (value : String) : Except String Output :=
  if h : out.text.utf8ByteSize + value.utf8ByteSize > out.limit then .error (limitError out.limit)
  else .ok (out.pushStr value h)

variable [Rclrs]

/-- A string is formatted into a writer of its own first, and its quoted form pushed. -/
def string (out : Output) (value : String) : Except String Output :=
  match (Output.new out.limit).write (Rclrs.pieces value) with
  | none => .error (limitError out.limit)
  | some raw => out.push (String.ofList (Json.quote raw.text))

def number (out : Output) (value : String) : Except String Output :=
  match out.write (Rclrs.pieces value) with
  | none => .error (limitError out.limit)
  | some out => .ok out

/-- The braces and the depth check of a message, around its members. -/
def message (members : Output → Except String Output) (depth : ℕ) (out : Output) :
    Except String Output :=
  if depth > 64 then .error "message nesting exceeds 64 levels"
  else do
    let out ← out.push "\x7b"
    let out ← members out
    out.push "\x7d"

/-- The comma before every member and element but the first. -/
def separator (index : ℕ) (out : Output) : Except String Output :=
  if index > 0 then out.push "," else .ok out

def arrayElements {T : Type} (encode : T → Output → Except String Output) :
    ℕ → List T → Output → Except String Output
  | _, [], out => .ok out
  | index, value :: values, out => do
    let out ← separator index out
    let out ← encode value out
    arrayElements encode (index + 1) values out

def array {T : Type} (values : List T) (encode : T → Output → Except String Output)
    (out : Output) : Except String Output := do
  let out ← out.push "["
  let out ← arrayElements encode 0 values out
  out.push "]"

end Output

variable [Rclrs]

/-- What an integer displays as. -/
def displayInt {T : Type} [FixedInt T] (v : T) : String :=
  String.ofList (Json.Numeral.ofInt (FixedInt.toInt v)).text

/-- The `SimpleValue` arms of `Output::value`, messages apart. -/
def Output.simpleValue : (k : Prim) → k.Carrier → Output → Except String Output
  | .float, (v : Float32), out =>
    if v.isFinite then out.number (String.ofList (Rclrs.f32Display v).text) else out.push "null"
  | .double, (v : Float), out =>
    if v.isFinite then out.number (String.ofList (Rclrs.f64Display v).text) else out.push "null"
  | .char, (v : UInt8), out => out.number (displayInt v)
  | .wChar, (v : UInt16), out => out.number (displayInt v)
  | .boolean, (v : Bool), out => out.number (if v then "true" else "false")
  | .octet, (v : UInt8), out => out.number (displayInt v)
  | .uint8, (v : UInt8), out => out.number (displayInt v)
  | .int8, (v : Int8), out => out.number (displayInt v)
  | .uint16, (v : UInt16), out => out.number (displayInt v)
  | .int16, (v : Int16), out => out.number (displayInt v)
  | .uint32, (v : UInt32), out => out.number (displayInt v)
  | .int32, (v : Int32), out => out.number (displayInt v)
  | .uint64, (v : UInt64), out => out.number (displayInt v)
  | .int64, (v : Int64), out => out.number (displayInt v)
  | .string, (v : String), out => out.string v
  | .boundedString _, v, out => out.string v.1
  | .wString, (v : String), out => out.string v
  | .boundedWString _, v, out => out.string v.1
  | .longDouble, _, _ => .error "long double fields are unsupported"

/-- The arms of one container: the closure of an arm encodes an element as the `SimpleValue` arm
of its kind does, and the long double arm refuses before it looks at the values. -/
def Output.container (e : ElemType) (values : List e.Val)
    (encode : e.Val → Output → Except String Output) (out : Output) : Except String Output :=
  if e.isLongDouble then .error "long double fields are unsupported"
  else out.array values encode

/-- The `ArrayValue` arms of `Output::value`. -/
def Output.arrayValue := @Output.container

/-- The `SequenceValue` arms of `Output::value`. -/
def Output.sequenceValue := @Output.container

/-- The `BoundedSequenceValue` arms of `Output::value`. -/
def Output.boundedSequenceValue := @Output.container

mutual

/-- The members `Output::message` writes between its braces. -/
def Fields.encode : (fs : Fields) → fs.Val → ℕ → ℕ → Output → Except String Output
  | .nil, _, _, _, out => .ok out
  | .cons name type rest, v, index, depth, out => do
    let out ← Output.separator index out
    let out ← out.string name
    let out ← out.push ":"
    let out ← type.encode v.1 (depth + 1) out
    rest.encode v.2 (index + 1) depth out

/-- `Output::value`. -/
def FieldType.encode : (f : FieldType) → f.Val → ℕ → Output → Except String Output
  | .simple e, v, depth, out => e.encode v depth out
  | .array e _, v, depth, out => Output.arrayValue e v.1 (fun v => e.encode v depth) out
  | .sequence e, v, depth, out => Output.sequenceValue e v (fun v => e.encode v depth) out
  | .boundedSequence e _, v, depth, out =>
    Output.boundedSequenceValue e v.1 (fun v => e.encode v depth) out

def ElemType.encode : (e : ElemType) → e.Val → ℕ → Output → Except String Output
  | .prim k, v, _, out => Output.simpleValue k v out
  | .message _ fields, v, depth, out => Output.message (fields.encode v 0 depth) depth out

end

/-- What `payload` writes, piece by piece. The sequence is a `u64` counter of callbacks. -/
def Output.envelope {T : MessageType} (topic messageType : String) (sequence : ℕ)
    (message : T.Val) (output : Output) : Except String Output := do
  let output ← output.push "\x7b\"topic\":"
  let output ← output.string topic
  let output ← output.push ",\"message_type\":"
  let output ← output.string messageType
  let output ← output.push ",\"sequence\":"
  let output ← output.number (toString sequence)
  let output ← output.push ",\"message\":"
  let output ← Output.message (T.fields.encode message 0 0) 0 output
  output.push "\x7d"

/-- The envelope of a message, within the limit. -/
def payload {T : MessageType} (topic messageType : String) (sequence : ℕ) (message : T.Val)
    (limit : ℕ) : Except String String :=
  (Output.envelope topic messageType sequence message (Output.new limit)).map Output.text

end PgRos2
