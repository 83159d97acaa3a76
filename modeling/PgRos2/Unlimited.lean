import PgRos2.Encode

/-!
# The encoder without a byte limit

The walk of `subscriptions/json.rs` over a writer that takes everything: what is pushed is
appended, and only a long double or too deep a nesting is an error. And which messages have a long
double in the way of the walk.
-/

namespace PgRos2

open Lib

namespace Unlimited

def string (value : String) (out : String) : String := out ++ String.ofList (Json.quote value)

def separator (index : ℕ) (out : String) : String := if index > 0 then out ++ "," else out

/-- The braces and the depth check of a message, around its members. -/
def message (members : String → Except String String) (depth : ℕ) (out : String) :
    Except String String :=
  if depth > 64 then .error "message nesting exceeds 64 levels"
  else do
    let out ← members (out ++ "\x7b")
    return out ++ "\x7d"

def arrayElements {T : Type} (encode : T → String → Except String String) :
    ℕ → List T → String → Except String String
  | _, [], out => .ok out
  | index, value :: values, out => do
    let out ← encode value (separator index out)
    arrayElements encode (index + 1) values out

def array {T : Type} (values : List T) (encode : T → String → Except String String)
    (out : String) : Except String String := do
  let out ← arrayElements encode 0 values (out ++ "[")
  return out ++ "]"

/-- The arms of one container, an array or a sequence. -/
def container {V : Type} (e : ElemType) (values : List V)
    (encode : V → String → Except String String) (out : String) : Except String String :=
  if e.isLongDouble then .error "long double fields are unsupported"
  else array values encode out

variable [Rclrs]

/-- The text of a simple value, messages apart. -/
def simpleText : (k : Prim) → k.Carrier → Except String String
  | .float, (v : Float32) =>
    .ok (if v.isFinite then String.ofList (Rclrs.f32Display v).text else "null")
  | .double, (v : Float) =>
    .ok (if v.isFinite then String.ofList (Rclrs.f64Display v).text else "null")
  | .char, (v : UInt8) => .ok (displayInt v)
  | .wChar, (v : UInt16) => .ok (displayInt v)
  | .boolean, (v : Bool) => .ok (if v then "true" else "false")
  | .octet, (v : UInt8) => .ok (displayInt v)
  | .uint8, (v : UInt8) => .ok (displayInt v)
  | .int8, (v : Int8) => .ok (displayInt v)
  | .uint16, (v : UInt16) => .ok (displayInt v)
  | .int16, (v : Int16) => .ok (displayInt v)
  | .uint32, (v : UInt32) => .ok (displayInt v)
  | .int32, (v : Int32) => .ok (displayInt v)
  | .uint64, (v : UInt64) => .ok (displayInt v)
  | .int64, (v : Int64) => .ok (displayInt v)
  | .string, (v : String) => .ok (String.ofList (Json.quote v))
  | .boundedString _, v => .ok (String.ofList (Json.quote v.1))
  | .wString, (v : String) => .ok (String.ofList (Json.quote v))
  | .boundedWString _, v => .ok (String.ofList (Json.quote v.1))
  | .longDouble, _ => .error "long double fields are unsupported"

end Unlimited

section Encode

variable [Rclrs]

mutual

def Fields.unlimited : (fs : Fields) → fs.Val → ℕ → ℕ → String → Except String String
  | .nil, _, _, _, out => .ok out
  | .cons name type rest, v, index, depth, out => do
    let out ← type.unlimited v.1 (depth + 1)
      (Unlimited.string name (Unlimited.separator index out) ++ ":")
    rest.unlimited v.2 (index + 1) depth out

def FieldType.unlimited : (f : FieldType) → f.Val → ℕ → String → Except String String
  | .simple e, v, depth, out => e.unlimited v depth out
  | .array e _, v, depth, out => Unlimited.container e v.1 (fun v => e.unlimited v depth) out
  | .sequence e, v, depth, out =>
    Unlimited.container (V := e.Val) e v (fun v => e.unlimited v depth) out
  | .boundedSequence e _, v, depth, out =>
    Unlimited.container e v.1 (fun v => e.unlimited v depth) out

def ElemType.unlimited : (e : ElemType) → e.Val → ℕ → String → Except String String
  | .prim k, v, _, out => (Unlimited.simpleText k v).map (out ++ ·)
  | .message _ fields, v, depth, out => Unlimited.message (fields.unlimited v 0 depth) depth out

end

def Unlimited.envelope {T : MessageType} (topic messageType : String) (sequence : ℕ)
    (message : T.Val) (out : String) : Except String String := do
  let out := Unlimited.string topic (out ++ "\x7b\"topic\":") ++ ",\"message_type\":"
  let out := Unlimited.string messageType out ++ ",\"sequence\":" ++ toString sequence
  let out ← Unlimited.message (T.fields.unlimited message 0 0) 0 (out ++ ",\"message\":")
  return out ++ "\x7d"

/-- The envelope of a message, however long. -/
def Unlimited.payload {T : MessageType} (topic messageType : String) (sequence : ℕ)
    (message : T.Val) : Except String String :=
  Unlimited.envelope topic messageType sequence message ""

mutual

/-- The walk over the fields reaches a long double. -/
def Fields.ReachesLongDouble : (fs : Fields) → fs.Val → Prop
  | .nil, _ => False
  | .cons _ type rest, v => type.ReachesLongDouble v.1 ∨ rest.ReachesLongDouble v.2

/-- An array or a sequence of long doubles is refused before its elements are looked at. -/
def FieldType.ReachesLongDouble : (f : FieldType) → f.Val → Prop
  | .simple e, v => e.ReachesLongDouble v
  | .array e _, v => e.isLongDouble ∨ ∃ x ∈ v.1, e.ReachesLongDouble x
  | .sequence e, v => e.isLongDouble ∨ ∃ x ∈ (show List e.Val from v), e.ReachesLongDouble x
  | .boundedSequence e _, v => e.isLongDouble ∨ ∃ x ∈ v.1, e.ReachesLongDouble x

def ElemType.ReachesLongDouble : (e : ElemType) → e.Val → Prop
  | .prim k, _ => k = .longDouble
  | .message _ fields, v => fields.ReachesLongDouble v

end

/-- The walk over a whole message reaches a long double. -/
def MessageType.ReachesLongDouble (T : MessageType) (message : T.Val) : Prop :=
  T.fields.ReachesLongDouble message

end Encode

end PgRos2
