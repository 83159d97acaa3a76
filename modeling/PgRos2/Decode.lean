import PgRos2.Message
import PgRos2.Serde

/-!
# The decoder

`publish/json.rs`: a JSON object is written into a message, member by member. A slot of the message
is the value it holds, and a function that fills a slot returns the value it leaves there. Where
the code zips a slice with the items, `overwrite` stops at the shorter of the two.
-/

namespace PgRos2

open Lib

/-- How decoding ends badly: with the error text, or in a panic. -/
inductive Failure where
  | error (text : String)
  | panic (text : String)
  deriving DecidableEq

def unsupported (name : String) : Failure := .error s!"{name}: long double fields are unsupported"

def string (value : Value) (name : String) : Except Failure String :=
  match value.asStr with
  | some s => .ok s
  | none => .error (.error s!"{name}: expected a JSON string")

def boolean (value : Value) (name : String) : Except Failure Bool :=
  match value.asBool with
  | some b => .ok b
  | none => .error (.error s!"{name}: expected a JSON boolean")

/-- Null reads as NaN, which is what the encoder writes a float that is not finite as. -/
def float64 (value : Value) (name : String) : Except Failure Float :=
  if value.isNull then .ok f64Nan
  else
    match value.asF64 with
    | some x => .ok x
    | none => .error (.error s!"{name}: expected a JSON number or null")

/-- `T::try_from` at an `i128`. -/
def FixedInt.tryFrom {T : Type} [FixedInt T] (number : ℤ) : Option T :=
  if FixedInt.lo T ≤ number ∧ number ≤ FixedInt.hi T then some (FixedInt.ofInt number) else none

def integer {T : Type} [FixedInt T] (value : Value) (name : String) : Except Failure T :=
  match (value.asI64.map Int64.toInt).or (value.asU64.map fun n => (n.toNat : ℤ)) with
  | none => .error (.error s!"{name}: expected a JSON integer")
  | some number =>
    match FixedInt.tryFrom number with
    | some v => .ok v
    | none => .error (.error s!"{name}: integer {number} is out of range")

def float32 (value : Value) (name : String) : Except Failure Float32 := do
  let number ← float64 value name
  return asF32 number

def jsonArray (value : Value) (name : String) : Except Failure (List Value) :=
  match value.asArray with
  | some items => .ok items
  | none => .error (.error s!"{name}: expected a JSON array")

def checkLength (expected actual : ℕ) (name : String) : Except Failure Unit :=
  if expected = actual then .ok ()
  else .error (.error s!"{name}: expected {expected} array elements, got {actual}")

/-- `for (element, item) in slot.iter_mut().zip(items)`, each element overwritten by its item. -/
def overwrite {T : Type} (write : T → Value → Except Failure T) :
    (slot : List T) → List Value → Except Failure { xs : List T // xs.length = slot.length }
  | [], _ => .ok ⟨[], rfl⟩
  | slot, [] => .ok ⟨slot, rfl⟩
  | element :: slot, item :: items => do
    let x ← write element item
    let xs ← overwrite write slot items
    return ⟨x :: xs.1, congrArg (· + 1) xs.2⟩

/-- A fixed array's slice of `n` elements. -/
abbrev Slice (T : Type) (n : ℕ) : Type := { xs : List T // xs.length = n }

/-- The loop of the `fill_*` functions: the lengths agree, and each item is written in place. -/
def fill {T : Type} {n : ℕ} (write : T → Value → Except Failure T) (slot : Slice T n)
    (items : List Value) (name : String) : Except Failure (Slice T n) := do
  checkLength slot.1.length items.length name
  let xs ← overwrite write slot.1 items
  return ⟨xs.1, xs.2.trans slot.2⟩

def fillInteger {T : Type} [FixedInt T] {n : ℕ} (slot : Slice T n) (items : List Value)
    (name : String) : Except Failure (Slice T n) :=
  fill (fun _ item => integer item name) slot items name

def fillF32 {n : ℕ} (slot : Slice Float32 n) (items : List Value) (name : String) :
    Except Failure (Slice Float32 n) :=
  fill (fun _ item => float32 item name) slot items name

def fillF64 {n : ℕ} (slot : Slice Float n) (items : List Value) (name : String) :
    Except Failure (Slice Float n) :=
  fill (fun _ item => float64 item name) slot items name

def fillBoolean {n : ℕ} (slot : Slice Bool n) (items : List Value) (name : String) :
    Except Failure (Slice Bool n) :=
  fill (fun _ item => boolean item name) slot items name

def fillString {n : ℕ} (slot : Slice String n) (items : List Value) (name : String) :
    Except Failure (Slice String n) :=
  fill (fun _ item => string item name) slot items name

/-- `try_assign` of a string whose length is bounded, with the error text of every caller. -/
def tryAssign (length : String → ℕ) (bound : ℕ) (value : Value) (name : String) :
    Except Failure { s : String // length s ≤ bound } := do
  let s ← string value name
  if h : length s ≤ bound then return ⟨s, h⟩
  else throw (.error s!"{name}: string exceeds its ROS bound")

section Bounded

variable [Bounds]

def fillBoundedString {bound n : ℕ} (slot : Slice (Prim.boundedString bound).Carrier n)
    (items : List Value) (name : String) :
    Except Failure (Slice (Prim.boundedString bound).Carrier n) :=
  fill (fun _ item => tryAssign Bounds.stringLength bound item name) slot items name

def fillBoundedWstring {bound n : ℕ} (slot : Slice (Prim.boundedWString bound).Carrier n)
    (items : List Value) (name : String) :
    Except Failure (Slice (Prim.boundedWString bound).Carrier n) :=
  fill (fun _ item => tryAssign Bounds.wstringLength bound item name) slot items name

end Bounded

/-- A view is a message's value, and `messageView` the function that overlays JSON on it. -/
def fillMessage {V : Type} {n : ℕ} (messageView : V → Value → String → Except Failure V)
    (slot : Slice V n) (items : List Value) (name : String) : Except Failure (Slice V n) :=
  fill (fun view item => messageView view item name) slot items name

def collectInteger {T : Type} [FixedInt T] (items : List Value) (name : String) :
    Except Failure (List T) :=
  items.mapM fun item => integer item name

def collectF32 (items : List Value) (name : String) : Except Failure (List Float32) :=
  items.mapM fun item => float32 item name

def collectF64 (items : List Value) (name : String) : Except Failure (List Float) :=
  items.mapM fun item => float64 item name

def collectBoolean (items : List Value) (name : String) : Except Failure (List Bool) :=
  items.mapM fun item => boolean item name

def collectString (items : List Value) (name : String) : Except Failure (List String) :=
  items.mapM fun item => string item name

/-- The loop over the members of an object, each member assigned to the field of its name. -/
def assignMembers {V : Type} (assign : String → Value → V → Except Failure V) :
    List (String × Value) → V → Except Failure V
  | [], view => .ok view
  | (field, item) :: object, view => do
    let view ← assign field item view
    assignMembers assign object view

variable [Rclrs]

/-- The loop over a sequence that was reset to the length of the items. -/
def refill (e : ElemType) (write : e.Val → Value → Except Failure e.Val) (items : List Value) :
    Except Failure (List e.Val) := do
  let xs ← overwrite write (Rclrs.reset e items.length) items
  return xs.1

/-- `try_reset`: as `reset`, unless the bound is exceeded. -/
def tryReset (e : ElemType) (bound n : ℕ) : Option { xs : List e.Val // xs.length ≤ bound } :=
  if h : n ≤ bound then some ⟨Rclrs.reset e n, by simpa [Rclrs.reset_eq] using h⟩ else none

def resize (e : ElemType) (bound : ℕ) (items : List Value) (name : String) :
    Except Failure { xs : List e.Val // xs.length ≤ bound } :=
  if items.length > bound then
    .error (.error s!"{name}: {items.length} sequence elements exceed the ROS bound of {bound}")
  else
    match tryReset e bound items.length with
    | none => .error (.error s!"{name}: sequence exceeds the ROS bound of {bound}")
    | some slot => .ok slot

/-- A bounded sequence: it is resized, and each item is written in place. -/
def resizeFill (e : ElemType) (bound : ℕ) (write : e.Val → Value → Except Failure e.Val)
    (items : List Value) (name : String) :
    Except Failure { xs : List e.Val // xs.length ≤ bound } := do
  let slot ← resize e bound items name
  let xs ← overwrite write slot.1 items
  return ⟨xs.1, xs.2.trans_le slot.2⟩

/-- `message_view`, over the view's field names and the function that assigns a field. -/
def messageView {V : Type} (names : List String)
    (assign : String → Value → String → V → Except Failure V) (view : V) (value : Value)
    (name : String) : Except Failure V :=
  match value.asObject with
  | none => .error (.error s!"{name}: expected a JSON object")
  | some object =>
    match object.find? fun member => !names.contains member.1 with
    | some (field, _) => .error (.error s!"{name}: unknown message field {Rclrs.debug field}")
    | none => assignMembers (fun field item => assign field item s!"{name}.{field}") object view

/-- The `SimpleValueMut` arms of `simple`, messages apart. -/
def simplePrim : (k : Prim) → Value → String → Except Failure k.Carrier
  | .float, value, name => float32 value name
  | .double, value, name => float64 value name
  | .longDouble, _, name => .error (unsupported name)
  | .char, value, name => integer (T := UInt8) value name
  | .wChar, value, name => integer (T := UInt16) value name
  | .boolean, value, name => boolean value name
  | .octet, value, name => integer (T := UInt8) value name
  | .uint8, value, name => integer (T := UInt8) value name
  | .int8, value, name => integer (T := Int8) value name
  | .uint16, value, name => integer (T := UInt16) value name
  | .int16, value, name => integer (T := Int16) value name
  | .uint32, value, name => integer (T := UInt32) value name
  | .int32, value, name => integer (T := Int32) value name
  | .uint64, value, name => integer (T := UInt64) value name
  | .int64, value, name => integer (T := Int64) value name
  | .string, value, name => string value name
  | .boundedString bound, value, name => tryAssign Bounds.stringLength bound value name
  | .wString, value, name => string value name
  | .boundedWString bound, value, name => tryAssign Bounds.wstringLength bound value name

/-- The `ArrayValueMut` arms of `array`, messages apart. -/
def arrayPrim {n : ℕ} : (k : Prim) → Slice k.Carrier n → List Value → String →
    Except Failure (Slice k.Carrier n)
  | .float, slot, items, name => fillF32 slot items name
  | .double, slot, items, name => fillF64 slot items name
  | .longDouble, _, _, name => .error (unsupported name)
  | .char, slot, items, name => fillInteger (T := UInt8) slot items name
  | .wChar, slot, items, name => fillInteger (T := UInt16) slot items name
  | .boolean, slot, items, name => fillBoolean slot items name
  | .octet, slot, items, name => fillInteger (T := UInt8) slot items name
  | .uint8, slot, items, name => fillInteger (T := UInt8) slot items name
  | .int8, slot, items, name => fillInteger (T := Int8) slot items name
  | .uint16, slot, items, name => fillInteger (T := UInt16) slot items name
  | .int16, slot, items, name => fillInteger (T := Int16) slot items name
  | .uint32, slot, items, name => fillInteger (T := UInt32) slot items name
  | .int32, slot, items, name => fillInteger (T := Int32) slot items name
  | .uint64, slot, items, name => fillInteger (T := UInt64) slot items name
  | .int64, slot, items, name => fillInteger (T := Int64) slot items name
  | .string, slot, items, name => fillString slot items name
  | .boundedString _, slot, items, name => fillBoundedString slot items name
  | .wString, slot, items, name => fillString slot items name
  | .boundedWString _, slot, items, name => fillBoundedWstring slot items name

/-- The `SequenceValueMut` arms of `sequence`, messages apart. -/
def sequencePrim : (k : Prim) → List Value → String → Except Failure (List k.Carrier)
  | .float, items, name => collectF32 items name
  | .double, items, name => collectF64 items name
  | .longDouble, _, name => .error (unsupported name)
  | .char, items, name => collectInteger (T := UInt8) items name
  | .wChar, items, name => collectInteger (T := UInt16) items name
  | .boolean, items, name => collectBoolean items name
  | .octet, items, name => collectInteger (T := UInt8) items name
  | .uint8, items, name => collectInteger (T := UInt8) items name
  | .int8, items, name => collectInteger (T := Int8) items name
  | .uint16, items, name => collectInteger (T := UInt16) items name
  | .int16, items, name => collectInteger (T := Int16) items name
  | .uint32, items, name => collectInteger (T := UInt32) items name
  | .int32, items, name => collectInteger (T := Int32) items name
  | .uint64, items, name => collectInteger (T := UInt64) items name
  | .int64, items, name => collectInteger (T := Int64) items name
  | .string, items, name => collectString items name
  | .boundedString bound, items, name =>
    refill (.prim (.boundedString bound))
      (fun _ item => tryAssign Bounds.stringLength bound item name) items
  | .wString, items, name => collectString items name
  | .boundedWString bound, items, name =>
    refill (.prim (.boundedWString bound))
      (fun _ item => tryAssign Bounds.wstringLength bound item name) items

/-- The `BoundedSequenceValueMut` arms of `bounded_sequence`, messages apart. -/
def boundedSequencePrim (k : Prim) (bound : ℕ) (items : List Value) (name : String) :
    Except Failure { xs : List k.Carrier // xs.length ≤ bound } :=
  match k with
  | .longDouble => .error (unsupported name)
  | k =>
    resizeFill (.prim k) bound (fun _ item => simplePrim k item name) items name

mutual

/-- The field's slot, which `get_mut` finds, filled by `value_mut`. -/
def Fields.assign : (fs : Fields) → String → Value → String → fs.Val → Except Failure fs.Val
  | .nil, _, _, _, _ => .error (.panic "field checked above")
  | .cons n type rest, field, value, name, view =>
    if n = field then do
      let slot ← type.valueMut view.1 value name
      return (slot, view.2)
    else do
      let view' ← rest.assign field value name view.2
      return (view.1, view')

/-- `value_mut`, with the `Array`, `Sequence` and `BoundedSequence` slots in place. -/
def FieldType.valueMut : (f : FieldType) → f.Val → Value → String → Except Failure f.Val
  | .simple e, slot, value, name => e.simple slot value name
  | .array (.prim k) _, slot, value, name => do
    let items ← jsonArray value name
    arrayPrim k slot items name
  | .array (.message _ fields) _, slot, value, name => do
    let items ← jsonArray value name
    fillMessage (fun v => messageView fields.names (fun f => fields.assign f) v) slot items name
  | .sequence (.prim k), _, value, name => do
    let items ← jsonArray value name
    sequencePrim k items name
  | .sequence (.message n fields), _, value, name => do
    let items ← jsonArray value name
    refill (.message n fields)
      (fun v item => messageView fields.names (fun f => fields.assign f) v item name) items
  | .boundedSequence (.prim k) bound, _, value, name => do
    let items ← jsonArray value name
    boundedSequencePrim k bound items name
  | .boundedSequence (.message n fields) bound, _, value, name => do
    let items ← jsonArray value name
    resizeFill (.message n fields) bound
      (fun v item => messageView fields.names (fun f => fields.assign f) v item name) items name

def ElemType.simple : (e : ElemType) → e.Val → Value → String → Except Failure e.Val
  | .prim k, _, value, name => simplePrim k value name
  | .message _ fields, slot, value, name =>
    messageView fields.names (fun f => fields.assign f) slot value name

end

/-- Fill a message from a JSON object. -/
def decode {T : MessageType} (message : T.Val) (value : Value) : Except Failure T.Val :=
  match value.asObject with
  | none => .error (.error "message must be a JSON object")
  | some object =>
    match object.find? fun member => !T.fields.names.contains member.1 with
    | some (field, _) => .error (.error s!"unknown message field {Rclrs.debug field}")
    | none => assignMembers (fun field item => T.fields.assign field item field) object message

end PgRos2
