import PgRos2.Message
import PgRos2.Serde

/-!
# JSON laid over a message

What decoding is for, by the type of the message alone: which JSON values conform to a type, and
the message a conforming value makes of the one it is laid over. A field the JSON does not name
keeps its value, and an element of a sequence starts from the type's default.
-/

namespace PgRos2

open Lib

/-- The integer a value is written as. -/
def Value.integer : Value → Option ℤ
  | .number (.posInt n) => some n.toNat
  | .number (.negInt i) => some i.toInt
  | _ => none

mutual

/-- No object in the value names a member twice, as in a `serde_json` map. -/
def Value.Distinct : Value → Prop
  | .array items => DistinctElements items
  | .object object => (object.map Prod.fst).Nodup ∧ DistinctMembers object
  | _ => True

def Value.DistinctElements : List Value → Prop
  | [] => True
  | item :: items => Value.Distinct item ∧ DistinctElements items

def Value.DistinctMembers : List (String × Value) → Prop
  | [] => True
  | (_, item) :: object => Value.Distinct item ∧ DistinctMembers object

end

/-- An integer of the type's range. -/
def InRange (T : Type) [FixedInt T] (value : Value) : Prop :=
  ∃ i, Value.integer value = some i ∧ FixedInt.lo T ≤ i ∧ i ≤ FixedInt.hi T

section Conforms

variable [Bounds]

/-- The values a primitive kind takes: a float takes any number and null, a long double nothing. -/
def Prim.Conforms : Prim → Value → Prop
  | .float, value => value = .null ∨ ∃ n, value = .number n
  | .double, value => value = .null ∨ ∃ n, value = .number n
  | .longDouble, _ => False
  | .char, value => InRange UInt8 value
  | .wChar, value => InRange UInt16 value
  | .boolean, value => ∃ b, value = .bool b
  | .octet, value => InRange UInt8 value
  | .uint8, value => InRange UInt8 value
  | .int8, value => InRange Int8 value
  | .uint16, value => InRange UInt16 value
  | .int16, value => InRange Int16 value
  | .uint32, value => InRange UInt32 value
  | .int32, value => InRange Int32 value
  | .uint64, value => InRange UInt64 value
  | .int64, value => InRange Int64 value
  | .string, value => ∃ s, value = .string s
  | .boundedString bound, value => ∃ s, value = .string s ∧ Bounds.stringLength s ≤ bound
  | .wString, value => ∃ s, value = .string s
  | .boundedWString bound, value => ∃ s, value = .string s ∧ Bounds.wstringLength s ≤ bound

mutual

/-- Each member of the object that names a field conforms to it. -/
def Fields.Conforms : Fields → List (String × Value) → Prop
  | .nil, _ => True
  | .cons name type rest, object =>
    (∀ item, object.lookup name = some item → type.Conforms item) ∧ rest.Conforms object

/-- The values a field takes. An array of long doubles takes none, not even the empty one. -/
def FieldType.Conforms : FieldType → Value → Prop
  | .simple e, value => e.Conforms value
  | .array e n, value => ∃ items, value = .array items ∧ e.isLongDouble = false
    ∧ items.length = n ∧ ∀ item ∈ items, e.Conforms item
  | .sequence e, value => ∃ items, value = .array items ∧ e.isLongDouble = false
    ∧ ∀ item ∈ items, e.Conforms item
  | .boundedSequence e bound, value => ∃ items, value = .array items ∧ e.isLongDouble = false
    ∧ items.length ≤ bound ∧ ∀ item ∈ items, e.Conforms item

/-- A message takes the objects that name its fields only, each with a value it takes. -/
def ElemType.Conforms : ElemType → Value → Prop
  | .prim k, value => k.Conforms value
  | .message _ fields, value => ∃ object, value = .object object
    ∧ (∀ member ∈ object, member.1 ∈ fields.names) ∧ fields.Conforms object

end

/-- The JSON values that conform to a message type. -/
def MessageType.Conforms (T : MessageType) (value : Value) : Prop :=
  (ElemType.message T.name T.fields).Conforms value

end Conforms

/-- The integer a value is, in a fixed width. -/
def readInt (T : Type) [FixedInt T] (value : Value) : Option T :=
  (Value.integer value).map FixedInt.ofInt

section Overlay

variable [Bounds]

/-- What a primitive field holds after a conforming value is written to it. -/
def Prim.read : (k : Prim) → Value → Option k.Carrier
  | .float, .null => some f32Nan
  | .float, .number n => some (asF32 n.asF64)
  | .double, .null => some f64Nan
  | .double, .number n => some n.asF64
  | .char, value => readInt UInt8 value
  | .wChar, value => readInt UInt16 value
  | .boolean, .bool b => some b
  | .octet, value => readInt UInt8 value
  | .uint8, value => readInt UInt8 value
  | .int8, value => readInt Int8 value
  | .uint16, value => readInt UInt16 value
  | .int16, value => readInt Int16 value
  | .uint32, value => readInt UInt32 value
  | .int32, value => readInt Int32 value
  | .uint64, value => readInt UInt64 value
  | .int64, value => readInt Int64 value
  | .string, .string s => some s
  | .boundedString bound, .string s =>
    if h : Bounds.stringLength s ≤ bound then some ⟨s, h⟩ else none
  | .wString, .string s => some s
  | .boundedWString bound, .string s =>
    if h : Bounds.wstringLength s ≤ bound then some ⟨s, h⟩ else none
  | _, _ => none

end Overlay

/-- Items laid over as many elements, one by one. -/
def overlaySlice {T : Type} {n : ℕ} (overlay : T → Value → T)
    (old : { xs : List T // xs.length = n })
    (items : List Value) : { xs : List T // xs.length = n } :=
  if h : items.length = n then ⟨List.zipWith overlay old.1 items, by simp [old.2, h]⟩ else old

/-- Items laid over that many default elements, as far as the bound allows. -/
def overlayBounded {T : Type} {bound : ℕ} (read : Value → T)
    (old : { xs : List T // xs.length ≤ bound }) (items : List Value) :
    { xs : List T // xs.length ≤ bound } :=
  if h : items.length ≤ bound then ⟨items.map read, by simpa using h⟩ else old

variable [Rclrs]

mutual

/-- The fields an object names are overlaid, the others stay. -/
def Fields.overlay : (fs : Fields) → fs.Val → List (String × Value) → fs.Val
  | .nil, _, _ => ()
  | .cons name type rest, old, object =>
    ((match object.lookup name with
      | some item => type.overlay old.1 item
      | none => old.1), rest.overlay old.2 object)

/-- The field after a conforming value is laid over it. -/
def FieldType.overlay : (f : FieldType) → f.Val → Value → f.Val
  | .simple e, old, value => e.overlay old value
  | .array e _, old, value =>
    match value.asArray with
    | some items => overlaySlice (fun x item => e.overlay x item) old items
    | none => old
  | .sequence e, old, value =>
    match value.asArray with
    | some items => items.map fun item => e.overlay (Rclrs.elemDefault e) item
    | none => old
  | .boundedSequence e _, old, value =>
    match value.asArray with
    | some items => overlayBounded (fun item => e.overlay (Rclrs.elemDefault e) item) old items
    | none => old

def ElemType.overlay : (e : ElemType) → e.Val → Value → e.Val
  | .prim k, old, value => (k.read value).getD old
  | .message _ fields, old, value =>
    match value.asObject with
    | some object => fields.overlay old object
    | none => old

end

/-- A message with JSON laid over it. -/
def MessageType.overlay (T : MessageType) (old : T.Val) (value : Value) : T.Val :=
  (ElemType.message T.name T.fields).overlay old value

end PgRos2
