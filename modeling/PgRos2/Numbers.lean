import PgRos2.Lib.Rounding
import PgRos2.Decode
import PgRos2.Overlay

/-!
# Numbers and the fields they are written to

A position of a message is a path of field names and indices, and the same path leads through a
JSON value to what is written there. A field of numbers has a finite range. Decoding is exact when
integers keep their values and numbers stay finite (`Stored`), and strict when it fails on any
number out of its field's range (`Rejected`).
-/

namespace PgRos2

open Lib

/-- The number a JSON number is. -/
def Number.value : Number → ℚ
  | .posInt n => n.toNat
  | .negInt i => i.toInt
  | .float x => Lib.value x.toModel.unpack

/-- `serde_json` reads finite numbers only. -/
def Number.Finite : Number → Prop
  | .float x => x.isFinite = true
  | _ => True

/-- A step into a message or a JSON value. -/
inductive PathStep where
  | field (name : String)
  | index (i : ℕ)
  deriving DecidableEq

/-- The JSON value at a path. -/
def Value.follow : Value → List PathStep → Option Value
  | value, [] => some value
  | value, .field name :: path => (value.get name).bind fun item => item.follow path
  | value, .index i :: path => (value.asArray.bind (·[i]?)).bind fun item => item.follow path

section Types

mutual

/-- The kind of the primitive field at a path that starts with a field name. -/
def Fields.kindAt : Fields → String → List PathStep → Option Prim
  | .nil, _, _ => none
  | .cons name type rest, field, path =>
    if name = field then type.kindAt path else rest.kindAt field path

def FieldType.kindAt : FieldType → List PathStep → Option Prim
  | .simple e, path => e.kindAt path
  | .array e _, .index _ :: path => e.kindAt path
  | .sequence e, .index _ :: path => e.kindAt path
  | .boundedSequence e _, .index _ :: path => e.kindAt path
  | _, _ => none

def ElemType.kindAt : ElemType → List PathStep → Option Prim
  | .prim k, [] => some k
  | .message _ fields, .field name :: path => fields.kindAt name path
  | _, _ => none

end

/-- The kind of the primitive field at a position of a message type. -/
def MessageType.kindAt (T : MessageType) (path : List PathStep) : Option Prim :=
  (ElemType.message T.name T.fields).kindAt path

end Types

section Values

variable [Bounds]

/-- What lies at a path into one item of a list. -/
def leafOf {V : Type} (leaf : V → Option ((k : Prim) × k.Carrier)) (items : List V) (i : ℕ) :
    Option ((k : Prim) × k.Carrier) :=
  (items[i]?).bind leaf

mutual

/-- What a message holds at a path that starts with a field name. -/
def Fields.leafAt : (fs : Fields) → fs.Val → String → List PathStep →
    Option ((k : Prim) × k.Carrier)
  | .nil, _, _, _ => none
  | .cons name type rest, v, field, path =>
    if name = field then type.leafAt v.1 path else rest.leafAt v.2 field path

def FieldType.leafAt : (f : FieldType) → f.Val → List PathStep → Option ((k : Prim) × k.Carrier)
  | .simple e, v, path => e.leafAt v path
  | .array e _, v, .index i :: path => leafOf (fun x => e.leafAt x path) v.1 i
  | .sequence e, v, .index i :: path => leafOf (fun x => e.leafAt x path) v i
  | .boundedSequence e _, v, .index i :: path => leafOf (fun x => e.leafAt x path) v.1 i
  | _, _, _ => none

def ElemType.leafAt : (e : ElemType) → e.Val → List PathStep → Option ((k : Prim) × k.Carrier)
  | .prim k, v, [] => some ⟨k, v⟩
  | .message _ fields, v, .field name :: path => fields.leafAt v name path
  | _, _, _ => none

end

/-- What a message holds in the primitive field at a position. -/
def MessageType.leafAt (T : MessageType) (message : T.Val) (path : List PathStep) :
    Option ((k : Prim) × k.Carrier) :=
  (ElemType.message T.name T.fields).leafAt message path

/-- The integer is the one the JSON value is written as. -/
def KeepsInteger (T : Type) [FixedInt T] (item : Value) (v : T) : Prop :=
  ∀ i, item.integer = some i → FixedInt.toInt v = i

/-- An integer field holds the integer that was written, a float field no infinity for a finite
number. -/
def Prim.Keeps : (k : Prim) → Value → k.Carrier → Prop
  | .float, item, (v : Float32) => ∀ n, item = .number n → n.Finite → v.isFinite = true
  | .double, item, (v : Float) => ∀ n, item = .number n → n.Finite → v.isFinite = true
  | .char, item, (v : UInt8) => KeepsInteger UInt8 item v
  | .wChar, item, (v : UInt16) => KeepsInteger UInt16 item v
  | .octet, item, (v : UInt8) => KeepsInteger UInt8 item v
  | .uint8, item, (v : UInt8) => KeepsInteger UInt8 item v
  | .int8, item, (v : Int8) => KeepsInteger Int8 item v
  | .uint16, item, (v : UInt16) => KeepsInteger UInt16 item v
  | .int16, item, (v : Int16) => KeepsInteger Int16 item v
  | .uint32, item, (v : UInt32) => KeepsInteger UInt32 item v
  | .int32, item, (v : Int32) => KeepsInteger Int32 item v
  | .uint64, item, (v : UInt64) => KeepsInteger UInt64 item v
  | .int64, item, (v : Int64) => KeepsInteger Int64 item v
  | _, _, _ => True

end Values

/-- The range of a fixed width. -/
def intRange (T : Type) [FixedInt T] : ℚ × ℚ := (FixedInt.lo T, FixedInt.hi T)

/-- The finite range of a format. -/
def floatRange (format : Float.Model.Format) : ℚ × ℚ := (-largest format, largest format)

/-- The finite range of a kind of numbers. -/
def Prim.range : Prim → Option (ℚ × ℚ)
  | .float => some (floatRange .binary32)
  | .double => some (floatRange .binary64)
  | .char => some (intRange UInt8)
  | .wChar => some (intRange UInt16)
  | .octet => some (intRange UInt8)
  | .uint8 => some (intRange UInt8)
  | .int8 => some (intRange Int8)
  | .uint16 => some (intRange UInt16)
  | .int16 => some (intRange Int16)
  | .uint32 => some (intRange UInt32)
  | .int32 => some (intRange Int32)
  | .uint64 => some (intRange UInt64)
  | .int64 => some (intRange Int64)
  | _ => none

/-- A finite number beyond the range of a kind. -/
def Prim.Excludes (k : Prim) (item : Value) : Prop :=
  ∃ n range, item = .number n ∧ n.Finite ∧ k.range = some range
    ∧ (n.value < range.1 ∨ range.2 < n.value)

variable [Rclrs]

/-- Every JSON value that decoding writes to a primitive field is kept there. -/
def Stored (T : MessageType) (message : T.Val) (value : Value) : Prop :=
  ∀ message', decode message value = .ok message' →
    ∀ path k item, T.kindAt path = some k → value.follow path = some item →
      ∃ v, T.leafAt message' path = some ⟨k, v⟩ ∧ k.Keeps item v

/-- A number out of its field's range makes decoding fail. -/
def Rejected (T : MessageType) (message : T.Val) (value : Value) : Prop :=
  ∀ path k item, T.kindAt path = some k → value.follow path = some item → k.Excludes item →
    ∃ failure, decode message value = .error failure

/-- The finite JSON numbers written to 32-bit floats are of the magnitudes given. -/
def FloatsWithin (T : MessageType) (value : Value) (magnitude : ℚ → Prop) : Prop :=
  ∀ path n, T.kindAt path = some .float → value.follow path = some (.number n) → n.Finite →
    magnitude |n.value|

end PgRos2
