import PgRos2.Message

/-!
# Messages as JSON

What a message means, whatever text stands for it: the tree of a value, which has no room for a
long double, and how many levels of messages lie in it.
-/

namespace PgRos2

open Lib

variable [Rclrs]

def Prim.tree : (k : Prim) → k.Carrier → Option (Json Json.Numeral)
  | .float, (v : Float32) =>
    some (if v.isFinite then .number (Rclrs.f32Display v) else .null)
  | .double, (v : Float) =>
    some (if v.isFinite then .number (Rclrs.f64Display v) else .null)
  | .longDouble, _ => none
  | .char, (v : UInt8) => some (.number (.ofInt (FixedInt.toInt v)))
  | .wChar, (v : UInt16) => some (.number (.ofInt (FixedInt.toInt v)))
  | .boolean, (v : Bool) => some (.bool v)
  | .octet, (v : UInt8) => some (.number (.ofInt (FixedInt.toInt v)))
  | .uint8, (v : UInt8) => some (.number (.ofInt (FixedInt.toInt v)))
  | .int8, (v : Int8) => some (.number (.ofInt (FixedInt.toInt v)))
  | .uint16, (v : UInt16) => some (.number (.ofInt (FixedInt.toInt v)))
  | .int16, (v : Int16) => some (.number (.ofInt (FixedInt.toInt v)))
  | .uint32, (v : UInt32) => some (.number (.ofInt (FixedInt.toInt v)))
  | .int32, (v : Int32) => some (.number (.ofInt (FixedInt.toInt v)))
  | .uint64, (v : UInt64) => some (.number (.ofInt (FixedInt.toInt v)))
  | .int64, (v : Int64) => some (.number (.ofInt (FixedInt.toInt v)))
  | .string, (v : String) => some (.string v)
  | .boundedString _, v => some (.string v.1)
  | .wString, (v : String) => some (.string v)
  | .boundedWString _, v => some (.string v.1)

/-- The tree of an array or a sequence. One of long doubles has none, not even when it is empty. -/
def ElemType.treeOf (e : ElemType) (tree : e.Val → Option (Json Json.Numeral))
    (values : List e.Val) : Option (Json Json.Numeral) :=
  if e.isLongDouble then none else (values.mapM tree).map .array

mutual

/-- The members of a message: each field under its own name, in the type's order. -/
def Fields.tree : (fs : Fields) → fs.Val → Option (List (String × Json Json.Numeral))
  | .nil, _ => some []
  | .cons name type rest, v => do
    let x ← type.tree v.1
    let ms ← rest.tree v.2
    return (name, x) :: ms

/-- The tree of a value, unless a long double is reached. -/
def FieldType.tree : (f : FieldType) → f.Val → Option (Json Json.Numeral)
  | .simple e, v => e.tree v
  | .array e _, v => e.treeOf (fun v => e.tree v) v.1
  | .sequence e, v => e.treeOf (fun v => e.tree v) v
  | .boundedSequence e _, v => e.treeOf (fun v => e.tree v) v.1

def ElemType.tree : (e : ElemType) → e.Val → Option (Json Json.Numeral)
  | .prim k, v => k.tree v
  | .message _ fields, v => (fields.tree v).map .object

end

/-- The tree of a whole message. -/
def MessageType.tree (T : MessageType) (message : T.Val) : Option (Json Json.Numeral) :=
  (T.fields.tree message).map .object

mutual

/-- How many levels of messages lie in the fields of a message. -/
def Fields.levels : (fs : Fields) → fs.Val → ℕ
  | .nil, _ => 0
  | .cons _ type rest, v => max (type.levels v.1) (rest.levels v.2)

/-- How many levels of messages a value has. Arrays and sequences are no level. -/
def FieldType.levels : (f : FieldType) → f.Val → ℕ
  | .simple e, v => e.levels v
  | .array e _, v => (v.1.map fun v => e.levels v).foldr max 0
  | .sequence e, v => (List.map (fun v => e.levels v) v).foldr max 0
  | .boundedSequence e _, v => (v.1.map fun v => e.levels v).foldr max 0

def ElemType.levels : (e : ElemType) → e.Val → ℕ
  | .prim _, _ => 0
  | .message _ fields, v => fields.levels v + 1

end

/-- How many levels of messages lie below a whole message. -/
def MessageType.levels (T : MessageType) (message : T.Val) : ℕ := T.fields.levels message

end PgRos2
