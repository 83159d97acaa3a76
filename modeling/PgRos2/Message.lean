import PgRos2.Serde
import Mathlib.Tactic.Basic
import Mathlib.Algebra.Order.Group.Int

/-!
# Runtime ROS messages

The value kinds of `rclrs` as a universe: a message type is a list of named fields, a field is one
element, a fixed array, a sequence or a bounded sequence, and an element is primitive or a message
again. `Val` reads a type as the values it has, so array lengths and bounds hold by construction.

What `rclrs` and the Rust formatter decide on their own is a parameter (`Bounds`, `Rclrs`): how a
bounded string is measured, what a float displays as, how formatted text is cut into writes, how a
string prints in an error text, what `serde_json` says of a text it refuses, what a
default-initialised element holds, and what a sequence holds once it is reset.
-/

namespace PgRos2

open Lib

/-- An integer type of fixed width. -/
class FixedInt (T : Type) where
  lo : ℤ
  hi : ℤ
  toInt : T → ℤ
  ofInt : ℤ → T
  bounds : ∀ x, lo ≤ toInt x ∧ toInt x ≤ hi
  ofInt_toInt : ∀ x, ofInt (toInt x) = x
  toInt_ofInt : ∀ i, lo ≤ i → i ≤ hi → toInt (ofInt i) = i
  within : -2 ^ 63 ≤ lo ∧ hi < 2 ^ 64

instance : FixedInt UInt8 where
  lo := 0
  hi := 255
  toInt x := x.toNat
  ofInt i := .ofNat i.toNat
  bounds x := by have := x.toNat_lt; omega
  ofInt_toInt x := by simp
  toInt_ofInt i h0 h1 := by simp; omega
  within := by decide

instance : FixedInt UInt16 where
  lo := 0
  hi := 65535
  toInt x := x.toNat
  ofInt i := .ofNat i.toNat
  bounds x := by have := x.toNat_lt; omega
  ofInt_toInt x := by simp
  toInt_ofInt i h0 h1 := by simp; omega
  within := by decide

instance : FixedInt UInt32 where
  lo := 0
  hi := 4294967295
  toInt x := x.toNat
  ofInt i := .ofNat i.toNat
  bounds x := by have := x.toNat_lt; omega
  ofInt_toInt x := by simp
  toInt_ofInt i h0 h1 := by simp; omega
  within := by decide

instance : FixedInt UInt64 where
  lo := 0
  hi := 18446744073709551615
  toInt x := x.toNat
  ofInt i := .ofNat i.toNat
  bounds x := by have := x.toNat_lt; omega
  ofInt_toInt x := by simp
  toInt_ofInt i h0 h1 := by simp; omega
  within := by decide

instance : FixedInt Int8 where
  lo := -128
  hi := 127
  toInt x := x.toInt
  ofInt i := .ofInt i
  bounds x := by have := x.le_toInt; have := x.toInt_lt; omega
  ofInt_toInt x := by simp
  toInt_ofInt i h0 h1 := Int8.toInt_ofInt_of_le h0 (by omega)
  within := by decide

instance : FixedInt Int16 where
  lo := -32768
  hi := 32767
  toInt x := x.toInt
  ofInt i := .ofInt i
  bounds x := by have := x.le_toInt; have := x.toInt_lt; omega
  ofInt_toInt x := by simp
  toInt_ofInt i h0 h1 := Int16.toInt_ofInt_of_le h0 (by omega)
  within := by decide

instance : FixedInt Int32 where
  lo := -2147483648
  hi := 2147483647
  toInt x := x.toInt
  ofInt i := .ofInt i
  bounds x := by have := x.le_toInt; have := x.toInt_lt; omega
  ofInt_toInt x := by simp
  toInt_ofInt i h0 h1 := Int32.toInt_ofInt_of_le h0 (by omega)
  within := by decide

instance : FixedInt Int64 where
  lo := -9223372036854775808
  hi := 9223372036854775807
  toInt x := x.toInt
  ofInt i := .ofInt i
  bounds x := by have := x.le_toInt; have := x.toInt_lt; omega
  ofInt_toInt x := by simp
  toInt_ofInt i h0 h1 := Int64.toInt_ofInt_of_le h0 (by omega)
  within := by decide

/-- The element kinds of a message field, messages apart. -/
inductive Prim where
  | float
  | double
  | longDouble
  | char
  | wChar
  | boolean
  | octet
  | uint8
  | int8
  | uint16
  | int16
  | uint32
  | int32
  | uint64
  | int64
  | string
  | boundedString (bound : ℕ)
  | wString
  | boundedWString (bound : ℕ)
  deriving DecidableEq

mutual

/-- The fields of a message type, in the type's order. -/
inductive Fields where
  | nil
  | cons (name : String) (type : FieldType) (rest : Fields)

inductive FieldType where
  | simple (e : ElemType)
  | array (e : ElemType) (n : ℕ)
  | sequence (e : ElemType)
  | boundedSequence (e : ElemType) (bound : ℕ)

inductive ElemType where
  | prim (k : Prim)
  | message (name : String) (fields : Fields)

end

namespace Fields

def names : Fields → List String
  | nil => []
  | cons name _ rest => name :: rest.names

end Fields

mutual

/-- No message type used in the type has two fields of one name. -/
def Fields.Distinct : Fields → Prop
  | .nil => True
  | .cons name type rest => name ∉ rest.names ∧ type.Distinct ∧ rest.Distinct

def FieldType.Distinct : FieldType → Prop
  | .simple e => e.Distinct
  | .array e _ => e.Distinct
  | .sequence e => e.Distinct
  | .boundedSequence e _ => e.Distinct

def ElemType.Distinct : ElemType → Prop
  | .prim _ => True
  | .message _ fields => fields.Distinct

end

def ElemType.isLongDouble : ElemType → Bool
  | .prim .longDouble => true
  | _ => false

/-- A message type: its name and its fields, no two of one name. -/
structure MessageType where
  name : String
  fields : Fields
  distinct : fields.Distinct

/-- What a bounded string or wide string is measured by. -/
class Bounds where
  stringLength : String → ℕ
  wstringLength : String → ℕ

section Values

variable [Bounds]

/-- The values of a primitive kind. A long double is bits nothing reads. -/
def Prim.Carrier : Prim → Type
  | .float => Float32
  | .double => Float
  | .longDouble => BitVec 128
  | .char => UInt8
  | .wChar => UInt16
  | .boolean => Bool
  | .octet => UInt8
  | .uint8 => UInt8
  | .int8 => Int8
  | .uint16 => UInt16
  | .int16 => Int16
  | .uint32 => UInt32
  | .int32 => Int32
  | .uint64 => UInt64
  | .int64 => Int64
  | .string => String
  | .boundedString bound => { s : String // Bounds.stringLength s ≤ bound }
  | .wString => String
  | .boundedWString bound => { s : String // Bounds.wstringLength s ≤ bound }

mutual

/-- The values of a list of fields. -/
def Fields.Val : Fields → Type
  | .nil => Unit
  | .cons _ type rest => type.Val × rest.Val

def FieldType.Val : FieldType → Type
  | .simple e => e.Val
  | .array e n => { xs : List e.Val // xs.length = n }
  | .sequence e => List e.Val
  | .boundedSequence e bound => { xs : List e.Val // xs.length ≤ bound }

def ElemType.Val : ElemType → Type
  | .prim k => k.Carrier
  | .message _ fields => fields.Val

end

/-- The values of a message type. -/
abbrev MessageType.Val (T : MessageType) : Type := T.fields.Val

end Values

/-- What the code outside the repository fixes beyond the message types. A finite float displays as
a numeral of the JSON grammar, the pieces a formatted value is written in make up the whole, and a
sequence that is reset to a length holds that many default elements. -/
class Rclrs extends Bounds, SerdeJson, Postgres where
  f32Display : Float32 → Json.Numeral
  f64Display : Float → Json.Numeral
  f32_valid : ∀ x, x.isFinite → (f32Display x).Valid
  f64_valid : ∀ x, x.isFinite → (f64Display x).Valid
  pieces : String → List String
  pieces_join : ∀ s, (pieces s).foldl (· ++ ·) "" = s
  debug : String → String
  parseError : String → String
  elemDefault : (e : ElemType) → e.Val
  reset : (e : ElemType) → ℕ → List e.Val
  reset_eq : ∀ e n, reset e n = List.replicate n (elemDefault e)

/-- `DynamicMessage::new`: a default-initialised message. -/
def MessageType.default [Rclrs] (T : MessageType) : T.Val :=
  Rclrs.elemDefault (.message T.name T.fields)

end PgRos2
