import PgRos2.Lib.Json
import Mathlib.Algebra.Group.Nat.Defs
import Mathlib.Algebra.Order.Group.Int

/-!
# `serde_json` values

`serde_json::Value` over the JSON trees: a number is a `u64`, a negative `i64` or a finite `f64`,
and an object is a map, so its members are sorted by name and the last one of a name is kept. Which
double a decimal reads as is a parameter (`SerdeJson`), and so is what PostgreSQL takes into an
index (`Postgres`). `fromStr` is the parser without a limit on nesting.
-/

namespace PgRos2

open Lib

/-- `serde_json::Number`. -/
inductive Number where
  | posInt (n : UInt64)
  | negInt (i : Int64)
  | float (x : Float)
  deriving DecidableEq

abbrev Value := Json Number

/-- What `serde_json` reads of a numeral that is no integer of 64 bits: a double, not always the
nearest one, or the error that it is out of range. -/
class SerdeJson where
  decimal : Json.Numeral → Option Float

namespace Number

def asI64 : Number → Option Int64
  | posInt n => if n.toNat < 2 ^ 63 then some (Int64.ofNat n.toNat) else none
  | negInt i => some i
  | float _ => none

def asU64 : Number → Option UInt64
  | posInt n => some n
  | _ => none

def asF64 : Number → Float
  | posInt n => n.toFloat
  | negInt i => .ofModel (.ofInt64 i)
  | float x => x

variable [SerdeJson]

def ofDecimal (n : Json.Numeral) : Option Number := (SerdeJson.decimal n).map float

/-- The number a numeral reads as. Without fraction and exponent it is an integer as far as
64 bits go, and `-0` is a float. -/
def ofNumeral (n : Json.Numeral) : Option Number :=
  if n.frac = none ∧ n.exp = none then
    let m := n.mantissa
    if n.negative then
      if m ≠ 0 ∧ m ≤ 2 ^ 63 then some (negInt (Int64.ofInt (-m))) else ofDecimal n
    else if m < 2 ^ 64 then some (posInt (UInt64.ofNat m)) else ofDecimal n
  else ofDecimal n

end Number

namespace Value

/-- `Map::insert`: the members stay sorted, and a name that is there is overwritten. -/
def insert (k : String) (v : Value) : List (String × Value) → List (String × Value)
  | [] => [(k, v)]
  | (k', v') :: ms =>
    if k = k' then (k, v) :: ms
    else if k < k' then (k, v) :: (k', v') :: ms
    else (k', v') :: insert k v ms

section Parse

variable [SerdeJson]

mutual

/-- The value of a JSON tree. A number out of the range of a double is an error. -/
def ofJson : Json Json.Numeral → Option Value
  | .null => some .null
  | .bool b => some (.bool b)
  | .number n => (Number.ofNumeral n).map .number
  | .string s => some (.string s)
  | .array xs => (ofElements xs).map .array
  | .object ms => (ofMembers ms []).map .object

def ofElements : List (Json Json.Numeral) → Option (List Value)
  | [] => some []
  | x :: xs => do
    let v ← ofJson x
    let vs ← ofElements xs
    return v :: vs

def ofMembers : List (String × Json Json.Numeral) → List (String × Value) →
    Option (List (String × Value))
  | [], acc => some acc
  | (k, x) :: ms, acc => do
    let v ← ofJson x
    ofMembers ms (insert k v acc)

end

/-- `serde_json::from_str` without its limit on nesting. -/
def fromStr (s : String) : Option Value := (Json.parse s).bind ofJson

/-- The levels of nesting `serde_json` allows by default. -/
def recursionLimit : ℕ := 127

/-- `serde_json::from_str` with its default limit on nesting. -/
def fromStrLimited (s : String) : Option Value :=
  (Json.parse s).bind fun j => if j.depth ≤ recursionLimit then ofJson j else none

end Parse

def isNull : Value → Bool
  | .null => true
  | _ => false

def asObject : Value → Option (List (String × Value))
  | .object ms => some ms
  | _ => none

def asArray : Value → Option (List Value)
  | .array xs => some xs
  | _ => none

def asStr : Value → Option String
  | .string s => some s
  | _ => none

def asBool : Value → Option Bool
  | .bool b => some b
  | _ => none

def asI64 : Value → Option Int64
  | .number n => n.asI64
  | _ => none

def asU64 : Value → Option UInt64
  | .number n => n.asU64
  | _ => none

def asF64 : Value → Option Float
  | .number n => some n.asF64
  | _ => none

/-- A member of an object, by name. -/
def get (v : Value) (k : String) : Option Value := do
  let ms ← v.asObject
  ms.lookup k

end Value

/-! ## Equality and `jsonb` -/

/-- Either zero of a double. -/
def isZero (x : Float) : Bool :=
  match x.toModel.unpack with
  | .zero _ => true
  | _ => false

/-- `==` on numbers. No number is NaN, so doubles differ when they are not the same and not both
zero. -/
def Number.eq : Number → Number → Bool
  | .posInt n, .posInt n' => n = n'
  | .negInt i, .negInt i' => i = i'
  | .float x, .float x' => x = x' ∨ (isZero x ∧ isZero x')
  | _, _ => false

/-- The number `jsonb` keeps: `numeric` has one zero. -/
def Number.jsonb : Number → Number
  | .float x => .float (if isZero x then Float.ofModel (.pack (.zero .positive)) else x)
  | n => n

namespace Value

mutual

/-- `==` on values. -/
def eq : Value → Value → Bool
  | .null, .null => true
  | .bool b, .bool b' => b = b'
  | .number n, .number n' => n.eq n'
  | .string s, .string s' => s = s'
  | .array xs, .array xs' => eqElements xs xs'
  | .object ms, .object ms' => eqMembers ms ms'
  | _, _ => false

def eqElements : List Value → List Value → Bool
  | [], [] => true
  | x :: xs, x' :: xs' => eq x x' && eqElements xs xs'
  | _, _ => false

def eqMembers : List (String × Value) → List (String × Value) → Bool
  | [], [] => true
  | (k, x) :: ms, (k', x') :: ms' => k = k' && eq x x' && eqMembers ms ms'
  | _, _ => false

end

/-- A text PostgreSQL can hold. -/
def isText (s : String) : Bool := s.toList.all fun c => c.toNat ≠ 0

mutual

/-- The input of `jsonb`, which is an SQL error when a string has a U+0000 in it. -/
def jsonb : Value → Option Value
  | .null => some .null
  | .bool b => some (.bool b)
  | .number n => some (.number n.jsonb)
  | .string s => if isText s then some (.string s) else none
  | .array xs => (jsonbElements xs).map .array
  | .object ms => (jsonbMembers ms).map .object

def jsonbElements : List Value → Option (List Value)
  | [] => some []
  | x :: xs => do
    let v ← jsonb x
    let vs ← jsonbElements xs
    return v :: vs

def jsonbMembers : List (String × Value) → Option (List (String × Value))
  | [] => some []
  | (k, x) :: ms => do
    if isText k then
      let v ← jsonb x
      let vs ← jsonbMembers ms
      return (k, v) :: vs
    else none

end

end Value

/-- `number as f32`: to nearest, and to infinity beyond the range. -/
def asF32 (x : Float) : Float32 :=
  .ofModel (.pack (match x.toModel.unpack with
    | .infinity s => .infinity s
    | .notANumber => .notANumber
    | .zero s => .zero s
    | .finite s m e _ => Float.Model.UnpackedFloat.round Float.Model.Format.binary32 s m e))

/-- Whether the index of a primary key of three texts takes the entry: PostgreSQL refuses a row
whose entry, compressed, is over a third of a page. -/
class Postgres where
  indexes : String × String × String → Bool

/-- `f64::NAN`. -/
def f64Nan : Float := .ofModel (.pack .notANumber)

/-- `f32::NAN`. -/
def f32Nan : Float32 := .ofModel (.pack .notANumber)

end PgRos2
