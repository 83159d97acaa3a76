import PgRos2.Message
import PgRos2.Lib.JsonParse

/-!
# A reference formatter

One instance of what the Rust side fixes: a float displays as its exact decimal expansion, a
bounded string is measured in bytes and a wide one in UTF-16 units, and a default element is zero,
false or empty.
-/

namespace PgRos2.Reference

open Lib Float.Model

/-- The mantissa is halved while that drops a digit behind the point. -/
def halve : ℕ → ℕ → ℕ × ℕ
  | m, 0 => (m, 0)
  | m, k + 1 => if m % 2 = 0 then halve (m / 2) k else (m, k + 1)

/-- The last `k` digits of a number, with leading zeros. -/
def fraction (k n : ℕ) : List Char :=
  List.replicate (k - (Nat.toDigits 10 n).length) '0' ++ Nat.toDigits 10 n

/-- The decimal expansion of `m * 2 ^ e`. -/
def expansion (negative : Bool) (m : ℕ) (e : ℤ) : Json.Numeral :=
  let (m, k) := halve (m * 2 ^ e.toNat) (-e).toNat
  ⟨negative, Nat.toDigits 10 (m * 5 ^ k / 10 ^ k),
    if k = 0 then none else some (fraction k (m * 5 ^ k % 10 ^ k)), none⟩

def isNegative : UnpackedFloat.Sign → Bool
  | .negative => true
  | .positive => false

def display : UnpackedFloat → Json.Numeral
  | .finite sign m e _ => expansion (isNegative sign) m e
  | .zero sign => expansion (isNegative sign) 0 0
  | _ => expansion false 0 0

theorem expansion_valid (negative : Bool) (m : ℕ) (e : ℤ) : (expansion negative m e).Valid where
  int := Json.Numeral.isInt_toDigits _
  frac ds h := by
    simp only [expansion, fraction, Option.ite_none_left_eq_some, Option.some.injEq] at h
    obtain ⟨-, rfl⟩ := h
    refine ⟨fun c hc => ?_, by simp [Nat.toDigits_ne_nil]⟩
    rw [List.mem_append, List.mem_replicate] at hc
    rcases hc with ⟨-, rfl⟩ | hc
    · decide
    · exact Nat.isDigit_of_mem_toDigits (by decide) (by decide) hc
  exp e h := by simp [expansion] at h

theorem display_valid : ∀ x, (display x).Valid
  | .finite sign m e _ => expansion_valid (isNegative sign) m e
  | .zero sign => expansion_valid (isNegative sign) 0 0
  | .infinity _ => expansion_valid false 0 0
  | .notANumber => expansion_valid false 0 0

/-- UTF-16 units. -/
def utf16Length (s : String) : ℕ := (s.toList.map fun c => if c.toNat < 65536 then 1 else 2).sum

scoped instance bounds : Bounds := ⟨String.utf8ByteSize, utf16Length⟩

def primDefault : (k : Prim) → k.Carrier
  | .float => Float32.ofModel (.pack (.zero .positive))
  | .double => Float.ofModel (.pack (.zero .positive))
  | .longDouble => (0 : BitVec 128)
  | .char | .octet | .uint8 => (0 : UInt8)
  | .wChar | .uint16 => (0 : UInt16)
  | .boolean => false
  | .int8 => (0 : Int8)
  | .int16 => (0 : Int16)
  | .uint32 => (0 : UInt32)
  | .int32 => (0 : Int32)
  | .uint64 => (0 : UInt64)
  | .int64 => (0 : Int64)
  | .string | .wString => ""
  | .boundedString bound => ⟨"", Nat.zero_le bound⟩
  | .boundedWString bound => ⟨"", Nat.zero_le bound⟩

mutual

def fieldsDefault : (fs : Fields) → fs.Val
  | .nil => ()
  | .cons _ type rest => (fieldDefault type, fieldsDefault rest)

def fieldDefault : (f : FieldType) → f.Val
  | .simple e => elemDefault e
  | .array e n => ⟨List.replicate n (elemDefault e), List.length_replicate⟩
  | .sequence _ => []
  | .boundedSequence _ _ => ⟨[], Nat.zero_le _⟩

def elemDefault : (e : ElemType) → e.Val
  | .prim k => primDefault k
  | .message _ fields => fieldsDefault fields

end

/-- The nearest double, where it is finite. -/
def decimal (n : Json.Numeral) : Option Float :=
  let x := Float.ofModel (Float.Model.ofScientific n.mantissa n.scale)
  let x := if n.negative then -x else x
  if x.isFinite then some x else none

/-- The bytes of an index entry that PostgreSQL takes, nothing being compressed. -/
def indexLimit : ℕ := 2704

scoped instance rclrs : Rclrs where
  toBounds := bounds
  decimal
  indexes key :=
    key.1.utf8ByteSize + key.2.1.utf8ByteSize + key.2.2.utf8ByteSize + 32 ≤ indexLimit
  f32Display x := display x.toModel.unpack
  f64Display x := display x.toModel.unpack
  f32_valid x _ := display_valid _
  f64_valid x _ := display_valid _
  pieces s := [s]
  pieces_join s := by simp
  debug := String.quote
  parseError _ := "recursion limit exceeded"
  elemDefault := elemDefault
  reset e n := List.replicate n (elemDefault e)
  reset_eq _ _ := rfl

end PgRos2.Reference
