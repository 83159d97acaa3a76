import Mathlib.Data.Int.Notation
import Mathlib.Data.List.Basic
import Mathlib.Data.Nat.Notation

/-!
# JSON texts

The trees of RFC 8259, with the number type left open, their compact text, and a parser for the
grammar: whitespace, escapes with surrogate pairs, numbers kept as the numerals they are written
as. Members stay in the order of the text and may repeat a name, as the grammar allows.
-/

namespace Lib

/-- A JSON tree with numbers of type `ν`. -/
inductive Json (ν : Type) where
  | null
  | bool (b : Bool)
  | number (n : ν)
  | string (s : String)
  | array (xs : List (Json ν))
  | object (ms : List (String × Json ν))

namespace Json

/-- The exponent part of a numeral, as it is written. -/
structure Exponent where
  upper : Bool
  sign : Option Bool
  digits : List Char
  deriving DecidableEq

/-- A number as it is written: sign, integer digits, fraction digits, exponent. -/
structure Numeral where
  negative : Bool
  int : List Char
  frac : Option (List Char)
  exp : Option Exponent
  deriving DecidableEq

namespace Numeral

def signText : Option Bool → List Char
  | none => []
  | some true => ['-']
  | some false => ['+']

def fracText : Option (List Char) → List Char
  | none => []
  | some ds => '.' :: ds

def expText : Option Exponent → List Char
  | none => []
  | some e => (if e.upper then 'E' else 'e') :: (signText e.sign ++ e.digits)

/-- The characters of a numeral. -/
def text (n : Numeral) : List Char :=
  (if n.negative then ['-'] else []) ++ n.int ++ fracText n.frac ++ expText n.exp

/-- `int = zero / ( digit1-9 *DIGIT )`. -/
def IsInt (ds : List Char) : Prop :=
  (∀ c ∈ ds, c.isDigit) ∧ ds ≠ [] ∧ (ds.head? = some '0' → ds = ['0'])

/-- The numerals the grammar has. -/
structure Valid (n : Numeral) : Prop where
  int : IsInt n.int
  frac : ∀ ds, n.frac = some ds → (∀ c ∈ ds, c.isDigit) ∧ ds ≠ []
  exp : ∀ e, n.exp = some e → (∀ c ∈ e.digits, c.isDigit) ∧ e.digits ≠ []

/-- The numeral of an integer. -/
def ofInt (i : ℤ) : Numeral := ⟨decide (i < 0), Nat.toDigits 10 i.natAbs, none, none⟩

/-- The significand of a numeral, its decimal point moved behind the last digit. -/
def mantissa (n : Numeral) : ℕ := Nat.ofDigitChars 10 (n.int ++ n.frac.getD []) 0

/-- The power of ten the mantissa is scaled by. -/
def scale (n : Numeral) : ℤ :=
  (match n.exp with
    | none => 0
    | some e =>
      if e.sign = some true then -(Nat.ofDigitChars 10 e.digits 0 : ℤ)
      else Nat.ofDigitChars 10 e.digits 0)
    - (n.frac.getD []).length

end Numeral

/-! ## Text -/

def hexDigit (n : ℕ) : Char := (Nat.toDigits 16 n).headD '0'

/-- How a character stands inside a quoted string. -/
def escape (c : Char) : List Char :=
  if c = '"' then ['\\', '"']
  else if c = '\\' then ['\\', '\\']
  else if c.toNat = 8 then ['\\', 'b']
  else if c.toNat = 9 then ['\\', 't']
  else if c.toNat = 10 then ['\\', 'n']
  else if c.toNat = 12 then ['\\', 'f']
  else if c.toNat = 13 then ['\\', 'r']
  else if c.toNat < 32 then ['\\', 'u', '0', '0', hexDigit (c.toNat / 16), hexDigit (c.toNat % 16)]
  else [c]

/-- A string in quotes, escaped. -/
def quote (s : String) : List Char := '"' :: (s.toList.flatMap escape ++ ['"'])

mutual

/-- The compact text of a tree. -/
def text : Json Numeral → List Char
  | null => ['n', 'u', 'l', 'l']
  | bool true => ['t', 'r', 'u', 'e']
  | bool false => ['f', 'a', 'l', 's', 'e']
  | number n => n.text
  | string s => quote s
  | array xs => '[' :: (elementsText xs ++ [']'])
  | object ms => '{' :: (membersText ms ++ ['}'])

def elementsText : List (Json Numeral) → List Char
  | [] => []
  | [x] => text x
  | x :: y :: xs => text x ++ ',' :: elementsText (y :: xs)

def membersText : List (String × Json Numeral) → List Char
  | [] => []
  | [(k, x)] => quote k ++ ':' :: text x
  | (k, x) :: m :: ms => quote k ++ ':' :: (text x ++ ',' :: membersText (m :: ms))

end

mutual

/-- How deep arrays and objects nest in a tree. -/
def depth {ν : Type} : Json ν → ℕ
  | array xs => elementsDepth xs + 1
  | object ms => membersDepth ms + 1
  | _ => 0

def elementsDepth {ν : Type} : List (Json ν) → ℕ
  | [] => 0
  | x :: xs => max (depth x) (elementsDepth xs)

def membersDepth {ν : Type} : List (String × Json ν) → ℕ
  | [] => 0
  | (_, x) :: ms => max (depth x) (membersDepth ms)

end

/-! ## Parsing -/

/-- Skip insignificant whitespace. -/
def skipWs : List Char → List Char
  | [] => []
  | c :: cs => if c = ' ' ∨ c = '\t' ∨ c = '\n' ∨ c = '\r' then skipWs cs else c :: cs

def digits (cs : List Char) : List Char × List Char :=
  (cs.takeWhile Char.isDigit, cs.dropWhile Char.isDigit)

def scanInt : List Char → Option (List Char × List Char)
  | '0' :: cs => some (['0'], cs)
  | cs => match digits cs with
    | ([], _) => none
    | (ds, rest) => some (ds, rest)

def scanFrac : List Char → Option (Option (List Char) × List Char)
  | '.' :: cs => match digits cs with
    | ([], _) => none
    | (ds, rest) => some (some ds, rest)
  | cs => some (none, cs)

def scanSign : List Char → Option Bool × List Char
  | '-' :: cs => (some true, cs)
  | '+' :: cs => (some false, cs)
  | cs => (none, cs)

def scanExpDigits (upper : Bool) (cs : List Char) : Option (Option Exponent × List Char) :=
  match digits (scanSign cs).2 with
  | ([], _) => none
  | (ds, rest) => some (some ⟨upper, (scanSign cs).1, ds⟩, rest)

def scanExp : List Char → Option (Option Exponent × List Char)
  | 'e' :: cs => scanExpDigits false cs
  | 'E' :: cs => scanExpDigits true cs
  | cs => some (none, cs)

/-- `number = [ minus ] int [ frac ] [ exp ]`. -/
def scanUnsigned (negative : Bool) (cs : List Char) : Option (Numeral × List Char) := do
  let (int, cs) ← scanInt cs
  let (frac, cs) ← scanFrac cs
  let (exp, cs) ← scanExp cs
  return (⟨negative, int, frac, exp⟩, cs)

def scanNumeral : List Char → Option (Numeral × List Char)
  | '-' :: cs => scanUnsigned true cs
  | cs => scanUnsigned false cs

def hexVal (c : Char) : Option ℕ :=
  if '0' ≤ c ∧ c ≤ '9' then some (c.toNat - '0'.toNat)
  else if 'a' ≤ c ∧ c ≤ 'f' then some (c.toNat - 'a'.toNat + 10)
  else if 'A' ≤ c ∧ c ≤ 'F' then some (c.toNat - 'A'.toNat + 10)
  else none

def hex4 (a b c d : Char) : Option ℕ := do
  return (((← hexVal a) * 16 + (← hexVal b)) * 16 + (← hexVal c)) * 16 + (← hexVal d)

/-- The character a one-letter escape stands for. -/
def unescape : Char → Option Char
  | '"' => some '"'
  | '\\' => some '\\'
  | '/' => some '/'
  | 'b' => some (Char.ofNat 8)
  | 'f' => some (Char.ofNat 12)
  | 'n' => some (Char.ofNat 10)
  | 'r' => some (Char.ofNat 13)
  | 't' => some (Char.ofNat 9)
  | _ => none

/-- The characters of a string up to its closing quote. A surrogate escape has to be half of a
pair. -/
def scanString : List Char → Option (List Char × List Char)
  | [] => none
  | '"' :: cs => some ([], cs)
  | '\\' :: 'u' :: a :: b :: c :: d :: cs => do
    let n ← hex4 a b c d
    if 0xD800 ≤ n ∧ n < 0xDC00 then
      match cs with
      | '\\' :: 'u' :: a :: b :: c :: d :: cs =>
        let lo ← hex4 a b c d
        if 0xDC00 ≤ lo ∧ lo < 0xE000 then
          let (s, rest) ← scanString cs
          return (Char.ofNat (0x10000 + (n - 0xD800) * 0x400 + (lo - 0xDC00)) :: s, rest)
        else none
      | _ => none
    else if 0xDC00 ≤ n ∧ n < 0xE000 then none
    else
      let (s, rest) ← scanString cs
      return (Char.ofNat n :: s, rest)
  | '\\' :: c :: cs => do
    let c' ← unescape c
    let (s, rest) ← scanString cs
    return (c' :: s, rest)
  | c :: cs =>
    if c.toNat < 32 ∨ c = '\\' then none
    else do
      let (s, rest) ← scanString cs
      return (c :: s, rest)

mutual

/-- One value at the head of the text. -/
def value : ℕ → List Char → Option (Json Numeral × List Char)
  | 0, _ => none
  | _ + 1, 'n' :: 'u' :: 'l' :: 'l' :: cs => some (null, cs)
  | _ + 1, 't' :: 'r' :: 'u' :: 'e' :: cs => some (bool true, cs)
  | _ + 1, 'f' :: 'a' :: 'l' :: 's' :: 'e' :: cs => some (bool false, cs)
  | _ + 1, '"' :: cs => do
    let (s, rest) ← scanString cs
    return (string (String.ofList s), rest)
  | n + 1, '[' :: cs => match skipWs cs with
    | ']' :: rest => some (array [], rest)
    | cs => do
      let (xs, rest) ← elements n cs
      return (array xs, rest)
  | n + 1, '{' :: cs => match skipWs cs with
    | '}' :: rest => some (object [], rest)
    | cs => do
      let (ms, rest) ← members n cs
      return (object ms, rest)
  | _ + 1, cs => do
    let (n, rest) ← scanNumeral cs
    return (number n, rest)

/-- The elements of an array from its first one to the closing bracket. -/
def elements : ℕ → List Char → Option (List (Json Numeral) × List Char)
  | 0, _ => none
  | n + 1, cs => do
    let (x, rest) ← value n (skipWs cs)
    match skipWs rest with
    | ']' :: rest => return ([x], rest)
    | ',' :: rest =>
      let (xs, rest) ← elements n rest
      return (x :: xs, rest)
    | _ => none

/-- The members of an object from its first one to the closing brace. -/
def members : ℕ → List Char → Option (List (String × Json Numeral) × List Char)
  | 0, _ => none
  | n + 1, cs => match skipWs cs with
    | '"' :: cs => do
      let (k, rest) ← scanString cs
      match skipWs rest with
      | ':' :: rest =>
        let (x, rest) ← value n (skipWs rest)
        match skipWs rest with
        | '}' :: rest => return ([(String.ofList k, x)], rest)
        | ',' :: rest =>
          let (ms, rest) ← members n rest
          return ((String.ofList k, x) :: ms, rest)
        | _ => none
      | _ => none
    | _ => none

end

/-- The tree of a JSON document. No production is longer than the text, so its length is fuel
enough. -/
def parse (s : String) : Option (Json Numeral) :=
  match value (s.toList.length + 1) (skipWs s.toList) with
  | some (x, rest) => if skipWs rest = [] then some x else none
  | none => none

end Json

end Lib
