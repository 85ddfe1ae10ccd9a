import Reshard.Digits
import Reshard.Word

/-!
Reading the numbers of a command line: unsigned integers, which may have a plus sign and
leading zeros, and decimal numbers, which are rounded to the nearest `Float`.
-/

namespace Reshard

namespace Number

/-- Digits are the ASCII digits only. -/
def digitsOf? (s : List Char) : Option Nat :=
  if s.isEmpty || !s.all Char.isDigit then none else some (Digits.natural s)

def dropPlus : List Char → List Char
  | '+' :: rest => rest
  | s => s

/-- An unsigned integer below `limit`. -/
def natural? (limit : Nat) (s : String) : Option Nat :=
  (digitsOf? (dropPlus s.toList)).filter (· < limit)

def word? (s : String) : Option Nat := natural? Word.limit s

/-- A sign, and what follows it. -/
def takeSign : List Char → Bool × List Char
  | '-' :: rest => (true, rest)
  | '+' :: rest => (false, rest)
  | s => (false, s)

/-- The parts of a decimal number: `digits * 10 ^ exponent`. -/
structure Decimal where
  negative : Bool
  /-- Without zeros in front. -/
  digits : List Char
  exponent : Int
  deriving DecidableEq, Repr

def exponent? : List Char → Option Int
  | [] => some 0
  | e :: rest =>
    if e = 'e' || e = 'E' then
      let (negative, digits) := takeSign rest
      (digitsOf? digits).map fun n => if negative then -n else n
    else
      none

/-- Digits with an optional point, at least one digit, and an optional exponent. -/
def decimal? (s : List Char) : Option Decimal := do
  let (negative, unsigned) := takeSign s
  let (whole, s₁) := unsigned.span Char.isDigit
  let (fraction, s₂) :=
    match s₁ with
    | '.' :: rest => rest.span Char.isDigit
    | _ => ([], s₁)
  let digits := whole ++ fraction
  if digits.isEmpty then
    none
  else
    let exponent ← exponent? s₂
    return ⟨negative, digits.dropWhile (· = '0'), exponent - fraction.length⟩

/-- Beyond this power of ten every number is rounded to infinity, and below its inverse to
zero. -/
def maxPower : Int := 400

def Decimal.magnitude (d : Decimal) : Float :=
  let power := d.exponent + d.digits.length
  if d.digits.isEmpty || power < -maxPower then 0.0
  else if maxPower < power then 1.0 / 0.0
  else Float.ofScientific (Digits.natural d.digits) (d.exponent < 0) d.exponent.natAbs

def Decimal.toFloat (d : Decimal) : Float :=
  if d.negative then -d.magnitude else d.magnitude

/-- The numbers that go by a name, in any case of letters. -/
def named? (s : List Char) : Option Float :=
  let (negative, name) := takeSign s
  let sign : Float := if negative then -1.0 else 1.0
  match String.ofList (name.map Char.toLower) with
  | "inf" => some (sign / 0.0)
  | "infinity" => some (sign / 0.0)
  | "nan" => some (0.0 / 0.0)
  | _ => none

def float? (s : String) : Option Float :=
  match named? s.toList with
  | some x => some x
  | none => (decimal? s.toList).map (·.toFloat)

/-- The greater of two numbers, where a number that is none gives way. -/
def atLeast (bound x : Float) : Float := if bound < x then x else bound

end Number

end Reshard
