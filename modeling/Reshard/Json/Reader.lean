import Reshard.Digits
import Reshard.Json.Value

/-!
Reading JSON text, strictly: blanks are space, tab, line feed and carriage return, and
nothing but blanks follows the value. Arrays and objects may be nested to any depth. Every
function answers what it read and what is left.
-/

namespace Reshard

namespace Json

def isBlank (c : Char) : Bool := c = ' ' || c = '\t' || c = '\n' || c = '\r'

def skipBlanks (s : List Char) : List Char := s.dropWhile isBlank

/-! Strings. -/

def hexValue (c : Char) : Option Nat :=
  if '0' ≤ c ∧ c ≤ '9' then some (c.toNat - 48)
  else if 'a' ≤ c ∧ c ≤ 'f' then some (c.toNat - 87)
  else if 'A' ≤ c ∧ c ≤ 'F' then some (c.toNat - 55)
  else none

def hexUnit (a b c d : Char) : Option Nat := do
  return 4096 * (← hexValue a) + 256 * (← hexValue b) + 16 * (← hexValue c) + (← hexValue d)

def isHighHalf (unit : Nat) : Bool := 0xD800 ≤ unit && unit < 0xDC00

def isLowHalf (unit : Nat) : Bool := 0xDC00 ≤ unit && unit < 0xE000

def pieceOfUnit (unit : Nat) : Piece :=
  if isHighHalf unit || isLowHalf unit then .half unit else .char (Char.ofNat unit)

def pairChar (high low : Nat) : Char :=
  Char.ofNat (0x10000 + (high - 0xD800) * 0x400 + (low - 0xDC00))

/-- Puts a piece in front; a high half and a low half make one character. -/
def consPiece (p : Piece) (rest : List Piece) : List Piece :=
  match p, rest with
  | .half high, .half low :: rest' =>
    if isHighHalf high && isLowHalf low then .char (pairChar high low) :: rest' else p :: rest
  | _, _ => p :: rest

def shortEscape (c : Char) : Option Char :=
  match c with
  | '"' => some '"'
  | '\\' => some '\\'
  | '/' => some '/'
  | 'b' => some '\x08'
  | 'f' => some '\x0c'
  | 'n' => some '\n'
  | 'r' => some '\r'
  | 't' => some '\t'
  | _ => none

/-- The rest of a string after its opening quote. -/
def readPieces : List Char → Option (List Piece × List Char)
  | [] => none
  | '"' :: rest => some ([], rest)
  | '\\' :: 'u' :: a :: b :: c :: d :: rest => do
    let unit ← hexUnit a b c d
    let (pieces, after) ← readPieces rest
    return (consPiece (pieceOfUnit unit) pieces, after)
  | '\\' :: e :: rest => do
    let c ← shortEscape e
    let (pieces, after) ← readPieces rest
    return (.char c :: pieces, after)
  | c :: rest =>
    if c.toNat < 32 || c = '\\' then
      none
    else do
      let (pieces, after) ← readPieces rest
      return (.char c :: pieces, after)

/-! Numbers. -/

/-- Digits at the start, which are at least one. -/
def readDigits (s : List Char) : Option (List Char × List Char) :=
  let (digits, rest) := s.span Char.isDigit
  if digits.isEmpty then none else some (digits, rest)

/-- An integer part has no zero in front of other digits. -/
def readWhole (s : List Char) : Option (List Char × List Char) := do
  let (digits, rest) ← readDigits s
  if digits.head? = some '0' && digits.length ≠ 1 then none else some (digits, rest)

/-- A fraction, if there is one. -/
def readFraction (s : List Char) : Option (List Char × List Char) :=
  match s with
  | '.' :: rest => do
    let (digits, after) ← readDigits rest
    return ('.' :: digits, after)
  | _ => some ([], s)

/-- An exponent, if there is one. -/
def readExponent (s : List Char) : Option (List Char × List Char) :=
  match s with
  | e :: rest =>
    if e = 'e' || e = 'E' then
      match rest with
      | c :: rest' =>
        if c = '+' || c = '-' then do
          let (digits, after) ← readDigits rest'
          return (e :: c :: digits, after)
        else do
          let (digits, after) ← readDigits rest
          return (e :: digits, after)
      | [] => none
    else
      some ([], s)
  | [] => some ([], s)

def readNumber (s : List Char) : Option (Json × List Char) := do
  let (sign, unsigned) :=
    match s with
    | '-' :: rest => (['-'], rest)
    | _ => ([], s)
  let (whole, s₁) ← readWhole unsigned
  let (fraction, s₂) ← readFraction s₁
  let (exponent, s₃) ← readExponent s₂
  if sign.isEmpty && fraction.isEmpty && exponent.isEmpty then
    return (natural (Digits.natural whole), s₃)
  else
    return (number (sign ++ whole ++ fraction ++ exponent), s₃)

/-! Values. The first argument of these functions bounds the number of nested calls. -/

mutual

def readValue : Nat → List Char → Option (Json × List Char)
  | 0, _ => none
  | n + 1, s =>
    match skipBlanks s with
    | 'n' :: 'u' :: 'l' :: 'l' :: rest => some (null, rest)
    | 't' :: 'r' :: 'u' :: 'e' :: rest => some (bool true, rest)
    | 'f' :: 'a' :: 'l' :: 's' :: 'e' :: rest => some (bool false, rest)
    | '"' :: rest => do
      let (pieces, after) ← readPieces rest
      return (text pieces, after)
    | '[' :: rest =>
      match skipBlanks rest with
      | ']' :: after => some (array [], after)
      | first => do
        let (items, after) ← readItems n first
        return (array items, after)
    | '{' :: rest =>
      match skipBlanks rest with
      | '}' :: after => some (object [], after)
      | first => do
        let (members, after) ← readMembers n first
        return (object members, after)
    | other => readNumber other

/-- At least one item, up to the bracket that closes the array. -/
def readItems : Nat → List Char → Option (List Json × List Char)
  | 0, _ => none
  | n + 1, s => do
    let (item, s₁) ← readValue n s
    match skipBlanks s₁ with
    | ']' :: after => return ([item], after)
    | ',' :: more => do
      let (items, after) ← readItems n more
      return (item :: items, after)
    | _ => none

/-- At least one member, up to the brace that closes the object. -/
def readMembers : Nat → List Char → Option (List (List Piece × Json) × List Char)
  | 0, _ => none
  | n + 1, s =>
    match skipBlanks s with
    | '"' :: s₁ => do
      let (name, s₂) ← readPieces s₁
      match skipBlanks s₂ with
      | ':' :: s₃ => do
        let (value, s₄) ← readValue n s₃
        match skipBlanks s₄ with
        | '}' :: after => return ([(name, value)], after)
        | ',' :: more => do
          let (members, after) ← readMembers n more
          return ((name, value) :: members, after)
        | _ => none
      | _ => none
    | _ => none

end

/-- The value that a text holds. Of two nested calls one at least consumes a character, so
that the text's length bounds their number. -/
def read (s : List Char) : Option Json := do
  let (value, rest) ← readValue (2 * s.length + 2) s
  if (skipBlanks rest).isEmpty then some value else none

def ofText? (s : String) : Option Json := read s.toList

/-! Taking values apart. -/

def string? : Json → Option String
  | text pieces => (charsOf pieces).map String.ofList
  | _ => none

def natural? : Json → Option Nat
  | natural n => some n
  | _ => none

def array? : Json → Option (List Json)
  | array items => some items
  | _ => none

/-- The values of the named fields. Fields come in any order among others; each named one
comes exactly once, and every name is made of characters. An array stands for an object if
it has exactly the named fields, in order. -/
def fields? (names : List String) : Json → Option (List Json)
  | array items => if items.length = names.length then some items else none
  | object members =>
    if members.all fun m => (charsOf m.1).isSome then
      names.mapM fun name =>
        match members.filter fun m => charsOf m.1 = some name.toList with
        | [m] => some m.2
        | _ => none
    else
      none
  | _ => none

/-- An object of exactly one member. -/
def variant? : Json → Option (String × Json)
  | object [(name, value)] => (charsOf name).map (String.ofList ·, value)
  | _ => none

end Json

end Reshard
