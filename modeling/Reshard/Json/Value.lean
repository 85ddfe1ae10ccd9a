/-!
JSON values, and their compact text. A string is a list of pieces, since an escape may name
half of a surrogate pair, which is no character.
-/

namespace Reshard

/-- A piece of a JSON string: a character, or a lone half of a surrogate pair. -/
inductive Piece
  | char (c : Char)
  | half (unit : Nat)
  deriving DecidableEq, Repr

inductive Json
  | null
  | bool (b : Bool)
  /-- A number that is written as plain digits. -/
  | natural (n : Nat)
  /-- Any other number, as it is written. -/
  | number (literal : List Char)
  | text (pieces : List Piece)
  | array (items : List Json)
  | object (members : List (List Piece × Json))
  deriving Repr, Inhabited

namespace Json

def piecesOf (s : String) : List Piece := s.toList.map Piece.char

/-- The characters of a string, if none of its pieces is a lone half. -/
def charsOf : List Piece → Option (List Char)
  | [] => some []
  | .char c :: rest => (charsOf rest).map (c :: ·)
  | .half _ :: _ => none

def ofString (s : String) : Json := text (piecesOf s)

/-- An object, from names and values. -/
def record (fields : List (String × Json)) : Json :=
  object (fields.map fun f => (piecesOf f.1, f.2))

/-! Writing. -/

def hexDigits (n : Nat) : List Char :=
  [n / 4096 % 16, n / 256 % 16, n / 16 % 16, n % 16].map Nat.digitChar

/-- Quotes, backslashes and control characters are escaped, everything else is written raw. -/
def escape (c : Char) : List Char :=
  if c = '"' then ['\\', '"']
  else if c = '\\' then ['\\', '\\']
  else if c = '\x08' then ['\\', 'b']
  else if c = '\x0c' then ['\\', 'f']
  else if c = '\n' then ['\\', 'n']
  else if c = '\r' then ['\\', 'r']
  else if c = '\t' then ['\\', 't']
  else if c.toNat < 32 then ['\\', 'u'] ++ hexDigits c.toNat
  else [c]

def renderPiece : Piece → List Char
  | .char c => escape c
  | .half unit => ['\\', 'u'] ++ hexDigits unit

def renderText (pieces : List Piece) : List Char :=
  '"' :: pieces.flatMap renderPiece ++ ['"']

mutual

/-- The compact text of a value, without blanks. -/
def render : Json → List Char
  | null => "null".toList
  | bool b => if b then "true".toList else "false".toList
  | natural n => Nat.toDigits 10 n
  | number literal => literal
  | text pieces => renderText pieces
  | array items => '[' :: renderItems items
  | object members => '{' :: renderMembers members

/-- The items of an array, with the bracket that closes it. -/
def renderItems : List Json → List Char
  | [] => [']']
  | [item] => render item ++ [']']
  | item :: rest => render item ++ ',' :: renderItems rest

/-- The members of an object, with the brace that closes it. -/
def renderMembers : List (List Piece × Json) → List Char
  | [] => ['}']
  | [(name, value)] => renderText name ++ ':' :: render value ++ ['}']
  | (name, value) :: rest => renderText name ++ ':' :: render value ++ ',' :: renderMembers rest

end

def toText (j : Json) : String := String.ofList j.render

end Json

end Reshard
