import Statechart.Json.Basic

/-!
# The compact text of a JSON value

No blanks, fields in ascending order of their names, and of the characters of a string only
the quote, the backslash and the control characters below the blank are escaped; every other
character stands for itself. `write` puts the text of a value in front of what follows it,
which is the form the laws about reading back are stated in.
-/
namespace Statechart

def hexDigit (n : Nat) : Char := Nat.digitChar n

namespace Json

/-- How a character is written inside a string. -/
def escape (c : Char) : List Char :=
  match c with
  | '"' => ['\\', '"']
  | '\\' => ['\\', '\\']
  | '\x08' => ['\\', 'b']
  | '\x0c' => ['\\', 'f']
  | '\n' => ['\\', 'n']
  | '\r' => ['\\', 'r']
  | '\t' => ['\\', 't']
  | c =>
    if c.toNat < 32 then ['\\', 'u', '0', '0', hexDigit (c.toNat / 16), hexDigit (c.toNat % 16)]
    else [c]

/-- A string in quotes, in front of `rest`. -/
def writeText (s : String) (rest : List Char) : List Char :=
  '"' :: (s.toList.flatMap escape ++ '"' :: rest)

def writeNumber (n : Number) (rest : List Char) : List Char :=
  match n with
  | .int i => (if i < 0 then ['-'] else []) ++ Nat.toDigits 10 i.natAbs ++ rest
  | .float x => x.text ++ rest

mutual

/-- A value, in front of `rest`. -/
def write : Json → List Char → List Char
  | .null, rest => 'n' :: 'u' :: 'l' :: 'l' :: rest
  | .bool true, rest => 't' :: 'r' :: 'u' :: 'e' :: rest
  | .bool false, rest => 'f' :: 'a' :: 'l' :: 's' :: 'e' :: rest
  | .num n, rest => writeNumber n rest
  | .str s, rest => writeText s rest
  | .arr [], rest => '[' :: ']' :: rest
  | .arr (x :: items), rest => '[' :: write x (writeItems items (']' :: rest))
  | .obj [], rest => '\x7b' :: '\x7d' :: rest
  | .obj ((k, x) :: fields), rest =>
    '\x7b' :: writeText k (':' :: write x (writeFields fields ('\x7d' :: rest)))

/-- The items of an array after its first, each after a comma. -/
def writeItems : List Json → List Char → List Char
  | [], rest => rest
  | x :: items, rest => ',' :: write x (writeItems items rest)

/-- The fields of an object after its first, each after a comma. -/
def writeFields : List (String × Json) → List Char → List Char
  | [], rest => rest
  | (k, x) :: fields, rest => ',' :: writeText k (':' :: write x (writeFields fields rest))

end

def render (j : Json) : String := String.ofList (j.write [])

end Json

end Statechart
