import Statechart.Digits
import Statechart.Json.Basic

/-!
# JSON text, read for its shape

A draft is a text read no further than its shape: the fields of an object in written order
and with their duplicates, and a string or a number that has a form but no value (a lone
surrogate, a number beyond the largest float) kept as such. What a draft means is settled by
whoever reads it: a field that nobody asks for is never judged, however it is nested.

`Draft.ofText?` reads a whole text; it refuses what is not JSON, text after the value, and a
control character inside a string.
-/
namespace Statechart

inductive Draft where
  | null
  | bool (value : Bool)
  /-- A number; none if it has no value. -/
  | num (value : Option Number)
  /-- A string; none if it has no value. -/
  | str (value : Option String)
  | arr (items : List Draft)
  | obj (fields : List (Option String × Draft))
deriving Repr, Inhabited

namespace Draft

def isBlank (c : Char) : Bool := c = ' ' || c = '\t' || c = '\n' || c = '\r'

def skipBlanks (cs : List Char) : List Char := cs.dropWhile isBlank

/-! ## Strings -/

/-- A piece of a string: a character that stands for itself, or a 16-bit unit written in
hexadecimal. -/
inductive Piece where
  | char (c : Char)
  | unit (value : Nat)
deriving DecidableEq, Repr

def hexValue? (c : Char) : Option Nat :=
  if '0' ≤ c ∧ c ≤ '9' then some (c.toNat - '0'.toNat)
  else if 'a' ≤ c ∧ c ≤ 'f' then some (c.toNat - 'a'.toNat + 10)
  else if 'A' ≤ c ∧ c ≤ 'F' then some (c.toNat - 'A'.toNat + 10)
  else none

/-- The value of four hexadecimal digits. -/
def unit? (a b c d : Char) : Option Nat := do
  return ((← hexValue? a) * 16 + (← hexValue? b)) * 256 + ((← hexValue? c) * 16 + (← hexValue? d))

/-- The character that a one-letter escape stands for. -/
def escaped? : Char → Option Char
  | '"' => some '"'
  | '\\' => some '\\'
  | '/' => some '/'
  | 'b' => some '\x08'
  | 'f' => some '\x0c'
  | 'n' => some '\n'
  | 'r' => some '\r'
  | 't' => some '\t'
  | _ => none

/-- The pieces of a string up to its closing quote, and what follows it. -/
def readPieces : List Char → Option (List Piece × List Char)
  | [] => none
  | '"' :: rest => some ([], rest)
  | '\\' :: 'u' :: a :: b :: c :: d :: rest => do
    let u ← unit? a b c d
    let (ps, rest) ← readPieces rest
    return (.unit u :: ps, rest)
  | '\\' :: c :: rest => do
    let c ← escaped? c
    let (ps, rest) ← readPieces rest
    return (.char c :: ps, rest)
  | c :: rest =>
    if c.toNat < 32 then none
    else do
      let (ps, rest) ← readPieces rest
      return (.char c :: ps, rest)

/-- Whether a unit is the first half of a pair. -/
def isHigh (u : Nat) : Bool := 0xD800 ≤ u && u < 0xDC00

/-- Whether a unit is the second half of a pair. -/
def isLow (u : Nat) : Bool := 0xDC00 ≤ u && u < 0xE000

/-- The characters of a string's pieces; two halves of a pair are one character, and a half
on its own is none. -/
def joinPieces : List Piece → Option (List Char)
  | [] => some []
  | .char c :: rest => (joinPieces rest).map (c :: ·)
  | .unit u :: rest =>
    if isLow u then none
    else if isHigh u then
      match rest with
      | .unit v :: rest =>
        if isLow v then
          (joinPieces rest).map (Char.ofNat (0x10000 + (u - 0xD800) * 0x400 + (v - 0xDC00)) :: ·)
        else none
      | _ => none
    else (joinPieces rest).map (Char.ofNat u :: ·)

/-- A string after its opening quote, and what follows it. -/
def readText (cs : List Char) : Option (Option String × List Char) := do
  let (ps, rest) ← readPieces cs
  return ((joinPieces ps).map String.ofList, rest)

/-! ## Numbers -/

/-- The float that a numeral is read as. Its digits count up to the last that still fits in
64 bits; a digit left out in front of the point moves it by one place. -/
def float? (negative : Bool) (whole fraction : List Char) (exponent : Int) : Option Number :=
  let (n, read) := Digits.within maxNat64.toNat 0 whole
  let (m, places) := Digits.within maxNat64.toNat n fraction
  let left : Int := (whole.length - read : Nat)
  (Binary64.ofScaled negative m (exponent + left - places)).map .float

/-- The value of a numeral without fraction or exponent: an integer where one is in range,
else a float. Minus zero is a float. -/
def integer? (negative : Bool) (whole : List Char) : Option Number :=
  let n := Digits.value whole
  if negative then
    if n ≠ 0 ∧ minInt64 ≤ -(n : Int) then some (.int (-(n : Int)))
    else float? true whole [] 0
  else if (n : Int) ≤ maxNat64 then some (.int n) else float? false whole [] 0

/-- An exponent after its letter, and what follows it. -/
def readExponent (cs : List Char) : Option (Int × List Char) :=
  let (negative, cs) : Bool × List Char :=
    match cs with
    | '-' :: rest => (true, rest)
    | '+' :: rest => (false, rest)
    | cs => (false, cs)
  match cs.span Char.isDigit with
  | ([], _) => none
  | (ds, rest) => some (if negative then -(Digits.value ds : Int) else Digits.value ds, rest)

/-- The fraction and the exponent behind a number's whole part, and what follows them. -/
def readScaled (negative : Bool) (whole : List Char) (cs : List Char) :
    Option (Option Number × List Char) :=
  let exponent (fraction : List Char) (cs : List Char) : Option (Option Number × List Char) := do
    let (e, rest) ←
      match cs with
      | 'e' :: rest | 'E' :: rest => readExponent rest
      | cs => some (0, cs)
    return (float? negative whole fraction e, rest)
  match cs with
  | '.' :: rest =>
    match rest.span Char.isDigit with
    | ([], _) => none
    | (ds, rest) => exponent ds rest
  | 'e' :: _ | 'E' :: _ => exponent [] cs
  | _ => some (integer? negative whole, cs)

/-- A number, and what follows it. A whole part of several digits does not begin with a zero. -/
def readNumber (cs : List Char) : Option (Option Number × List Char) :=
  let (negative, cs) : Bool × List Char :=
    match cs with
    | '-' :: rest => (true, rest)
    | cs => (false, cs)
  match cs.span Char.isDigit with
  | ([], _) => none
  | ('0' :: _ :: _, _) => none
  | (whole, rest) => readScaled negative whole rest

/-! ## Values -/

mutual

/-- A value, and what follows it. The first argument bounds the calls; twice the number of
characters is always enough. -/
def readValue : Nat → List Char → Option (Draft × List Char)
  | 0, _ => none
  | fuel + 1, cs =>
    match skipBlanks cs with
    | 'n' :: 'u' :: 'l' :: 'l' :: rest => some (.null, rest)
    | 't' :: 'r' :: 'u' :: 'e' :: rest => some (.bool true, rest)
    | 'f' :: 'a' :: 'l' :: 's' :: 'e' :: rest => some (.bool false, rest)
    | '"' :: rest => (readText rest).map fun (s, rest) => (.str s, rest)
    | '[' :: rest =>
      match skipBlanks rest with
      | ']' :: rest => some (.arr [], rest)
      | rest => (readItems fuel rest).map fun (items, rest) => (.arr items, rest)
    | '\x7b' :: rest =>
      match skipBlanks rest with
      | '\x7d' :: rest => some (.obj [], rest)
      | rest => (readFields fuel rest).map fun (fields, rest) => (.obj fields, rest)
    | rest => (readNumber rest).map fun (n, rest) => (.num n, rest)

/-- The items of an array up to its end, at least one. -/
def readItems : Nat → List Char → Option (List Draft × List Char)
  | 0, _ => none
  | fuel + 1, cs => do
    let (item, rest) ← readValue fuel cs
    match skipBlanks rest with
    | ']' :: rest => some ([item], rest)
    | ',' :: rest =>
      let (items, rest) ← readItems fuel rest
      return (item :: items, rest)
    | _ => none

/-- The fields of an object up to its end, at least one. -/
def readFields : Nat → List Char → Option (List (Option String × Draft) × List Char)
  | 0, _ => none
  | fuel + 1, cs =>
    match skipBlanks cs with
    | '"' :: rest => do
      let (name, rest) ← readText rest
      match skipBlanks rest with
      | ':' :: rest =>
        let (value, rest) ← readValue fuel rest
        match skipBlanks rest with
        | '\x7d' :: rest => some ([(name, value)], rest)
        | ',' :: rest =>
          let (fields, rest) ← readFields fuel rest
          return ((name, value) :: fields, rest)
        | _ => none
      | _ => none
    | _ => none

end

/-- Reads a whole text. -/
def ofText? (text : String) : Option Draft := do
  let cs := text.toList
  let (draft, rest) ← readValue (2 * cs.length + 2) cs
  if (skipBlanks rest).isEmpty then some draft else none

end Draft

end Statechart
