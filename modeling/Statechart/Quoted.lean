import Statechart.Quoted.Unseen

/-!
# Quoted lists of texts

Lists of names are shown inside messages in brackets, each name in quotes. A quote, a
backslash, and the characters that cannot be seen are escaped; every other character stands
for itself.
-/
namespace Statechart.Quoted

/-- Whether a character can be seen. -/
def isSeen (c : Char) : Bool :=
  if c.toNat < 128 then 32 ≤ c.toNat && c.toNat != 127
  else !unseen.any fun (low, high) => low ≤ c.toNat && c.toNat ≤ high

/-- How a character is written inside quotes. -/
def escape (c : Char) : List Char :=
  match c with
  | '"' => ['\\', '"']
  | '\\' => ['\\', '\\']
  | '\n' => ['\\', 'n']
  | '\r' => ['\\', 'r']
  | '\t' => ['\\', 't']
  | '\x00' => ['\\', '0']
  | c => if isSeen c then [c] else ['\\', 'u', '\x7b'] ++ Nat.toDigits 16 c.toNat ++ ['\x7d']

def quote (s : String) : String := String.ofList ('"' :: s.toList.flatMap escape ++ ['"'])

def list (l : List String) : String := "[" ++ ", ".intercalate (l.map quote) ++ "]"

end Statechart.Quoted
