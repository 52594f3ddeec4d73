import Statechart.Binary64
import Statechart.Dict

/-!
# JSON values

Payloads, contexts and every written form of this library are JSON values. A number is an
integer or a finite float, and the two are never equal: `1` and `1.0` are different values.
The fields of an object are kept in ascending order of their names (`Json.WellFormed`).

Two values are compared by `==` (`Json.same`): they have the same parts, and floats are
compared as numbers. This is equality of the trees but for zero, whose two signs are the same
number and have different texts.
-/
namespace Statechart

/-- A number: an integer, or a finite binary float. -/
inductive Number where
  | int (value : Int)
  | float (value : Binary64)
deriving DecidableEq, Repr

/-- Whether two numbers are the same: both integers, or both floats, and equal. -/
def Number.same : Number → Number → Bool
  | .int a, .int b => a == b
  | .float a, .float b => a.same b
  | _, _ => false

theorem Number.same_self (n : Number) : n.same n = true := by
  cases n with
  | int i => simp [same]
  | float x => exact x.same_self

/-- The least integer of 64 signed bits. -/
def minInt64 : Int := -9223372036854775808

/-- The greatest integer of 64 signed bits. -/
def maxInt64 : Int := 9223372036854775807

/-- The greatest integer of 64 bits without a sign. -/
def maxNat64 : Int := 18446744073709551615

/-- An integer is within the range that has a written form: 64 bits, with or without a sign. -/
def Number.InRange : Number → Prop
  | .int i => minInt64 ≤ i ∧ i ≤ maxNat64
  | .float _ => True

inductive Json where
  | null
  | bool (value : Bool)
  | num (value : Number)
  | str (value : String)
  | arr (items : List Json)
  | obj (fields : List (String × Json))
deriving Repr, Inhabited

namespace Json

mutual

/-- Equality of values is decided part by part. -/
def decEq : (a b : Json) → Decidable (a = b)
  | .null, .null => .isTrue rfl
  | .bool a, .bool b => decidable_of_iff (a = b) (by simp)
  | .num a, .num b => decidable_of_iff (a = b) (by simp)
  | .str a, .str b => decidable_of_iff (a = b) (by simp)
  | .arr a, .arr b => have := decEqItems a b; decidable_of_iff (a = b) (by simp)
  | .obj a, .obj b => have := decEqFields a b; decidable_of_iff (a = b) (by simp)
  | .null, .bool _ | .null, .num _ | .null, .str _ | .null, .arr _ | .null, .obj _
  | .bool _, .null | .bool _, .num _ | .bool _, .str _ | .bool _, .arr _ | .bool _, .obj _
  | .num _, .null | .num _, .bool _ | .num _, .str _ | .num _, .arr _ | .num _, .obj _
  | .str _, .null | .str _, .bool _ | .str _, .num _ | .str _, .arr _ | .str _, .obj _
  | .arr _, .null | .arr _, .bool _ | .arr _, .num _ | .arr _, .str _ | .arr _, .obj _
  | .obj _, .null | .obj _, .bool _ | .obj _, .num _ | .obj _, .str _ | .obj _, .arr _ =>
    .isFalse (by simp)

def decEqItems : (a b : List Json) → Decidable (a = b)
  | [], [] => .isTrue rfl
  | [], _ :: _ | _ :: _, [] => .isFalse (by simp)
  | x :: xs, y :: ys =>
    have := decEq x y
    have := decEqItems xs ys
    decidable_of_iff (x = y ∧ xs = ys) (by simp)

def decEqFields : (a b : List (String × Json)) → Decidable (a = b)
  | [], [] => .isTrue rfl
  | [], _ :: _ | _ :: _, [] => .isFalse (by simp)
  | (k, x) :: xs, (l, y) :: ys =>
    have := decEq x y
    have := decEqFields xs ys
    decidable_of_iff (k = l ∧ x = y ∧ xs = ys) (by simp [and_assoc])

end

instance : DecidableEq Json := decEq

mutual

/-- Whether two values are the same. -/
def same : Json → Json → Bool
  | .null, .null => true
  | .bool a, .bool b => a == b
  | .num a, .num b => a.same b
  | .str a, .str b => a == b
  | .arr a, .arr b => sameItems a b
  | .obj a, .obj b => sameFields a b
  | _, _ => false

def sameItems : List Json → List Json → Bool
  | [], [] => true
  | x :: xs, y :: ys => same x y && sameItems xs ys
  | _, _ => false

def sameFields : List (String × Json) → List (String × Json) → Bool
  | [], [] => true
  | (k, x) :: xs, (l, y) :: ys => k == l && same x y && sameFields xs ys
  | _, _ => false

end

instance : BEq Json := ⟨same⟩

mutual

theorem same_self : (j : Json) → same j j = true
  | .null => rfl
  | .bool _ | .str _ => by simp [same]
  | .num n => n.same_self
  | .arr items => sameItems_self items
  | .obj fields => sameFields_self fields

theorem sameItems_self : (l : List Json) → sameItems l l = true
  | [] => rfl
  | x :: xs => by simp [sameItems, same_self x, sameItems_self xs]

theorem sameFields_self : (l : List (String × Json)) → sameFields l l = true
  | [] => rfl
  | (_, x) :: xs => by simp [sameFields, same_self x, sameFields_self xs]

end

instance : ReflBEq Json := ⟨same_self _⟩

def ofNat (n : Nat) : Json := .num (.int n)

def ofTexts (l : List String) : Json := .arr (l.map .str)

def ofNats (l : List Nat) : Json := .arr (l.map ofNat)

/-- An object, its fields given in any order; of two fields of one name the later counts. They
are kept in ascending order of their names, and so they are written: the records that are
written with this (definitions, events, snapshots, plans, journals) do not keep the order in
which their fields are declared, as a writer could. What reads a record takes its fields in
any order. -/
def object (fields : List (String × Json)) : Json := .obj (Dict.ofList fields)

/-- The value of a field, if this is an object that has it. -/
def field? (j : Json) (name : String) : Option Json :=
  match j with
  | .obj fields => Dict.get? fields name
  | _ => none

/-- The integer, if this is one that fits in 64 signed bits. -/
def int64? : Json → Option Int
  | .num (.int i) => if minInt64 ≤ i ∧ i ≤ maxInt64 then some i else none
  | _ => none

def bool? : Json → Option Bool
  | .bool b => some b
  | _ => none

def str? : Json → Option String
  | .str s => some s
  | _ => none

mutual

/-- Every number is in range, and every object has its fields in ascending order of their
names, each name once. -/
def WellFormed : Json → Prop
  | .num n => n.InRange
  | .arr items => WellFormedItems items
  | .obj fields => Dict.Sorted fields ∧ WellFormedFields fields
  | _ => True

def WellFormedItems : List Json → Prop
  | [] => True
  | x :: rest => WellFormed x ∧ WellFormedItems rest

def WellFormedFields : List (String × Json) → Prop
  | [] => True
  | (_, x) :: rest => WellFormed x ∧ WellFormedFields rest

end

mutual

/-- How many arrays and objects are open at the deepest point of a value. -/
def depth : Json → Nat
  | .arr items => depthItems items + 1
  | .obj fields => depthFields fields + 1
  | _ => 0

def depthItems : List Json → Nat
  | [] => 0
  | x :: rest => max (depth x) (depthItems rest)

def depthFields : List (String × Json) → Nat
  | [] => 0
  | (_, x) :: rest => max (depth x) (depthFields rest)

end

end Json

end Statechart
