/-!
# Rows of decimal digits
-/
namespace Statechart.Digits

/-- The number that a row of decimal digits stands for. -/
def value (ds : List Char) : Nat := ds.foldl (fun n d => n * 10 + (d.toNat - '0'.toNat)) 0

/-- The number that as many of the digits as keep it within a limit make behind those of `n`,
and how many these are. -/
def within (limit n : Nat) : List Char → Nat × Nat
  | [] => (n, 0)
  | d :: ds =>
    let next := n * 10 + (d.toNat - '0'.toNat)
    if next ≤ limit then
      let (m, used) := within limit next ds
      (m, used + 1)
    else (n, 0)

end Statechart.Digits
