/-!
# Dotted paths

A path is a text of keys with dots between them. `segments` takes it apart at every dot, so
that an empty text has one empty segment and two dots in a row have an empty segment between
them.
-/
namespace Statechart.Path

/-- The pieces of a list of characters between the dots. -/
def pieces : List Char → List (List Char)
  | [] => [[]]
  | c :: rest =>
    if c = '.' then [] :: pieces rest
    else match pieces rest with
      | [] => [[c]]
      | piece :: more => (c :: piece) :: more

def segments (path : List Char) : List String := (pieces path).map String.ofList

/-- The part before the first dot and the part after it, if there is a dot. -/
def splitFirst : List Char → Option (List Char × List Char)
  | [] => none
  | c :: rest =>
    if c = '.' then some ([], rest) else (splitFirst rest).map fun (head, tail) => (c :: head, tail)

end Statechart.Path
