import Statechart.Definition.Basic

/-!
# Problems of definitions

What can be wrong with a definition, judged against the guards, actions and actor sources that are
registered. A definition is refused with all of its problems at once.
-/
namespace Statechart

inductive Problem where
  | unresolvedTarget (source target : String)
  | unknownGuard (state guard : String)
  | unknownAction (state action : String)
  | unknownActor (state src : String)
  | invalidInitial (state initial : String)
  | emptyCompound (state : String)
  | unexpectedChildren (state : String) (kind : Kind)
  | orphanHistory (state : String)
  | duplicateId (id : String)
  | duplicateInvocation (id : String)
deriving DecidableEq, Repr

namespace Problem

def message : Problem → String
  | .unresolvedTarget source target => s!"State '{source}' targets unknown state '{target}'"
  | .unknownGuard state guard => s!"State '{state}' references unknown guard '{guard}'"
  | .unknownAction state action => s!"State '{state}' references unknown action '{action}'"
  | .unknownActor state src => s!"State '{state}' invokes unknown actor source '{src}'"
  | .invalidInitial state initial =>
    s!"State '{state}' has initial '{initial}' which is not one of its children"
  | .emptyCompound state => s!"Compound state '{state}' has no child states"
  | .unexpectedChildren state kind =>
    let word := kind.word
    s!"State '{state}' is a {word} state and cannot have child states"
  | .orphanHistory state => s!"History state '{state}' must have a compound or parallel parent"
  | .duplicateId id => s!"Duplicate state id '{id}'"
  | .duplicateInvocation id => s!"Duplicate invocation id '{id}'"

/-- The refusal of a definition, with all its problems. -/
def summary (problems : List Problem) : String :=
  "Invalid machine definition: " ++ "; ".intercalate (problems.map message)

end Problem

end Statechart
