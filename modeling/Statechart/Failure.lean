import Statechart.StateValue
import Statechart.Quoted

/-!
# Failures of macrosteps

A guard or an action that fails is a matter of the data at hand; the other causes are
defects of the definition: a cycle of transitions that changes nothing, more microsteps than
the ceiling allows, or an entry that leads back to itself through its history states.
-/
namespace Statechart

/-- Why a guard or an action gave no answer. -/
inductive Cause where
  | unregistered
  | failed (message : String)
deriving DecidableEq, Repr

/-- Why a macrostep came to nothing. -/
inductive Failure where
  | guard (name event : String) (cause : Cause)
  | action (name event : String) (cause : Cause)
  /-- The transitions were selected before in the same situation, where the value was `state`. -/
  | cycle (state : StateValue) (event : String) (transitions : List String)
  | microstepLimit (event : String) (limit : Nat)
  | endlessEntry (event : String)
deriving DecidableEq, Repr

namespace Failure

/-- Whether the definition is to blame. -/
def isDefect : Failure → Bool
  | .guard .. | .action .. => false
  | .cycle .. | .microstepLimit .. | .endlessEntry .. => true

/-- A cause in words; `missing` says what it means that there is no such name. -/
def causeMessage (missing : String) : Cause → String
  | .unregistered => missing
  | .failed message => message

def message : Failure → String
  | .guard name event cause =>
    let reason := causeMessage "guard is not registered" cause
    s!"Guard '{name}' failed while handling '{event}': {reason}"
  | .action name event cause =>
    let reason := causeMessage "action is not registered" cause
    s!"Action '{name}' failed while handling '{event}': {reason}"
  | .cycle state event transitions =>
    let value := state.render
    let list := Quoted.list transitions
    s!"Transition cycle detected in {value} while handling '{event}': "
      ++ s!"{list} reselected with no progress"
  | .microstepLimit event limit =>
    s!"Macrostep for '{event}' exceeded the limit of {limit} microsteps"
  | .endlessEntry event => s!"Entry for '{event}' leads back to itself"

end Failure

end Statechart
