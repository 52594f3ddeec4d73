import Statechart.Domain

/-!
# Entry sets

The states that a set of transitions enters. A target brings in its default inside: the
default child of a compound state, all regions of a parallel state. A target also brings in
its ancestors below the domain, and with a parallel one of these the regions that nothing
else in the set lies in. A history state stands for what it remembers, or for its default.

Entries can lead back to themselves through the default of a history state. A call that asks
for a state again without anything having been added since would ask for ever, so the calls
that are open at one time are at most as many as there are pairs of a state and a size of
the set; `entryBound` is one more than that, and an entry that needs more has no set.
-/
namespace Statechart.Chart

/-- What a history state stands for while nothing is remembered: the default that it
declares, or else the default child of its parent, or all regions of a parallel parent. -/
def historyDefault (c : Chart) (n : Nat) : List Nat :=
  if !(c.node n).historyTarget.isEmpty then (c.node n).historyTarget
  else match (c.node n).parent with
    | none => []
    | some p => if (c.node p).isParallel then c.regions p else (c.node p).initial.toList

/-- What a history state stands for. -/
def restored (c : Chart) (history : Dict (List Nat)) (n : Nat) : List Nat :=
  (history.get? (c.node n).id).getD (c.historyDefault n)

/-- The states that a target stands for. -/
def effectiveTargets (c : Chart) (history : Dict (List Nat)) (n : Nat) : List Nat :=
  if (c.node n).isHistory then c.restored history n else [n]

/-- Whether a set holds a state or something inside it. -/
def covers (c : Chart) (states : NodeSet) (n : Nat) : Bool :=
  states.any fun s => s == n || c.isDescendant s n

/-- Adds the regions of a parallel state that the set does not cover, each by `add`. -/
def addMissingRegions (c : Chart) (add : Nat → NodeSet → Option NodeSet) (parallel : Nat)
    (states : NodeSet) : Option NodeSet :=
  (c.regions parallel).foldlM
    (fun states r => if c.covers states r then some states else add r states) states

/-- Adds the ancestors of a state below `domain`, and what parallel ones of them are missing. -/
def addAncestors (c : Chart) (add : Nat → NodeSet → Option NodeSet) (domain n : Nat)
    (states : NodeSet) : Option NodeSet :=
  (c.ancestorsUntil n (some domain)).foldlM
    (fun states a =>
      let states := states.insert a
      if (c.node a).isParallel then c.addMissingRegions add a states else some states)
    states

/-- Adds a state and its default inside, with at most so many calls open at one time. -/
def addInside (c : Chart) (history : Dict (List Nat)) : Nat → Nat → NodeSet → Option NodeSet
  | 0, _, _ => none
  | calls + 1, n, states =>
    let add := addInside c history calls
    let node := c.node n
    if node.isHistory then
      match node.parent with
      | none => some states
      | some p => do
        let targets := c.restored history n
        let states ← targets.foldlM (fun states t => add t states) states
        targets.foldlM (fun states t => c.addAncestors add p t states) states
    else
      let states := states.insert n
      if node.isCompound then
        match node.initial with
        | none => some states
        | some k => do c.addAncestors add n k (← add k states)
      else if node.isParallel then c.addMissingRegions add n states
      else some states

/-- How many calls are open at most when an entry has a set. -/
def entryBound (c : Chart) : Nat := c.size * (c.size + 1) + 1

/-- Adds a state and its default inside. -/
def enter (c : Chart) (history : Dict (List Nat)) (n : Nat) (states : NodeSet) : Option NodeSet :=
  c.addInside history c.entryBound n states

/-- Adds what one transition enters. -/
def addEntries (c : Chart) (history : Dict (List Nat)) (states : NodeSet) (t : Nat) :
    Option NodeSet :=
  match c.domain t with
  | none => some states
  | some domain => do
    let add := c.enter history
    let targets := (c.transition t).targets
    let states ← targets.foldlM (fun states n => add n states) states
    let states ← (targets.flatMap (c.effectiveTargets history)).foldlM
      (fun states n => c.addAncestors add domain n states) states
    if (c.node domain).isParallel then c.addMissingRegions add domain states else some states

/-- The states that a set of transitions enters. -/
def entrySet (c : Chart) (history : Dict (List Nat)) (transitions : List Nat) : Option NodeSet :=
  transitions.foldlM (c.addEntries history) ∅

/-- The states that are entered at the start. -/
def initialEntrySet (c : Chart) : Option NodeSet := c.enter [] root ∅

end Statechart.Chart
