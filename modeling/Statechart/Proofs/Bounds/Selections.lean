import Statechart.Proofs.Bounds.Lookups

/-!
# Selections, number by number

What transitions leave, which of them are in conflict, and which are selected, with every state
and transition looked up that is needed. A selection passes on the failures of guards; what it
selects are transitions of the chart (`Offers`).

* `domain?_eq`, `exitSet?_eq`: what transitions leave.
* `Registry.select?_eq`, `Registry.select_offers`: selections.
-/
namespace Statechart

namespace Chart

variable {c : Chart}

/-! ## Domains and exit sets -/

def isInternal? (c : Chart) (t : Transition) : Option Bool := do
  let inside ← t.targets.allM fun n => c.isDescendant? n t.source
  return !t.reenter && (← c.node? t.source).isCompound && inside

def domain? (c : Chart) (t : Nat) : Option (Option Nat) := do
  let t ← c.transition? t
  if t.isTargetless then return none
  else if ← c.isInternal? t then return some t.source
  else return some (← c.commonCompound? (t.source :: t.targets))

def exits? (c : Chart) (t n : Nat) : Option Bool := do
  match ← c.domain? t with
  | none => return false
  | some d => c.isDescendant? n d

def exitSet? (c : Chart) (configuration : NodeSet) (transitions : List Nat) :
    Option NodeSet := do
  return .ofList (← configuration.toList.filterM fun n => transitions.anyM fun t => c.exits? t n)

def conflict? (c : Chart) (configuration : NodeSet) (s t : Nat) : Option Bool := do
  return !(← c.exitSet? configuration [s]).disjoint (← c.exitSet? configuration [t])

def isDeeper? (c : Chart) (s t : Nat) : Option Bool := do
  c.isDescendant? (← c.transition? s).source (← c.transition? t).source

/-- Every transition of a list is one of the chart. -/
def Offers (c : Chart) (transitions : List Nat) : Prop := ∀ t ∈ transitions, t < c.transitions.size

section Domains

variable (h : c.Closed)
include h

theorem isInternal?_eq (t : Nat) :
    c.isInternal? (c.transition t) = some (c.isInternal (c.transition t)) := by
  rw [isInternal?, Lookup.allM_eq fun n hn => isDescendant?_eq (h.targets t n hn) (h.source t),
    node?_eq (h.source t)]
  rfl

theorem domain?_eq {t : Nat} (ht : t < c.transitions.size) :
    c.domain? t = some (c.domain t) := by
  have hstates : ∀ n ∈ (c.transition t).source :: (c.transition t).targets, n < c.size := by
    intro n hn
    rcases List.mem_cons.mp hn with rfl | hn
    · exact h.source t
    · exact h.targets t n hn
  rw [domain?, domain, transition?_eq ht, Option.bind_eq_bind, Option.bind_some,
    isInternal?_eq h, commonCompound?_eq h hstates]
  simp only [Option.bind_eq_bind, Option.bind_some]
  split
  · rfl
  · split <;> rfl

theorem domain_lt {t d : Nat} (hd : c.domain t = some d) : d < c.size := by
  unfold domain at hd
  dsimp only at hd
  split at hd
  · cases hd
  · split at hd
    · cases hd; exact h.source t
    · cases hd; exact commonCompound_lt h _

theorem exits?_eq {t n : Nat} (ht : t < c.transitions.size) (hn : n < c.size) :
    c.exits? t n = some (c.exits t n) := by
  rw [exits?, exits, domain?_eq h ht, Option.bind_eq_bind, Option.bind_some]
  cases hd : c.domain t with
  | none => rfl
  | some d => exact isDescendant?_eq hn (domain_lt h hd)

variable {configuration : NodeSet} (hc : c.Holds configuration)
include hc

theorem exitSet?_eq {transitions : List Nat} (ht : c.Offers transitions) :
    c.exitSet? configuration transitions = some (c.exitSet configuration transitions) := by
  rw [exitSet?, Lookup.filterM_eq fun n hn => Lookup.anyM_eq fun t hm =>
    exits?_eq h (ht t hm) (hc n hn)]
  refine congrArg some (NodeSet.ext fun n => ?_)
  rw [NodeSet.mem_ofList]
  rfl

omit h in
theorem exitSet_holds (transitions : List Nat) : c.Holds (c.exitSet configuration transitions) :=
  fun n hn => hc n (NodeSet.mem_filter.mp hn).1

theorem conflict?_eq {s t : Nat} (hs : s < c.transitions.size) (ht : t < c.transitions.size) :
    c.conflict? configuration s t = some (c.conflict configuration s t) := by
  rw [conflict?, exitSet?_eq h hc (by simpa [Offers] using hs),
    exitSet?_eq h hc (by simpa [Offers] using ht)]
  rfl

omit hc in
theorem isDeeper?_eq {s t : Nat} (hs : s < c.transitions.size) (ht : t < c.transitions.size) :
    c.isDeeper? s t = some (c.isDeeper s t) := by
  rw [isDeeper?, transition?_eq hs, transition?_eq ht]
  exact isDescendant?_eq (h.source s) (h.source t)

end Domains

/-! ## Selections -/

def offered? (c : Chart) (trigger : Trigger) (event : Event) (n : Nat) : Option (List Nat) := do
  let node ← c.node? n
  match trigger with
  | .event => return node.transitionsFor event.type
  | .eventless => return node.always

def candidates? (c : Chart) (trigger : Trigger) (event : Event) (leaf : Nat) :
    Option (List Nat) := do
  return (← (leaf :: (← c.ancestors? leaf)).mapM (c.offered? trigger event)).flatten

def settle? (c : Chart) (configuration : NodeSet) (kept : List Nat) (t : Nat) :
    Option (List Nat) := do
  let rivals ← kept.filterM fun k => c.conflict? configuration t k
  let others ← kept.filterM fun k => do return !(← c.conflict? configuration t k)
  if ← rivals.allM fun k => c.isDeeper? t k then return others ++ [t] else return kept

def withoutConflicts? (c : Chart) (configuration : NodeSet) (picks : List Nat) :
    Option (List Nat) :=
  picks.foldlM (c.settle? configuration) []

section Selections

variable {trigger : Trigger} {event : Event} (h : c.Closed)
include h

omit h in
theorem offered?_eq {n : Nat} (hn : n < c.size) :
    c.offered? trigger event n = some (c.offered trigger event n) := by
  rw [offered?, node?_eq hn]
  cases trigger <;> rfl

theorem offered_lt (n : Nat) : c.Offers (c.offered trigger event n) := by
  intro t ht
  cases trigger with
  | event => exact h.on n event.type t ht
  | eventless => exact h.always n t ht

theorem candidates?_eq {leaf : Nat} (hl : leaf < c.size) :
    c.candidates? trigger event leaf = some (c.candidates trigger event leaf) := by
  have hway : ∀ n ∈ leaf :: c.ancestors leaf, n < c.size := by
    intro n hn
    rcases List.mem_cons.mp hn with rfl | hn
    · exact hl
    · exact ancestors_lt h hn
  rw [candidates?, ancestors?_eq h hl, Option.bind_eq_bind, Option.bind_some,
    Lookup.mapM_eq fun n hn => offered?_eq (hway n hn)]
  rw [candidates, List.flatMap_def]
  rfl

theorem candidates_lt (leaf : Nat) : c.Offers (c.candidates trigger event leaf) := by
  intro t ht
  obtain ⟨n, -, ht⟩ := List.mem_flatMap.mp ht
  exact offered_lt h n t ht

variable {configuration : NodeSet} (hc : c.Holds configuration)
include hc

theorem settle?_eq {kept : List Nat} {t : Nat} (hk : c.Offers kept) (ht : t < c.transitions.size) :
    c.settle? configuration kept t = some (c.settle configuration kept t) := by
  have hconflict := fun k hm => conflict?_eq h hc ht (hk k hm)
  rw [settle?, settle, Lookup.filterM_eq hconflict,
    Lookup.filterM_eq (p := fun k => !c.conflict configuration t k) fun k hm => by
      rw [hconflict k hm]; rfl]
  simp only [Option.bind_eq_bind, Option.bind_some]
  rw [Lookup.allM_eq fun k hm => isDeeper?_eq h ht (hk k (List.mem_of_mem_filter hm)),
    Option.bind_some]
  split <;> rfl

omit hc h in
theorem settle_offers {kept : List Nat} {t : Nat} (hk : c.Offers kept)
    (ht : t < c.transitions.size) : c.Offers (c.settle configuration kept t) := by
  intro s hs
  rcases List.mem_append.mp ((settle_sublist c configuration kept t).subset hs) with hs | hs
  · exact hk s hs
  · rwa [List.mem_singleton.mp hs]

theorem withoutConflicts?_eq {picks : List Nat} (hp : c.Offers picks) :
    c.withoutConflicts? configuration picks = some (c.withoutConflicts configuration picks) :=
  (Lookup.foldlM_eq (P := c.Offers)
    (fun _ hk t ht => ⟨settle?_eq h hc hk (hp t ht), settle_offers hk (hp t ht)⟩)
    (by simp [Offers])).1

end Selections

end Chart

namespace Registry

variable {C E A : Type}

def permits? (r : Registry C E A) (c : Chart) (context : C) (event : Event) (t : Nat) :
    ExceptT Failure Option Bool := do
  match (← c.transition? t).guard with
  | none => return true
  | some name =>
    match r.guard? name with
    | none => throw (.guard name event.type .unregistered)
    | some guard =>
      match guard context event with
      | .ok passes => return passes
      | .error message => throw (.guard name event.type (.failed message))

def firstPermitted? (r : Registry C E A) (c : Chart) (context : C) (event : Event) :
    List Nat → ExceptT Failure Option (Option Nat)
  | [] => return none
  | t :: rest => do
    if ← r.permits? c context event t then return some t
    else firstPermitted? r c context event rest

def picks? (r : Registry C E A) (c : Chart) (configuration : NodeSet) (context : C)
    (event : Event) (trigger : Trigger) : ExceptT Failure Option (List Nat) := do
  let leaves ← c.activeLeaves? configuration
  let picks ← leaves.mapM fun leaf => do
    let candidates ← c.candidates? trigger event leaf
    r.firstPermitted? c context event candidates
  return (picks.filterMap id).eraseDups

def select? (r : Registry C E A) (c : Chart) (configuration : NodeSet) (context : C)
    (event : Event) (trigger : Trigger) : ExceptT Failure Option (List Nat) := do
  let picks ← r.picks? c configuration context event trigger
  c.withoutConflicts? configuration picks

variable {r : Registry C E A} {c : Chart} {configuration : NodeSet} {context : C} {event : Event}
  {trigger : Trigger}

theorem permits?_eq {t : Nat} (ht : t < c.transitions.size) :
    (r.permits? c context event t).run = some (r.permits c context event t) := by
  rw [permits?, permits, Chart.transition?_eq ht, Lookup.lift_bind]
  cases (c.transition t).guard with
  | none => rfl
  | some name =>
    dsimp only
    cases r.guard? name with
    | none => rfl
    | some guard =>
      dsimp only
      cases guard context event <;> rfl

theorem firstPermitted?_eq : ∀ {l : List Nat}, c.Offers l →
    (r.firstPermitted? c context event l).run = some (r.firstPermitted c context event l)
  | [], _ => rfl
  | t :: rest, hl => by
    rw [firstPermitted?, firstPermitted]
    refine Lookup.run_bind_eq (permits?_eq (hl t List.mem_cons_self)) fun passes _ => ?_
    cases passes with
    | true => rfl
    | false => exact firstPermitted?_eq fun s hs => hl s (List.mem_cons_of_mem _ hs)

variable (h : c.Closed)
include h

theorem picks_offers {picks : List Nat}
    (hp : r.picks c configuration context event trigger = .ok picks) : c.Offers picks := by
  intro t ht
  obtain ⟨leaf, -, ht⟩ := (of_picks hp).2 t ht
  exact Chart.candidates_lt h leaf t ht

/-- The transitions that are selected are there. -/
theorem select_offers {transitions : List Nat}
    (hs : r.select c configuration context event trigger = .ok transitions) :
    c.Offers transitions := by
  rw [select, bind_ok] at hs
  obtain ⟨picks, hp, hs⟩ := hs
  cases hs
  exact fun t ht => picks_offers h hp t
    ((Chart.withoutConflicts_sublist c configuration picks).subset ht)

variable (hc : c.Holds configuration)
include hc

theorem picks?_eq : (r.picks? c configuration context event trigger).run =
    some (r.picks c configuration context event trigger) := by
  rw [picks?, picks, Chart.activeLeaves?_eq hc, Lookup.lift_bind]
  refine Lookup.run_bind_eq (Lookup.run_mapM_eq fun leaf hl => ?_) fun _ _ => rfl
  rw [Chart.candidates?_eq h (Chart.activeLeaves_lt hc hl), Lookup.lift_bind]
  exact firstPermitted?_eq (Chart.candidates_lt h leaf)

theorem select?_eq : (r.select? c configuration context event trigger).run =
    some (r.select c configuration context event trigger) := by
  rw [select?, select]
  refine Lookup.run_bind_eq (picks?_eq h hc) fun picks hp => ?_
  rw [Chart.withoutConflicts?_eq h hc (picks_offers h hp)]
  rfl

end Registry

end Statechart
