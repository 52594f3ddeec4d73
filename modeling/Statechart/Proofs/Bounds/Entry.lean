import Statechart.Entry
import Statechart.Proofs.Bounds.Selections

/-!
# Entry sets, number by number

The states that transitions enter, found by looking up every state that is needed. The answer of
an entry is an answer of two kinds of failing: it may ask for a number that is not in the tables,
and it may have no set because it leads back to itself. In a closed chart with a history of its
own states the first never happens, and what is entered are states of the chart (`Answers`).

* `addInside?_answers`: one state with its default inside.
* `entrySet?_answers`, `initialEntrySet?_answers`: whole entry sets.
-/
namespace Statechart.Chart

variable {c : Chart} {history : Dict (List Nat)}

/-! ## What history states stand for -/

/-- A history remembers states of the chart only. -/
def Recalls (c : Chart) (history : Dict (List Nat)) : Prop :=
  ∀ id l, history.get? id = some l → ∀ n ∈ l, n < c.size

def historyDefault? (c : Chart) (n : Nat) : Option (List Nat) := do
  let node ← c.node? n
  if !node.historyTarget.isEmpty then return node.historyTarget
  else
    match node.parent with
    | none => return []
    | some p => do
      let parent ← c.node? p
      if parent.isParallel then c.regions? p else return parent.initial.toList

def restored? (c : Chart) (history : Dict (List Nat)) (n : Nat) : Option (List Nat) := do
  match history.get? (← c.node? n).id with
  | none => c.historyDefault? n
  | some remembered => return remembered

def effectiveTargets? (c : Chart) (history : Dict (List Nat)) (n : Nat) : Option (List Nat) := do
  if (← c.node? n).isHistory then c.restored? history n else return [n]

def allEffectiveTargets? (c : Chart) (history : Dict (List Nat)) (targets : List Nat) :
    Option (List Nat) := do
  return (← targets.mapM (c.effectiveTargets? history)).flatten

section History

variable (h : c.Closed) {n : Nat} (hn : n < c.size)
include h hn

theorem historyDefault?_eq : c.historyDefault? n = some (c.historyDefault n) := by
  rw [historyDefault?, historyDefault, node?_eq hn, Option.bind_eq_bind, Option.bind_some]
  split
  · rfl
  · cases hp : (c.node n).parent with
    | none => rfl
    | some p =>
      have hlt := h.parent_lt_size hp
      dsimp only
      rw [node?_eq hlt, regions?_eq h hlt, Option.bind_some]
      split <;> rfl

omit hn in
theorem historyDefault_lt {k : Nat} (hk : k ∈ c.historyDefault n) : k < c.size := by
  unfold historyDefault at hk
  split at hk
  · exact h.historyTarget n k hk
  · cases hp : (c.node n).parent with
    | none => rw [hp] at hk; exact absurd hk List.not_mem_nil
    | some p =>
      rw [hp] at hk
      dsimp only at hk
      split at hk
      · exact regions_lt h hk
      · exact h.initial p k (Option.mem_toList.mp hk)

theorem restored?_eq : c.restored? history n = some (c.restored history n) := by
  rw [restored?, restored, node?_eq hn, Option.bind_eq_bind, Option.bind_some]
  cases history.get? (c.node n).id with
  | none => exact historyDefault?_eq h hn
  | some remembered => rfl

omit hn in
theorem restored_lt (hr : c.Recalls history) {k : Nat} (hk : k ∈ c.restored history n) :
    k < c.size := by
  unfold restored at hk
  cases hget : history.get? (c.node n).id with
  | none => rw [hget] at hk; exact historyDefault_lt h hk
  | some remembered => rw [hget] at hk; exact hr _ _ hget k hk

theorem effectiveTargets?_eq :
    c.effectiveTargets? history n = some (c.effectiveTargets history n) := by
  rw [effectiveTargets?, effectiveTargets, node?_eq hn, Option.bind_eq_bind, Option.bind_some]
  split
  · exact restored?_eq h hn
  · rfl

theorem effectiveTargets_lt (hr : c.Recalls history) {k : Nat}
    (hk : k ∈ c.effectiveTargets history n) : k < c.size := by
  unfold effectiveTargets at hk
  split at hk
  · exact restored_lt h hr hk
  · rwa [List.mem_singleton.mp hk]

omit hn in
theorem allEffectiveTargets?_eq {targets : List Nat} (ht : ∀ n ∈ targets, n < c.size) :
    c.allEffectiveTargets? history targets =
      some (targets.flatMap (c.effectiveTargets history)) := by
  rw [allEffectiveTargets?, Lookup.mapM_eq fun n hn => effectiveTargets?_eq h (ht n hn),
    List.flatMap_def]
  rfl

end History

/-! ## Answers -/

/-- An entry answers as it does without looking up its states, with states of the chart. -/
structure Answers (c : Chart) (x? : OptionT Option NodeSet) (x : Option NodeSet) : Prop where
  eq : x?.run = some x
  holds : ∀ states, x = some states → c.Holds states

namespace Answers

variable {x? : OptionT Option NodeSet} {x : Option NodeSet}

theorem pure {states : NodeSet} (hs : c.Holds states) : c.Answers (pure states) (some states) :=
  ⟨rfl, fun _ he => by cases he; exact hs⟩

theorem bind {f? : NodeSet → OptionT Option NodeSet} {f : NodeSet → Option NodeSet}
    (hx : c.Answers x? x) (hf : ∀ states, c.Holds states → c.Answers (f? states) (f states)) :
    c.Answers (x? >>= f?) (x >>= f) := by
  cases x with
  | none =>
    refine ⟨?_, nofun⟩
    rw [OptionT.run_bind, hx.eq]
    rfl
  | some states =>
    obtain ⟨heq, hholds⟩ := hf states (hx.holds states rfl)
    refine ⟨?_, hholds⟩
    rw [OptionT.run_bind, hx.eq]
    exact heq

theorem lift {α : Type} {a : α} {f? : α → OptionT Option NodeSet} (h : c.Answers (f? a) x) :
    c.Answers (liftM (some a) >>= f?) x := h

theorem foldlM {α : Type} {f? : NodeSet → α → OptionT Option NodeSet}
    {f : NodeSet → α → Option NodeSet} : ∀ {l : List α} {states : NodeSet},
      (∀ a ∈ l, ∀ states, c.Holds states → c.Answers (f? states a) (f states a)) →
      c.Holds states → c.Answers (l.foldlM f? states) (l.foldlM f states)
  | [], _, _, hs => .pure hs
  | a :: l, _, h, hs => by
    rw [List.foldlM_cons, List.foldlM_cons]
    exact (h a List.mem_cons_self _ hs).bind fun _ hs =>
      foldlM (fun b hb => h b (List.mem_cons_of_mem _ hb)) hs

end Answers

theorem Holds.insert {states : NodeSet} (hs : c.Holds states) {n : Nat} (hn : n < c.size) :
    c.Holds (states.insert n) := by
  intro k hk
  rcases NodeSet.mem_insert.mp hk with rfl | hk
  · exact hn
  · exact hs k hk

/-! ## Entry sets -/

def covers? (c : Chart) (states : NodeSet) (n : Nat) : Option Bool :=
  states.toList.anyM fun s => do return s == n || (← c.isDescendant? s n)

def addMissingRegions? (c : Chart) (add : Nat → NodeSet → OptionT Option NodeSet) (parallel : Nat)
    (states : NodeSet) : OptionT Option NodeSet := do
  let regions ← c.regions? parallel
  regions.foldlM (fun states r => do
    let covered ← c.covers? states r
    if covered then return states else add r states) states

def addAncestors? (c : Chart) (add : Nat → NodeSet → OptionT Option NodeSet) (domain n : Nat)
    (states : NodeSet) : OptionT Option NodeSet := do
  let way ← c.ancestorsUntil? n (some domain)
  way.foldlM (fun states a => do
    let node ← c.node? a
    let states := states.insert a
    if node.isParallel then c.addMissingRegions? add a states else return states) states

def addInside? (c : Chart) (history : Dict (List Nat)) :
    Nat → Nat → NodeSet → OptionT Option NodeSet
  | 0, _, _ => failure
  | calls + 1, n, states => do
    let add := addInside? c history calls
    let node ← c.node? n
    if node.isHistory then
      match node.parent with
      | none => return states
      | some p => do
        let targets ← c.restored? history n
        let states ← targets.foldlM (fun states t => add t states) states
        targets.foldlM (fun states t => c.addAncestors? add p t states) states
    else
      let states := states.insert n
      if node.isCompound then
        match node.initial with
        | none => return states
        | some k => do
          let states ← add k states
          c.addAncestors? add n k states
      else if node.isParallel then c.addMissingRegions? add n states
      else return states

def enter? (c : Chart) (history : Dict (List Nat)) (n : Nat) (states : NodeSet) :
    OptionT Option NodeSet :=
  c.addInside? history c.entryBound n states

def addEntries? (c : Chart) (history : Dict (List Nat)) (states : NodeSet) (t : Nat) :
    OptionT Option NodeSet := do
  match ← OptionT.lift (c.domain? t) with
  | none => return states
  | some domain => do
    let add := c.enter? history
    let transition ← c.transition? t
    let node ← c.node? domain
    let effective ← c.allEffectiveTargets? history transition.targets
    let states ← transition.targets.foldlM (fun states n => add n states) states
    let states ← effective.foldlM (fun states n => c.addAncestors? add domain n states) states
    if node.isParallel then c.addMissingRegions? add domain states else return states

def entrySet? (c : Chart) (history : Dict (List Nat)) (transitions : List Nat) :
    OptionT Option NodeSet :=
  transitions.foldlM (c.addEntries? history) ∅

def initialEntrySet? (c : Chart) : OptionT Option NodeSet := c.enter? [] root ∅

section Sets

variable {add? : Nat → NodeSet → OptionT Option NodeSet} {add : Nat → NodeSet → Option NodeSet}
  {states : NodeSet}

theorem covers?_eq (hs : c.Holds states) {n : Nat} (hn : n < c.size) :
    c.covers? states n = some (c.covers states n) :=
  Lookup.anyM_eq fun s hm => by rw [isDescendant?_eq (hs s hm) hn]; rfl

variable (h : c.Closed)
include h

section Adding

variable (hadd : ∀ n < c.size, ∀ states, c.Holds states → c.Answers (add? n states) (add n states))
include hadd

theorem addMissingRegions?_answers {n : Nat} (hn : n < c.size) (hs : c.Holds states) :
    c.Answers (c.addMissingRegions? add? n states) (c.addMissingRegions add n states) := by
  rw [addMissingRegions?, regions?_eq h hn]
  refine Answers.foldlM (fun r hr states hs => ?_) hs
  have hlt := regions_lt h hr
  rw [covers?_eq hs hlt]
  show c.Answers (if c.covers states r = true then pure states else add? r states) _
  split
  · exact .pure hs
  · exact hadd r hlt states hs

theorem addAncestors?_answers {domain n : Nat} (hn : n < c.size) (hs : c.Holds states) :
    c.Answers (c.addAncestors? add? domain n states) (c.addAncestors add domain n states) := by
  rw [addAncestors?, ancestorsUntil?_eq h hn]
  refine Answers.foldlM (fun a ha states hs => ?_) hs
  have hlt := ancestorsUntil_lt h ha
  have hinserted := hs.insert hlt
  rw [node?_eq hlt]
  show c.Answers (if (c.node a).isParallel = true then
    c.addMissingRegions? add? a (states.insert a) else pure (states.insert a)) _
  split
  · exact addMissingRegions?_answers h hadd hlt hinserted
  · exact .pure hinserted

end Adding

/-- A state with its default inside. -/
theorem addInside?_answers (hr : c.Recalls history) : ∀ calls : Nat, ∀ n < c.size, ∀ states,
    c.Holds states → c.Answers (c.addInside? history calls n states)
      (c.addInside history calls n states)
  | 0, _, _, _, _ => ⟨rfl, nofun⟩
  | calls + 1, n, hn, states, hs => by
    have hadd := addInside?_answers hr calls
    rw [addInside?, addInside, node?_eq hn]
    show c.Answers (if (c.node n).isHistory = true then _ else _) _
    split
    · cases hp : (c.node n).parent with
      | none => exact .pure hs
      | some p =>
        dsimp only
        rw [restored?_eq h hn]
        have hlt : ∀ k ∈ c.restored history n, k < c.size := fun k hk => restored_lt h hr hk
        refine Answers.bind (Answers.foldlM (fun t ht => hadd t (hlt t ht)) hs) fun states hs => ?_
        exact Answers.foldlM (fun t ht states hs =>
          addAncestors?_answers h hadd (hlt t ht) hs) hs
    · have hinserted := hs.insert hn
      dsimp only
      split
      · cases hk : (c.node n).initial with
        | none => exact .pure hinserted
        | some k =>
          have hlt := h.initial n k hk
          exact (hadd k hlt _ hinserted).bind fun _ hs => addAncestors?_answers h hadd hlt hs
      · split
        · exact addMissingRegions?_answers h hadd hn hinserted
        · exact .pure hinserted

theorem addEntries?_answers (hr : c.Recalls history) {t : Nat} (ht : t < c.transitions.size)
    (hs : c.Holds states) :
    c.Answers (c.addEntries? history states t) (c.addEntries history states t) := by
  have hadd := addInside?_answers h hr c.entryBound
  rw [addEntries?, addEntries, domain?_eq h ht]
  cases hd : c.domain t with
  | none => exact .pure hs
  | some domain =>
    have hdomain := domain_lt h hd
    have htargets := h.targets t
    have heffective : ∀ k ∈ (c.transition t).targets.flatMap (c.effectiveTargets history),
        k < c.size := by
      intro k hk
      obtain ⟨n, hn, hk⟩ := List.mem_flatMap.mp hk
      exact effectiveTargets_lt h (htargets n hn) hr hk
    refine Answers.lift (a := some domain) ?_
    dsimp only
    rw [transition?_eq ht, node?_eq hdomain]
    refine Answers.lift (Answers.lift ?_)
    rw [allEffectiveTargets?_eq h htargets]
    refine Answers.lift ?_
    refine Answers.bind (Answers.foldlM (fun n hn => hadd n (htargets n hn)) hs) fun _ hs => ?_
    refine Answers.bind (Answers.foldlM (fun n hn _ hs =>
      addAncestors?_answers h hadd (heffective n hn) hs) hs) fun _ hs => ?_
    split
    · exact addMissingRegions?_answers h hadd hdomain hs
    · exact .pure hs

/-- Entry sets. -/
theorem entrySet?_answers (hr : c.Recalls history) {transitions : List Nat}
    (ht : c.Offers transitions) :
    c.Answers (c.entrySet? history transitions) (c.entrySet history transitions) :=
  Answers.foldlM (fun t hm _ hs => addEntries?_answers h hr (ht t hm) hs)
    fun _ hn => absurd hn NodeSet.mem_empty.mp

theorem initialEntrySet?_answers : c.Answers c.initialEntrySet? c.initialEntrySet :=
  addInside?_answers h (fun _ _ hget => by cases hget) _ _ h.root_lt _
    fun _ hn => absurd hn NodeSet.mem_empty.mp

end Sets

end Statechart.Chart
