import Statechart.Proofs.Bounds.Closed
import Statechart.Proofs.Selection
import Statechart.StateValue

/-!
# Questions to a chart, number by number

The questions to a chart are asked here once more, by looking up every state and transition that
they need: the answer is `none` as soon as a number leads out of the tables. A definition is named
after the one that it repeats, with a question mark (`Chart.commonCompound?`, `Chart.isComplete?`,
...). In a closed chart the answers are those of the questions themselves, as long as the numbers
asked about are in the tables.

* `Lookup.filterM_eq`, `Lookup.mapM_eq`, ...: lists of lookups, none of which fails.
* `Lookup.Gives`: lookups in a computation that may fail for reasons of its own.
* `ancestors?_eq`, `isDescendant?_eq`, `commonCompound?_eq`: ancestry.
* `isComplete?_eq`, `StateValue.ofConfiguration?_eq`: configurations.
-/
namespace Statechart

/-! ## Lists of lookups -/

namespace Lookup

variable {α β : Type}

theorem filterM_eq {p? : α → Option Bool} {p : α → Bool} {l : List α}
    (h : ∀ a ∈ l, p? a = some (p a)) : l.filterM p? = some (l.filter p) := by
  have go : ∀ (l acc : List α), (∀ a ∈ l, p? a = some (p a)) →
      l.filterAuxM p? acc = some ((l.filter p).reverse ++ acc) := by
    intro l
    induction l with
    | nil => exact fun _ _ => rfl
    | cons a l ih =>
      intro acc h
      rw [List.filterAuxM, h a List.mem_cons_self]
      have := ih (bif p a then a :: acc else acc) fun b hb => h b (List.mem_cons_of_mem _ hb)
      cases hp : p a <;> simp_all
  rw [List.filterM, go l [] h]
  simp

theorem anyM_eq {p? : α → Option Bool} {p : α → Bool} :
    ∀ {l : List α}, (∀ a ∈ l, p? a = some (p a)) → l.anyM p? = some (l.any p)
  | [], _ => rfl
  | a :: l, h => by
    rw [List.anyM_cons, h a List.mem_cons_self, Option.bind_eq_bind, Option.bind_some,
      anyM_eq fun b hb => h b (List.mem_cons_of_mem _ hb)]
    cases hp : p a <;> simp [hp]

theorem allM_eq {p? : α → Option Bool} {p : α → Bool} :
    ∀ {l : List α}, (∀ a ∈ l, p? a = some (p a)) → l.allM p? = some (l.all p)
  | [], _ => rfl
  | a :: l, h => by
    rw [List.allM_cons, h a List.mem_cons_self, Option.bind_eq_bind, Option.bind_some,
      allM_eq fun b hb => h b (List.mem_cons_of_mem _ hb)]
    cases hp : p a <;> simp [hp]

theorem findM?_eq {p? : α → Option Bool} {p : α → Bool} :
    ∀ {l : List α}, (∀ a ∈ l, p? a = some (p a)) → l.findM? p? = some (l.find? p)
  | [], _ => rfl
  | a :: l, h => by
    rw [List.findM?, h a List.mem_cons_self, Option.bind_eq_bind, Option.bind_some,
      findM?_eq fun b hb => h b (List.mem_cons_of_mem _ hb)]
    cases hp : p a <;> simp [hp]

theorem mapM_eq {f? : α → Option β} {f : α → β} :
    ∀ {l : List α}, (∀ a ∈ l, f? a = some (f a)) → l.mapM f? = some (l.map f)
  | [], _ => rfl
  | a :: l, h => by
    rw [List.mapM_cons, h a List.mem_cons_self,
      mapM_eq fun b hb => h b (List.mem_cons_of_mem _ hb)]
    rfl

/-- Going through a list, where every step keeps what the next one needs. -/
theorem foldlM_eq {f? : β → α → Option β} {f : β → α → β} {P : β → Prop} :
    ∀ {l : List α} {b : β}, (∀ b, P b → ∀ a ∈ l, f? b a = some (f b a) ∧ P (f b a)) → P b →
      l.foldlM f? b = some (l.foldl f b) ∧ P (l.foldl f b)
  | [], b, _, hb => ⟨rfl, hb⟩
  | a :: l, b, h, hb => by
    obtain ⟨hfirst, hkept⟩ := h b hb a List.mem_cons_self
    rw [List.foldlM_cons, hfirst]
    exact foldlM_eq (fun b hb x hx => h b hb x (List.mem_cons_of_mem _ hx)) hkept

/-! What is asked may also fail. -/

section Failing

variable {ε : Type}

theorem lift_bind (a : α) (f : α → ExceptT ε Option β) :
    (liftM (some a) : ExceptT ε Option α) >>= f = f a := rfl

theorem run_bind_eq {x? : ExceptT ε Option α} {x : Except ε α} {f? : α → ExceptT ε Option β}
    {f : α → Except ε β} (hx : x?.run = some x)
    (hf : ∀ a, x = .ok a → (f? a).run = some (f a)) : (x? >>= f?).run = some (x >>= f) := by
  rw [ExceptT.run_bind, hx]
  cases x with
  | error e => rfl
  | ok a => exact hf a rfl

theorem run_mapM_eq {f? : α → ExceptT ε Option β} {f : α → Except ε β} :
    ∀ {l : List α}, (∀ a ∈ l, (f? a).run = some (f a)) → (l.mapM f?).run = some (l.mapM f)
  | [], _ => rfl
  | a :: l, h => by
    rw [List.mapM_cons, List.mapM_cons]
    exact run_bind_eq (h a List.mem_cons_self) fun _ _ =>
      run_bind_eq (run_mapM_eq fun b hb => h b (List.mem_cons_of_mem _ hb)) fun _ _ => rfl

/-- A computation that may fail comes to what it comes to without looking up its numbers, and if
it succeeds, its result has a property. -/
structure Gives (P : α → Prop) (x? : ExceptT ε Option α) (x : Except ε α) : Prop where
  eq : x?.run = some x
  keeps : ∀ a, x = .ok a → P a

namespace Gives

variable {P : α → Prop} {Q : β → Prop} {x? : ExceptT ε Option α} {x : Except ε α}

theorem pure {a : α} (h : P a) : Gives P (pure a) (.ok a : Except ε α) :=
  ⟨rfl, fun _ he => by cases he; exact h⟩

theorem throw {e : ε} : Gives P (throw e) (.error e) := ⟨rfl, nofun⟩

theorem lift {a : β} {f? : β → ExceptT ε Option α} (h : Gives P (f? a) x) :
    Gives P (liftM (some a) >>= f?) x := h

theorem bind {f? : α → ExceptT ε Option β} {f : α → Except ε β} (hx : Gives P x? x)
    (hf : ∀ a, P a → Gives Q (f? a) (f a)) : Gives Q (x? >>= f?) (x >>= f) := by
  refine ⟨run_bind_eq hx.eq fun a ha => (hf a (hx.keeps a ha)).eq, fun b hb => ?_⟩
  obtain ⟨a, ha, hb⟩ := bind_ok.mp hb
  exact (hf a (hx.keeps a ha)).keeps b hb

theorem foldlM {f? : β → α → ExceptT ε Option β} {f : β → α → Except ε β} :
    ∀ {l : List α} {b : β}, (∀ a ∈ l, ∀ b, Q b → Gives Q (f? b a) (f b a)) → Q b →
      Gives Q (l.foldlM f? b) (l.foldlM f b)
  | [], _, _, hb => .pure hb
  | a :: l, b, h, hb => by
    rw [List.foldlM_cons, List.foldlM_cons]
    exact (h a List.mem_cons_self b hb).bind fun _ hb =>
      foldlM (fun x hx => h x (List.mem_cons_of_mem _ hx)) hb

end Gives

end Failing

end Lookup

namespace Chart

variable {c : Chart}

def node? (c : Chart) (n : Nat) : Option Node := c.nodes[n]?

def transition? (c : Chart) (t : Nat) : Option Transition := c.transitions[t]?

theorem node?_eq {n : Nat} (hn : n < c.size) : c.node? n = some (c.node n) := by
  have hn : n < c.nodes.size := hn
  simp [node?, node, hn]

theorem transition?_eq {t : Nat} (ht : t < c.transitions.size) :
    c.transition? t = some (c.transition t) := by
  simp [transition?, transition, ht]

/-! ## Ancestry -/

def climb? (c : Chart) : Nat → Nat → Option (List Nat)
  | 0, _ => some []
  | steps + 1, n => do
    match (← c.node? n).parent with
    | none => return []
    | some p => return p :: (← climb? c steps p)

def ancestors? (c : Chart) (n : Nat) : Option (List Nat) := c.climb? (n + 1) n

def isDescendant? (c : Chart) (n a : Nat) : Option Bool := do
  let _ ← c.node? n
  return a < n && n < (← c.node? a).stop

def ancestorsUntil? (c : Chart) (n : Nat) (stop : Option Nat) : Option (List Nat) := do
  return (← c.ancestors? n).takeWhile fun a => some a != stop

def commonCompound? (c : Chart) : List Nat → Option Nat
  | [] => some root
  | head :: tail => do
    let found ← (← c.ancestors? head).findM? fun a => do
      let inside ← tail.allM fun n => c.isDescendant? n a
      return (← c.node? a).isCompound && inside
    return found.getD root

section Ancestry

variable (h : c.Closed)
include h

theorem climb?_eq : ∀ (steps : Nat) {n : Nat}, n < c.size →
    c.climb? steps n = some (c.climb steps n)
  | 0, _, _ => rfl
  | steps + 1, n, hn => by
    rw [climb?, climb, node?_eq hn, Option.bind_eq_bind, Option.bind_some]
    cases hp : (c.node n).parent with
    | none => rfl
    | some p =>
      dsimp only
      rw [climb?_eq steps (h.parent_lt_size hp)]
      rfl

theorem ancestors?_eq {n : Nat} (hn : n < c.size) : c.ancestors? n = some (c.ancestors n) := by
  rw [ancestors?, climb?_eq h _ hn, climb_of_le h.toIsTree (Nat.le_succ n)]
  rfl

theorem ancestors_lt {n a : Nat} (ha : a ∈ c.ancestors n) : a < c.size :=
  h.lt_size_right ((mem_ancestors h.toIsTree).mp ha)

omit h in
theorem isDescendant?_eq {n a : Nat} (hn : n < c.size) (ha : a < c.size) :
    c.isDescendant? n a = some (c.isDescendant n a) := by
  rw [isDescendant?, node?_eq hn, node?_eq ha]
  rfl

theorem ancestorsUntil?_eq {n : Nat} (hn : n < c.size) (stop : Option Nat) :
    c.ancestorsUntil? n stop = some (c.ancestorsUntil n stop) := by
  rw [ancestorsUntil?, ancestors?_eq h hn]
  rfl

theorem ancestorsUntil_lt {n a : Nat} {stop : Option Nat} (ha : a ∈ c.ancestorsUntil n stop) :
    a < c.size :=
  ancestors_lt h ((List.takeWhile_sublist _).mem ha)

theorem commonCompound?_eq {l : List Nat} (hl : ∀ n ∈ l, n < c.size) :
    c.commonCompound? l = some (c.commonCompound l) := by
  cases l with
  | nil => rfl
  | cons head tail =>
    have htest : ∀ a ∈ c.ancestors head, (do
        let inside ← tail.allM fun n => c.isDescendant? n a
        return (← c.node? a).isCompound && inside : Option Bool) =
        some ((c.node a).isCompound && tail.all fun n => c.isDescendant n a) := by
      intro a ha
      have ha := ancestors_lt h ha
      rw [Lookup.allM_eq fun n hn => isDescendant?_eq (hl n (List.mem_cons_of_mem _ hn)) ha,
        node?_eq ha]
      rfl
    rw [commonCompound?, ancestors?_eq h (hl head List.mem_cons_self), Option.bind_eq_bind,
      Option.bind_some, Lookup.findM?_eq htest]
    rfl

theorem commonCompound_lt (l : List Nat) : c.commonCompound l < c.size := by
  cases l with
  | nil => exact h.root_lt
  | cons head tail =>
    rw [commonCompound]
    cases hf : (c.ancestors head).find? _ with
    | none => exact h.root_lt
    | some a => exact ancestors_lt h (List.mem_of_find?_eq_some hf)

end Ancestry

/-! ## Configurations -/

/-- Every state of a set is one of the chart. -/
def Holds (c : Chart) (states : NodeSet) : Prop := ∀ n ∈ states, n < c.size

def activeLeaves? (c : Chart) (configuration : NodeSet) : Option (List Nat) :=
  configuration.toList.filterM fun n => do return (← c.node? n).isLeaf

def activeChildren? (c : Chart) (parent : Nat) (configuration : NodeSet) : Option (List Nat) := do
  return (← c.node? parent).children.filter fun n => decide (n ∈ configuration)

def regions? (c : Chart) (parent : Nat) : Option (List Nat) := do
  (← c.node? parent).children.filterM fun n => do return !(← c.node? n).isHistory

def isCompleteWithin? (c : Chart) (configuration : NodeSet) : Nat → Nat → Option Bool
  | 0, _ => some false
  | levels + 1, n => do
    match (← c.node? n).kind with
    | .final => return true
    | .compound =>
      (← c.activeChildren? n configuration).anyM fun k => do return (← c.node? k).isFinal
    | .parallel => (← c.regions? n).allM fun k => isCompleteWithin? c configuration levels k
    | .atomic | .history => return false

def isComplete? (c : Chart) (configuration : NodeSet) (n : Nat) : Option Bool :=
  c.isCompleteWithin? configuration (c.size + 1) n

section Configurations

variable {configuration : NodeSet}

theorem activeLeaves?_eq (hc : c.Holds configuration) :
    c.activeLeaves? configuration = some (c.activeLeaves configuration) :=
  Lookup.filterM_eq fun n hn => by rw [node?_eq (hc n hn)]; rfl

theorem activeLeaves_lt (hc : c.Holds configuration) {n : Nat}
    (hn : n ∈ c.activeLeaves configuration) : n < c.size :=
  hc n (List.mem_of_mem_filter hn)

theorem activeChildren?_eq {n : Nat} (hn : n < c.size) :
    c.activeChildren? n configuration = some (c.activeChildren n configuration) := by
  rw [activeChildren?, node?_eq hn]
  rfl

variable (h : c.Closed)
include h

theorem activeChildren_lt {n k : Nat} (hk : k ∈ c.activeChildren n configuration) : k < c.size :=
  h.children n k (List.mem_of_mem_filter hk)

theorem regions?_eq {n : Nat} (hn : n < c.size) : c.regions? n = some (c.regions n) := by
  rw [regions?, node?_eq hn]
  exact Lookup.filterM_eq fun k hk => by rw [node?_eq (h.children n k hk)]; rfl

theorem regions_lt {n k : Nat} (hk : k ∈ c.regions n) : k < c.size :=
  h.children n k (List.mem_of_mem_filter hk)

theorem isCompleteWithin?_eq : ∀ (levels : Nat) {n : Nat}, n < c.size →
    c.isCompleteWithin? configuration levels n = some (c.isCompleteWithin configuration levels n)
  | 0, _, _ => rfl
  | levels + 1, n, hn => by
    rw [isCompleteWithin?, isCompleteWithin, node?_eq hn, Option.bind_eq_bind, Option.bind_some]
    cases (c.node n).kind with
    | final => rfl
    | compound =>
      dsimp only
      rw [activeChildren?_eq hn]
      exact Lookup.anyM_eq fun k hk => by rw [node?_eq (activeChildren_lt h hk)]; rfl
    | parallel =>
      dsimp only
      rw [regions?_eq h hn]
      exact Lookup.allM_eq fun k hk => isCompleteWithin?_eq levels (regions_lt h hk)
    | atomic => rfl
    | history => rfl

theorem isComplete?_eq {n : Nat} (hn : n < c.size) :
    c.isComplete? configuration n = some (c.isComplete configuration n) :=
  isCompleteWithin?_eq h _ hn

end Configurations

end Chart

/-! ## State values -/

namespace StateValue

def ofConfigurationWithin? (c : Chart) (configuration : NodeSet) : Nat → Nat → Option StateValue
  | 0, _ => some (.branch [])
  | levels + 1, n => do
    let active ← c.activeChildren? n configuration
    if (← c.node? n).isParallel then
      return .branch (Dict.ofList (← active.mapM fun k => do
        let node ← c.node? k
        if node.isLeaf then return (node.key, .branch [])
        else return (node.key, ← ofConfigurationWithin? c configuration levels k)))
    else
      match active with
      | [] => return .branch []
      | k :: _ => do
        let node ← c.node? k
        if node.isLeaf then return .leaf node.key
        else return .branch [(node.key, ← ofConfigurationWithin? c configuration levels k)]

def ofConfiguration? (c : Chart) (n : Nat) (configuration : NodeSet) : Option StateValue :=
  ofConfigurationWithin? c configuration (c.size + 1) n

variable {c : Chart} {configuration : NodeSet} (h : c.Closed)
include h

theorem ofConfigurationWithin?_eq : ∀ (levels : Nat) {n : Nat}, n < c.size →
    ofConfigurationWithin? c configuration levels n =
      some (ofConfigurationWithin c configuration levels n)
  | 0, _, _ => rfl
  | levels + 1, n, hn => by
    have hactive : ∀ k ∈ c.activeChildren n configuration, k < c.size :=
      fun k hk => Chart.activeChildren_lt h hk
    have hbelow := fun k hk => ofConfigurationWithin?_eq levels (hactive k hk)
    rw [ofConfigurationWithin?, ofConfigurationWithin, Chart.activeChildren?_eq hn,
      Chart.node?_eq hn]
    simp only [Option.bind_eq_bind, Option.bind_some]
    split
    · rw [Lookup.mapM_eq (f := fun k => ((c.node k).key, if (c.node k).isLeaf then .branch []
          else ofConfigurationWithin c configuration levels k))]
      · rfl
      · intro k hk
        rw [Chart.node?_eq (hactive k hk), hbelow k hk]
        simp only [Option.bind_some, Option.pure_def]
        split <;> rfl
    · cases hchildren : c.activeChildren n configuration with
      | nil => rfl
      | cons k rest =>
        have hk : k ∈ c.activeChildren n configuration := hchildren ▸ List.mem_cons_self
        dsimp only
        rw [Chart.node?_eq (hactive k hk), hbelow k hk]
        simp only [Option.bind_some, Option.pure_def]
        split <;> rfl

theorem ofConfiguration?_eq {n : Nat} (hn : n < c.size) :
    ofConfiguration? c n configuration = some (ofConfiguration c n configuration) :=
  ofConfigurationWithin?_eq h _ hn

end StateValue

end Statechart
