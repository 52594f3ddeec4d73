import Mathlib.Data.List.Sort
import Statechart.Proofs.Configuration.Legal
import Statechart.Proofs.Macrostep.Taken
import Statechart.Proofs.Macrostep.Unchanged

/-!
# The notes of one microstep

When states are left, exactly the history states in them take notes, each of what was active
inside its parent. So what is remembered afterwards does not depend on the order in which the
states are left, nor on whether they are left all at once or in two parts, as long as what is
active inside a state is the same when it is left (`historyAfter_historyAfter`).

* `get?_historyAfter_of_mem`, `get?_historyAfter_of_not_mem`: what is remembered afterwards.
* `Dict.Sorted.ext`: histories are equal if they remember the same.
-/
namespace Statechart

/-- Maps in order are equal if every look-up is. -/
theorem Dict.Sorted.ext {α : Type} {d e : Dict α} (hd : d.Sorted) (he : e.Sorted)
    (h : ∀ name, d.get? name = e.get? name) : d = e := by
  have : Std.Irrefl fun a b : String × α => a.1 < b.1 := ⟨fun a => String.lt_irrefl a.1⟩
  have : Std.Antisymm fun a b : String × α => a.1 < b.1 :=
    ⟨fun a b hab hba => absurd (String.lt_trans hab hba) (String.lt_irrefl a.1)⟩
  refine List.Pairwise.eq_of_mem_iff hd he fun a => ⟨fun ha => ?_, fun ha => ?_⟩
  · exact mem_of_get? (h a.1 ▸ get?_of_mem hd ha)
  · exact mem_of_get? (h a.1 ▸ get?_of_mem he ha)

/-- What one member of a list brings about, and all keep, holds in the end. -/
theorem foldl_of_mem {α β : Type} {f : β → α → β} {P : β → Prop} {a : α}
    (hput : ∀ b, P (f b a)) : ∀ {l : List α}, (∀ x ∈ l, ∀ b, P b → P (f b x)) → a ∈ l →
      ∀ b, P (l.foldl f b)
  | x :: l, hkeep, ha, b => by
    have hkeep' : ∀ y ∈ l, ∀ b, P b → P (f b y) := fun y hy => hkeep y (List.mem_cons_of_mem _ hy)
    rcases List.mem_cons.mp ha with rfl | ha
    · exact List.foldlRecOn l f (hput b) fun b hb y hy => hkeep' y hy b hb
    · exact foldl_of_mem hput hkeep' ha (f b x)

namespace Chart

variable {c : Chart} {configuration other exits first second : NodeSet}
  {history : Dict (List Nat)}

theorem historyAfter_keeps {P : Dict (List Nat) → Prop}
    (hnote : ∀ n ∈ exits, ∀ name ∈ (Phase.exit n).notes c, ∀ history states,
      P history → P (history.insert name states)) (hx : P history) :
    P (c.historyAfter configuration exits history) :=
  Execution.recordHistory_keeps (x := .bare configuration history) hnote hx

theorem sorted_historyAfter (hs : history.Sorted) :
    (c.historyAfter configuration exits history).Sorted :=
  historyAfter_keeps (fun _ _ name _ _ states hs => hs.insert name states) hs

/-- A name of no history state in a state that is left keeps what it had. -/
theorem get?_historyAfter_of_not_noted {name : String}
    (hno : ∀ n ∈ exits, ∀ k ∈ (c.node n).children, (c.node k).history.isSome = true →
      (c.node k).id ≠ name) :
    (c.historyAfter configuration exits history).get? name = history.get? name := by
  refine historyAfter_keeps (P := fun h => h.get? name = history.get? name)
    (fun n hn other hother h states hh => ?_) rfl
  obtain ⟨k, hk, rfl⟩ := List.mem_map.mp hother
  obtain ⟨hk, hsome⟩ := List.mem_filter.mp hk
  rw [Dict.get?_insert_of_ne (hno n hn k hk hsome).symm, hh]

variable {names : Names} (h : c.Accepted names)
include h

/-- A history state in a state that is not left remembers what it did. -/
theorem get?_historyAfter_of_not_mem {n p : Nat} (hp : (c.node n).parent = some p)
    (hexit : p ∉ exits) :
    (c.historyAfter configuration exits history).get? (c.node n).id =
      history.get? (c.node n).id := by
  refine get?_historyAfter_of_not_noted fun q hq k hk _ hid => ?_
  have hkq := h.mem_children.mp hk
  obtain rfl := h.id_injective (lt_size_of_parent hkq) (lt_size_of_parent hp) hid
  rw [hp] at hkq
  cases hkq
  exact hexit hq

section Note

variable {n p : Nat} {mode : HistoryMode} (hp : (c.node n).parent = some p)
  (hm : (c.node n).history = some mode)
include hp hm

/-- One state has the id, and it has one parent: all that is noted under the id is the same. -/
theorem get?_note {k q : Nat} (hk : (c.node k).parent = some q)
    (hh : history.get? (c.node n).id = some (Execution.remembered c configuration p mode)) :
    Dict.get? (match (c.node k).history with
      | none => history
      | some mode => history.insert (c.node k).id (Execution.remembered c configuration q mode))
      (c.node n).id = some (Execution.remembered c configuration p mode) := by
  split
  · exact hh
  · rename_i other hother
    by_cases hid : (c.node n).id = (c.node k).id
    · obtain rfl := h.id_injective (lt_size_of_parent hp) (lt_size_of_parent hk) hid
      rw [hp] at hk
      rw [hm] at hother
      cases hk
      cases hother
      exact Dict.get?_insert_self _ _ _
    · rw [Dict.get?_insert_of_ne hid, hh]

theorem get?_recordChildren (q : Nat)
    (hh : history.get? (c.node n).id = some (Execution.remembered c configuration p mode)) :
    (Execution.recordChildren c configuration history q).get? (c.node n).id =
      some (Execution.remembered c configuration p mode) := by
  unfold Execution.recordChildren
  refine List.foldlRecOn (motive := fun h => Dict.get? h (c.node n).id = some _)
    (c.node q).children _ hh fun history hh k hk => ?_
  exact get?_note h hp hm (h.mem_children.mp hk) hh

theorem get?_recordChildren_self :
    (Execution.recordChildren c configuration history p).get? (c.node n).id =
      some (Execution.remembered c configuration p mode) := by
  refine foldl_of_mem (a := n) (P := fun h => Dict.get? h (c.node n).id = some _) (fun b => ?_)
    (fun k hk b hb => get?_note h hp hm (h.mem_children.mp hk) hb) (h.mem_children.mpr hp) history
  rw [hm]
  exact Dict.get?_insert_self _ _ _

/-- A history state in a state that is left remembers what was active inside of that. -/
theorem get?_historyAfter_of_mem (hexit : p ∈ exits) :
    (c.historyAfter configuration exits history).get? (c.node n).id =
      some (Execution.remembered c configuration p mode) :=
  foldl_of_mem (P := fun h => Dict.get? h (c.node n).id = some _)
    (fun _ => get?_recordChildren_self h hp hm)
    (fun q _ _ hh => get?_recordChildren h hp hm q hh) hexit history

end Note

/-- States can be left in two parts, if what is active inside the second is still the same. -/
theorem historyAfter_historyAfter (hs : history.Sorted)
    (hexits : ∀ n, n ∈ exits ↔ n ∈ first ∨ n ∈ second)
    (hsame : ∀ n ∈ second, ∀ mode,
      Execution.remembered c other n mode = Execution.remembered c configuration n mode) :
    c.historyAfter other second (c.historyAfter configuration first history) =
      c.historyAfter configuration exits history := by
  refine (sorted_historyAfter (sorted_historyAfter hs)).ext (sorted_historyAfter hs) fun name => ?_
  by_cases hnoted : ∃ n ∈ exits, ∃ k ∈ (c.node n).children,
      (c.node k).history.isSome = true ∧ (c.node k).id = name
  · obtain ⟨n, hn, k, hk, hsome, rfl⟩ := hnoted
    have hp := h.mem_children.mp hk
    obtain ⟨mode, hm⟩ := Option.isSome_iff_exists.mp hsome
    rw [get?_historyAfter_of_mem h hp hm hn]
    by_cases hsecond : n ∈ second
    · rw [get?_historyAfter_of_mem h hp hm hsecond, hsame n hsecond]
    · rw [get?_historyAfter_of_not_mem h hp hsecond,
        get?_historyAfter_of_mem h hp hm (((hexits n).mp hn).resolve_right hsecond)]
  · have hno : ∀ n ∈ exits, ∀ k ∈ (c.node n).children, (c.node k).history.isSome = true →
        (c.node k).id ≠ name := fun n hn k hk hsome hid => hnoted ⟨n, hn, k, hk, hsome, hid⟩
    rw [get?_historyAfter_of_not_noted hno,
      get?_historyAfter_of_not_noted fun n hn => hno n ((hexits n).mpr (.inr hn)),
      get?_historyAfter_of_not_noted fun n hn => hno n ((hexits n).mpr (.inl hn))]

omit h in
theorem remembered_congr (h : c.IsTree) {n : Nat}
    (hsame : ∀ x, c.isDescendant x n = true → (x ∈ other ↔ x ∈ configuration))
    (mode : HistoryMode) :
    Execution.remembered c other n mode = Execution.remembered c configuration n mode := by
  cases mode with
  | shallow =>
    refine List.filter_congr fun k hk => ?_
    exact decide_eq_decide.mpr (hsame k (h.isDescendant_of_parent (h.mem_children.mp hk)))
  | deep =>
    have hsets : (other.filter fun x => c.isDescendant x n && (c.node x).isLeaf) =
        configuration.filter fun x => c.isDescendant x n && (c.node x).isLeaf := by
      refine NodeSet.ext fun x => ?_
      rw [NodeSet.mem_filter, NodeSet.mem_filter, Bool.and_eq_true]
      exact and_congr_left fun hx => hsame x hx.1
    unfold Execution.remembered activeLeaves
    rw [List.filter_filter, List.filter_filter]
    exact congrArg NodeSet.toList hsets

end Chart

end Statechart
