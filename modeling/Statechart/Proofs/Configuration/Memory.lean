import Statechart.Execution
import Statechart.Proofs.Configuration.Legal

/-!
# What history states remember

Histories are written when their parents are left, from a legal configuration: the active
children of the parent, or the active leaves inside it. Either way they can be entered again
in place of the history state (`Restores`), and so can the defaults of a well-formed chart.

* `Noted.recordHistory`: a property of all that is remembered survives the notes of a microstep.
* `restores_remembered`: what is noted when a state of a legal configuration is left.
* `Remembers.restorable`: what history states stand for, if all that is remembered was noted
  so.
* `Remembers.recordHistory`: the notes of a microstep.
* `recordHistory_of_no_history`: without history states there are none.
-/
namespace Statechart.Chart

variable {c : Chart} {history : Dict (List Nat)}

/-- All that history states remember has a property, which may depend on their parents. -/
def Noted (c : Chart) (Q : Nat → List Nat → Prop) (history : Dict (List Nat)) : Prop :=
  ∀ n p states, (c.node n).isHistory = true → (c.node n).parent = some p →
    history.get? (c.node n).id = some states → Q p states

/-- All that history states remember can be entered in their place. -/
def Remembers (c : Chart) (history : Dict (List Nat)) : Prop := c.Noted c.Restores history

section Note

variable {Q : Nat → List Nat → Prop}

theorem noted_nil (c : Chart) (Q : Nat → List Nat → Prop) : c.Noted Q [] :=
  fun _ _ _ _ _ hg => by rw [Dict.get?_nil] at hg; cases hg

theorem remembers_nil (c : Chart) : c.Remembers [] := noted_nil c _

variable {names : Names} (h : c.Accepted names)
include h

theorem Noted.insert (hr : c.Noted Q history) {n p : Nat} {states : List Nat}
    (hp : (c.node n).parent = some p) (hs : Q p states) :
    c.Noted Q (history.insert (c.node n).id states) := by
  intro m q found hm hq hg
  by_cases hid : (c.node m).id = (c.node n).id
  · obtain rfl := h.id_injective (lt_size_of_parent hq) (lt_size_of_parent hp) hid
    rw [Dict.get?_insert_self] at hg
    rw [hq] at hp; cases hp; cases hg
    exact hs
  · rw [Dict.get?_insert_of_ne hid] at hg
    exact hr m q found hm hq hg

theorem Noted.recordChildren {configuration : NodeSet} {p : Nat} (hr : c.Noted Q history)
    (hq : ∀ k, (c.node k).parent = some p →
      ∀ mode, Q p (Execution.remembered c configuration p mode)) :
    c.Noted Q (Execution.recordChildren c configuration history p) := by
  unfold Execution.recordChildren
  have hk : ∀ k ∈ (c.node p).children, (c.node k).parent = some p := fun k hk =>
    h.mem_children.mp hk
  generalize (c.node p).children = l at hk
  induction l generalizing history with
  | nil => exact hr
  | cons k l ih =>
    rw [List.foldl_cons]
    refine ih ?_ fun j hj => hk j (by simp [hj])
    have hkp := hk k (by simp)
    split
    · exact hr
    · exact hr.insert h hkp (hq k hkp _)

/-- The notes of a microstep. -/
theorem Noted.recordHistory {C E : Type} {x : Execution C E} {exits : NodeSet}
    (hr : c.Noted Q x.history)
    (hq : ∀ p ∈ exits, ∀ k, (c.node k).parent = some p →
      ∀ mode, Q p (Execution.remembered c x.configuration p mode)) :
    c.Noted Q (Execution.recordHistory c exits x).history := by
  have go : ∀ (l : List Nat), (∀ n ∈ l, n ∈ exits) → ∀ history, c.Noted Q history →
      c.Noted Q (l.foldl (Execution.recordChildren c x.configuration) history) := by
    intro l
    induction l with
    | nil => exact fun _ _ hr => hr
    | cons n l ih =>
      intro hn history hr
      exact ih (fun m hm => hn m (by simp [hm])) _ (hr.recordChildren h (hq n (hn n (by simp))))
  exact go exits.toList (fun _ hn => hn) x.history hr

end Note

section Restore

variable {names : Names} (h : c.Accepted names)
include h

theorem inner_of_parent {n p : Nat} (hp : (c.node n).parent = some p) :
    (c.node p).isCompound = true ∨ (c.node p).isParallel = true := by
  cases hc : (c.node p).isCompound with
  | true => exact .inl rfl
  | false =>
    cases hpar : (c.node p).isParallel with
    | true => exact .inr rfl
    | false =>
      have hk := h.mem_children.mpr hp
      rw [h.children_eq_nil hc hpar] at hk
      exact absurd hk List.not_mem_nil

omit h in
theorem orthogonal_regions (h : c.IsTree) {p a b : Nat} (hp : (c.node p).isParallel = true)
    (ha : a ∈ c.regions p) (hb : b ∈ c.regions p) (hne : a ≠ b) : c.Orthogonal a b := by
  obtain ⟨hap, hah⟩ := (mem_regions h).mp ha
  obtain ⟨hbp, hbh⟩ := (mem_regions h).mp hb
  have hna : ¬ c.Within a b := fun hw => hne (h.siblings hap hbp hw)
  have hnb : ¬ c.Within b a := fun hw => hne (h.siblings hbp hap hw).symm
  unfold Orthogonal
  rw [anchor_of_not_history hah, anchor_of_not_history hbh]
  refine ⟨hna, hnb, ?_⟩
  obtain ⟨hal, hbl, hleast⟩ := leastCommon_spec h (lt_size_of_parent hap) (lt_size_of_parent hbp)
  have hlp := hleast p (.inr (h.isDescendant_of_parent hap)) (.inr (h.isDescendant_of_parent hbp))
  have hpl : c.Within p (c.leastCommon a b) := by
    rcases hal with e | had
    · exact absurd (e ▸ hbl) hnb
    · exact (h.isDescendant_iff_parent hap).mp had
  rw [hlp.antisymm hpl]; exact hp

omit h in
theorem restores_regions (h : c.IsTree) (we : c.Enterable) {p : Nat} (hps : p < c.size)
    (hp : (c.node p).isParallel = true) : c.Restores p (c.regions p) where
  ne_nil := we.regions_ne_nil p hps hp
  inside _ ht := ⟨((mem_regions h).mp ht).2, h.isDescendant_of_parent ((mem_regions h).mp ht).1⟩
  orthogonal := (regions_nodup h p).imp_of_mem fun ha hb hne => orthogonal_regions h hp ha hb hne

omit h in
theorem restores_singleton {p t : Nat} (hh : (c.node t).isHistory = false)
    (hd : c.isDescendant t p = true) : c.Restores p [t] where
  ne_nil := List.cons_ne_nil _ _
  inside k hk := by rw [List.mem_singleton.mp hk]; exact ⟨hh, hd⟩
  orthogonal := List.pairwise_singleton _ _

variable (we : c.Enterable)
include we

theorem restores_historyDefault {n p : Nat} (hp : (c.node n).parent = some p) :
    c.Restores p (c.historyDefault n) := by
  have hn := lt_size_of_parent hp
  have hps := h.parent_lt_size hp
  unfold historyDefault
  split
  · rename_i hne
    refine ⟨fun e => by simp [e] at hne, fun t ht => ?_, we.default_orthogonal n hn⟩
    obtain ⟨hh, q, hq, hd⟩ := we.default_inside n hn t ht
    rw [hp] at hq; cases hq
    exact ⟨hh, hd⟩
  · simp only [hp]
    split
    · rename_i hpar
      exact restores_regions h.toIsTree we hps hpar
    · rename_i hpar
      have hcomp := (inner_of_parent h hp).resolve_right hpar
      obtain ⟨k, hk, hkr⟩ := we.initial p hps hcomp
      rw [hk]
      obtain ⟨hkp, hkh⟩ := (mem_regions h.toIsTree).mp hkr
      exact restores_singleton hkh (h.isDescendant_of_parent hkp)

/-- What history states stand for can be entered, if all that is remembered can. -/
theorem Remembers.restorable (hr : c.Remembers history) : c.Restorable history := by
  intro n p hn hp
  unfold restored
  cases hg : history.get? (c.node n).id with
  | none => exact restores_historyDefault h we hp
  | some states => exact hr n p states hn hp hg

/-- What is noted when an inner state of a legal configuration is left. -/
theorem restores_remembered {configuration : NodeSet} (hl : c.Legal configuration) {p : Nat}
    (hp : p ∈ configuration) (hinner : (c.node p).isCompound = true ∨ (c.node p).isParallel = true)
    (mode : HistoryMode) : c.Restores p (Execution.remembered c configuration p mode) := by
  cases mode with
  | shallow =>
    unfold Execution.remembered
    rcases hinner with hcomp | hpar
    · obtain ⟨k, hk⟩ := hl.child p hp hcomp
      obtain ⟨hkp, hkc⟩ := (mem_activeChildren h.toIsTree).mp (hk ▸ List.mem_singleton.mpr rfl)
      rw [hk]
      exact restores_singleton (hl.not_history k hkc) (h.isDescendant_of_parent hkp)
    · have heq : c.activeChildren p configuration = c.regions p := by
        refine List.filter_congr fun k hk => ?_
        have hkp := h.mem_children.mp hk
        cases hh : (c.node k).isHistory with
        | false =>
          simpa using hl.region p hp hpar k ((mem_regions h.toIsTree).mpr ⟨hkp, hh⟩)
        | true =>
          simp only [Bool.not_true, decide_eq_false_iff_not]
          exact fun hkc => by rw [hl.not_history k hkc] at hh; cases hh
      rw [heq]
      exact restores_regions h.toIsTree we (hl.lt_size p hp) hpar
  | deep =>
    have hmem : ∀ {t}, t ∈ Execution.remembered c configuration p .deep ↔
        (t ∈ configuration ∧ (c.node t).isLeaf = true) ∧ c.isDescendant t p = true := by
      intro t
      simp only [Execution.remembered, activeLeaves, List.mem_filter, NodeSet.mem_def]
    refine ⟨?_, fun t ht => ?_, ?_⟩
    · obtain ⟨leaf, hleaf, hlf, hw⟩ := hl.exists_leaf h.toIsTree we hp
      have hd : c.isDescendant leaf p = true := by
        rcases hw with rfl | hd
        · obtain ⟨hnc, hnp⟩ := Node.not_inner_of_leaf hlf
          rcases hinner with e | e
          · rw [hnc] at e; cases e
          · rw [hnp] at e; cases e
        · exact hd
      exact List.ne_nil_of_mem (hmem.mpr ⟨⟨hleaf, hlf⟩, hd⟩)
    · obtain ⟨⟨htc, -⟩, hd⟩ := hmem.mp ht
      exact ⟨hl.not_history t htc, hd⟩
    · have hnd : (Execution.remembered c configuration p .deep).Pairwise (· ≠ ·) :=
        ((configuration.sorted.imp Nat.ne_of_lt).filter _).filter _
      refine hnd.imp_of_mem fun {a b} ha hb hne => ?_
      obtain ⟨⟨hac, hal⟩, -⟩ := hmem.mp ha
      obtain ⟨⟨hbc, hbl⟩, -⟩ := hmem.mp hb
      exact hl.orthogonal_leaves h hac hbc hal hbl hne

/-- The notes of a microstep. -/
theorem Remembers.recordHistory {C E : Type} {x : Execution C E} (hr : c.Remembers x.history)
    (hl : c.Legal x.configuration) (exits : NodeSet) (hsub : ∀ n ∈ exits, n ∈ x.configuration) :
    c.Remembers (Execution.recordHistory c exits x).history :=
  Noted.recordHistory h hr fun p hp _ hk =>
    restores_remembered h we hl (hsub p hp) (inner_of_parent h hk)

end Restore

/-- Without history states nothing is noted. -/
theorem recordHistory_of_no_history {C E : Type} {names : Names} (h : c.Accepted names)
    (hno : ∀ n, (c.node n).isHistory = false) (exits : NodeSet) (x : Execution C E) :
    Execution.recordHistory c exits x = x := by
  have hnone : ∀ k, (c.node k).history = none := fun k =>
    Option.isNone_iff_eq_none.mp (by simpa [hno] using h.history_isSome k)
  have hchildren : ∀ history p, Execution.recordChildren c x.configuration history p = history := by
    intro history p
    unfold Execution.recordChildren
    induction (c.node p).children with
    | nil => rfl
    | cons k ks ih => rw [List.foldl_cons, hnone k]; exact ih
  have hall : ∀ history,
      exits.toList.foldl (Execution.recordChildren c x.configuration) history = history := by
    induction exits.toList with
    | nil => exact fun _ => rfl
    | cons n ns ih => intro history; rw [List.foldl_cons, hchildren, ih]
  unfold Execution.recordHistory
  rw [hall]

end Statechart.Chart
