import Statechart.Proofs.Entry.Complete

/-!
# What a default entry brings in

A compound state enters its default child by default, a parallel state all its regions, and so
on down (`ByDefault`). If no default child is a history state, that is exactly what the entry
of a state adds to a set that has nothing of it (`mem_addInside`), whatever is remembered. The
way goes down with every call, so there are never more calls open than there are states below
and the entry has a set (`exists_addInside`).
-/
namespace Statechart.Chart

variable {c : Chart} {history : Dict (List Nat)}

/-- The children that a state enters by default. -/
def defaultChildren (c : Chart) (n : Nat) : List Nat :=
  if (c.node n).isCompound then (c.node n).initial.toList
  else if (c.node n).isParallel then c.regions n else []

/-- The states that the default entry of a state brings in. -/
inductive ByDefault (c : Chart) (n : Nat) : Nat → Prop
  | self : ByDefault c n n
  | child {p k : Nat} (hp : ByDefault c n p) (hk : k ∈ c.defaultChildren p) : ByDefault c n k

/-- No default child of a compound state is a history state. -/
def PlainInitials (c : Chart) : Prop :=
  ∀ n < c.size, (c.node n).isCompound = true →
    ∀ k ∈ (c.node n).initial, (c.node k).isHistory = false

instance : Decidable c.PlainInitials :=
  inferInstanceAs (Decidable (∀ n < c.size, _ → ∀ k ∈ (c.node n).initial, _))

/-! ## Default children -/

theorem defaultChildren_of_compound {n : Nat} (hn : (c.node n).isCompound = true) :
    c.defaultChildren n = (c.node n).initial.toList := if_pos hn

theorem defaultChildren_of_parallel {n : Nat} (hn : (c.node n).isParallel = true) :
    c.defaultChildren n = c.regions n := by
  have hc : ¬ (c.node n).isCompound = true := fun hc => by
    rw [Node.not_parallel_of_compound hc] at hn; cases hn
  rw [defaultChildren, if_neg hc, if_pos hn]

theorem defaultChildren_of_leaf {n : Nat} (hn : (c.node n).isLeaf = true) :
    c.defaultChildren n = [] := by
  obtain ⟨hc, hp⟩ := Node.not_inner_of_leaf hn
  rw [defaultChildren, hc, hp]; rfl

theorem byDefault_iff {n x : Nat} :
    c.ByDefault n x ↔ x = n ∨ ∃ k ∈ c.defaultChildren n, c.ByDefault k x := by
  constructor
  · intro hx
    induction hx with
    | self => exact .inl rfl
    | child _ hk ih =>
      rcases ih with rfl | ⟨j, hj, hp⟩
      · exact .inr ⟨_, hk, .self⟩
      · exact .inr ⟨j, hj, hp.child hk⟩
  · rintro (rfl | ⟨k, hk, hx⟩)
    · exact .self
    · induction hx with
      | self => exact .child .self hk
      | child _ hj ih => exact .child ih hj

section Children

variable {names : Names} (h : c.Accepted names)
include h

theorem parent_of_defaultChild {n k : Nat} (hk : k ∈ c.defaultChildren n) :
    (c.node k).parent = some n := by
  unfold defaultChildren at hk
  split at hk
  · exact h.parent_of_initial (Option.mem_toList.mp hk)
  · split at hk
    · exact ((mem_regions h.toIsTree).mp hk).1
    · exact absurd hk List.not_mem_nil

theorem ByDefault.within {n x : Nat} (hx : c.ByDefault n x) : c.Within x n := by
  induction hx with
  | self => exact .refl n
  | child _ hk ih =>
    exact .inr (h.isDescendant_within (h.isDescendant_of_parent (parent_of_defaultChild h hk)) ih)

theorem PlainInitials.not_history (hi : c.PlainInitials) {n k : Nat}
    (hk : k ∈ c.defaultChildren n) : (c.node k).isHistory = false := by
  have hn := h.parent_lt_size (parent_of_defaultChild h hk)
  unfold defaultChildren at hk
  split at hk
  · rename_i hc
    exact hi n hn hc k (Option.mem_toList.mp hk)
  · split at hk
    · exact ((mem_regions h.toIsTree).mp hk).2
    · exact absurd hk List.not_mem_nil

theorem ByDefault.not_history (hi : c.PlainInitials) {n x : Nat} (hx : c.ByDefault n x)
    (hn : (c.node n).isHistory = false) : (c.node x).isHistory = false := by
  cases hx with
  | self => exact hn
  | child _ hk => exact hi.not_history h hk

/-- What is entered by default below a state has its parent entered too. -/
theorem ByDefault.parent {n x p : Nat} (hx : c.ByDefault n x) (hxn : x ≠ n)
    (hp : (c.node x).parent = some p) : c.ByDefault n p ∧ x ∈ c.defaultChildren p := by
  cases hx with
  | self => exact absurd rfl hxn
  | child hq hk =>
    rw [parent_of_defaultChild h hk] at hp
    cases hp
    exact ⟨hq, hk⟩

end Children

/-! ## There is an entry -/

theorem exists_foldlM {α β : Type} {f : β → α → Option β} :
    ∀ {l : List α}, (∀ a ∈ l, ∀ b, ∃ b', f b a = some b') → ∀ b, ∃ b', l.foldlM f b = some b'
  | [], _, b => ⟨b, rfl⟩
  | a :: l, hf, b => by
    obtain ⟨b', hb'⟩ := hf a List.mem_cons_self b
    rw [List.foldlM_cons, hb']
    exact exists_foldlM (fun a ha => hf a (List.mem_cons_of_mem _ ha)) b'

theorem exists_addMissingRegions {add : Nat → NodeSet → Option NodeSet} {n : Nat}
    (hadd : ∀ r ∈ c.regions n, ∀ s, ∃ s', add r s = some s') (s : NodeSet) :
    ∃ s', c.addMissingRegions add n s = some s' := by
  refine exists_foldlM (fun r hr s => ?_) s
  split
  · exact ⟨s, rfl⟩
  · exact hadd r hr s

theorem exists_addAncestors {add : Nat → NodeSet → Option NodeSet}
    (hadd : ∀ n, ∀ r ∈ c.regions n, ∀ s, ∃ s', add r s = some s') (d n : Nat) (s : NodeSet) :
    ∃ s', c.addAncestors add d n s = some s' := by
  refine exists_foldlM (fun a _ s => ?_) s
  dsimp only
  split
  · exact exists_addMissingRegions (hadd a) _
  · exact ⟨_, rfl⟩

section Entry

variable {names : Names} (h : c.Accepted names) (hi : c.PlainInitials)
include h hi

/-- The default entry of a state has a set, with as many calls as there are states behind. -/
theorem exists_addInside : ∀ (calls n : Nat), n < c.size → (c.node n).isHistory = false →
    c.size - n < calls → ∀ s, ∃ s', c.addInside history calls n s = some s' := by
  intro calls
  induction calls with
  | zero => intro n _ _ hcalls; exact absurd hcalls (Nat.not_lt_zero _)
  | succ calls ih =>
    intro n hn hh hcalls s
    have hdown : ∀ k ∈ c.defaultChildren n, ∀ s, ∃ s', c.addInside history calls k s = some s' := by
      intro k hk
      have hp := parent_of_defaultChild h hk
      have := h.parent_lt hp
      exact ih k (lt_size_of_parent hp) (hi.not_history h hk) (by omega)
    simp only [addInside, hh, Bool.false_eq_true, if_false]
    rcases Node.kind_cases hh with hl | hc | hpar
    · rw [(Node.not_inner_of_leaf hl).1, (Node.not_inner_of_leaf hl).2]
      exact ⟨_, rfl⟩
    · rw [if_pos hc]
      rw [defaultChildren_of_compound hc] at hdown
      cases hk : (c.node n).initial with
      | none => exact ⟨_, rfl⟩
      | some k =>
        obtain ⟨t, ht⟩ := hdown k (by simp [hk]) (s.insert n)
        refine ⟨t, ?_⟩
        simp only [ht, addAncestors, ancestorsUntil_of_child h.toIsTree (h.parent_of_initial hk)]
        rfl
    · rw [if_neg (by simp [Node.isCompound, beq_iff_eq.mp hpar]), if_pos hpar]
      rw [defaultChildren_of_parallel hpar] at hdown
      exact exists_addMissingRegions hdown _

end Entry

/-! ## What it is -/

section Members

variable {names : Names} (h : c.Accepted names)
include h

theorem mem_foldlM_regions {add : Nat → NodeSet → Option NodeSet} {n : Nat}
    (hadd : ∀ r ∈ c.regions n, ∀ s s', c.Fresh s r → add r s = some s' →
      ∀ x, x ∈ s' ↔ x ∈ s ∨ c.ByDefault r x) :
    ∀ {l : List Nat}, l.Nodup → (∀ r ∈ l, r ∈ c.regions n) → ∀ {s s' : NodeSet},
      (∀ r ∈ l, c.Fresh s r) →
      l.foldlM (fun s r => if c.covers s r then some s else add r s) s = some s' →
      ∀ x, x ∈ s' ↔ x ∈ s ∨ ∃ r ∈ l, c.ByDefault r x := by
  intro l
  induction l with
  | nil => intro _ _ s s' _ he x; cases he; simp
  | cons r l ih =>
    intro hnd hl s s' hf he x
    obtain ⟨hrl, hnd⟩ := List.nodup_cons.mp hnd
    have hr := hl r (by simp)
    have hcov : c.covers s r = false := by
      rw [← Bool.not_eq_true, covers_iff]
      exact fun ⟨y, hy, hw⟩ => hf r (by simp) y hy hw
    simp only [List.foldlM_cons, hcov, Bool.false_eq_true, if_false, Option.bind_eq_bind,
      Option.bind_eq_some_iff] at he
    obtain ⟨t, ht, he⟩ := he
    have hmem := hadd r hr s t (hf r (by simp)) ht
    -- What was added is inside the first region, hence not in the others.
    have hfresh : ∀ q ∈ l, c.Fresh t q := by
      intro q hq y hy hw
      rcases (hmem y).mp hy with hy | hy
      · exact hf q (by simp [hq]) y hy hw
      · have hqr := h.child_unique ((mem_regions h.toIsTree).mp hr).1
          ((mem_regions h.toIsTree).mp (hl q (by simp [hq]))).1 (hy.within h) hw
        exact hrl (hqr ▸ hq)
    rw [ih hnd (fun q hq => hl q (by simp [hq])) hfresh he x, hmem x, or_assoc,
      List.exists_mem_cons_iff]

/-- The default entry of a state of which the set has nothing adds what is entered by
default, and nothing else. -/
theorem mem_addInside (hi : c.PlainInitials) : ∀ (calls n : Nat),
    (c.node n).isHistory = false → ∀ s s', c.Fresh s n →
      c.addInside history calls n s = some s' → ∀ x, x ∈ s' ↔ x ∈ s ∨ c.ByDefault n x := by
  intro calls
  induction calls with
  | zero => intro n _ s s' _ he; cases he
  | succ calls ih =>
    intro n hh s s' hf he x
    have hnew : ∀ k ∈ c.defaultChildren n, c.Fresh (s.insert n) k := by
      intro k hk y hy hw
      have hkn := h.isDescendant_of_parent (parent_of_defaultChild h hk)
      rcases NodeSet.mem_insert.mp hy with rfl | hy
      · exact not_isDescendant_self (h.within_isDescendant hw hkn)
      · exact hf y hy (.inr (h.within_isDescendant hw hkn))
    have hdown : ∀ k ∈ c.defaultChildren n, ∀ s s', c.Fresh s k →
        c.addInside history calls k s = some s' → ∀ x, x ∈ s' ↔ x ∈ s ∨ c.ByDefault k x :=
      fun k hk => ih k (hi.not_history h hk)
    suffices x ∈ s' ↔ x ∈ s.insert n ∨ ∃ k ∈ c.defaultChildren n, c.ByDefault k x by
      rw [this, NodeSet.mem_insert, byDefault_iff, or_assoc, or_left_comm]
    simp only [addInside, hh, Bool.false_eq_true, if_false] at he
    rcases Node.kind_cases hh with hl | hc | hpar
    · rw [(Node.not_inner_of_leaf hl).1, (Node.not_inner_of_leaf hl).2] at he
      cases he
      simp [defaultChildren_of_leaf hl]
    · rw [defaultChildren_of_compound hc] at hnew hdown ⊢
      rw [if_pos hc] at he
      cases hk : (c.node n).initial with
      | none =>
        rw [hk] at he
        cases he
        simp
      | some k =>
        rw [hk] at hnew hdown
        simp only [hk, Option.bind_eq_bind, Option.bind_eq_some_iff] at he
        obtain ⟨t, ht, he⟩ := he
        rw [addAncestors, ancestorsUntil_of_child h.toIsTree (h.parent_of_initial hk)] at he
        cases he
        rw [hdown k (by simp) _ _ (hnew k (by simp)) ht x]
        simp
    · rw [defaultChildren_of_parallel hpar] at hnew hdown ⊢
      rw [if_neg (by simp [Node.isCompound, beq_iff_eq.mp hpar]), if_pos hpar] at he
      exact mem_foldlM_regions h hdown (regions_nodup h.toIsTree n) (fun _ hr => hr) hnew he x

theorem exists_initialEntrySet (hi : c.PlainInitials) :
    ∃ entries, c.initialEntrySet = some entries ∧ ∀ x, x ∈ entries ↔ c.ByDefault root x := by
  have hbound : c.size - root < c.entryBound := by
    have := Nat.le_mul_of_pos_left (c.size + 1) h.size_pos
    unfold entryBound
    omega
  obtain ⟨entries, he⟩ : ∃ entries, c.initialEntrySet = some entries :=
    exists_addInside h hi c.entryBound root h.root_lt (root_not_history h) hbound ∅
  have hmem := mem_addInside h hi _ root (root_not_history h) ∅ entries
    (fun x hx => absurd hx NodeSet.mem_empty.mp) he
  exact ⟨entries, he, fun x => (hmem x).trans (or_iff_right NodeSet.mem_empty.mp)⟩

end Members

end Statechart.Chart
