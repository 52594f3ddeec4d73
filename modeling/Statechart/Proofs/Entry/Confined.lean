import Statechart.Entry
import Statechart.Proofs.Selection

/-!
# Where entries stay

An entry adds states only below the domain of its transition. A target brings in itself and
what is inside it; a history state brings in states inside its parent, provided that what it
stands for is there (`Confined`). The ancestors that are added lie between a target and the
domain, and the missing regions inside those.

* `addInside_grows`, `addEntries_grows`, `entrySet_grows`: an entry keeps what was in the set
  and adds states from its own part of the tree only.
-/
namespace Statechart

/-- A set keeps its members and gains only such ones. -/
structure Grows (P : Nat → Prop) (s s' : NodeSet) : Prop where
  kept : ∀ n ∈ s, n ∈ s'
  gained : ∀ n ∈ s', n ∈ s ∨ P n

namespace Grows

variable {P Q : Nat → Prop} {s s' s'' : NodeSet}

theorem refl (P : Nat → Prop) (s : NodeSet) : Grows P s s := ⟨fun _ h => h, fun _ h => .inl h⟩

theorem trans (h : Grows P s s') (h' : Grows P s' s'') : Grows P s s'' where
  kept n hn := h'.kept n (h.kept n hn)
  gained n hn := by
    rcases h'.gained n hn with hn | hp
    · exact h.gained n hn
    · exact .inr hp

theorem mono (h : Grows P s s') (hpq : ∀ n, P n → Q n) : Grows Q s s' :=
  ⟨h.kept, fun n hn => (h.gained n hn).imp id (hpq n)⟩

theorem insert {n : Nat} (hn : P n) (s : NodeSet) : Grows P s (s.insert n) where
  kept k hk := NodeSet.mem_insert.mpr (.inr hk)
  gained k hk := by
    rcases NodeSet.mem_insert.mp hk with rfl | hk
    · exact .inr hn
    · exact .inl hk

theorem foldlM {α : Type} {f : NodeSet → α → Option NodeSet} {l : List α}
    (hf : ∀ a ∈ l, ∀ s s', f s a = some s' → Grows P s s') :
    ∀ {s s'}, l.foldlM f s = some s' → Grows P s s' := by
  induction l with
  | nil => intro s s' h; cases h; exact refl P s
  | cons a l ih =>
    intro s s' h
    simp only [List.foldlM_cons, Option.bind_eq_bind, Option.bind_eq_some_iff] at h
    obtain ⟨t, ht, h⟩ := h
    exact (hf a (by simp) s t ht).trans (ih (fun b hb => hf b (by simp [hb])) h)

end Grows

namespace Chart

variable {c : Chart} {history : Dict (List Nat)}

/-- What a target is counted as: a history state as its parent, any other state as itself. -/
def anchor (c : Chart) (n : Nat) : Nat :=
  if (c.node n).isHistory then (c.node n).parent.getD n else n

/-- The states that the entry of `n` may bring in: for a history state those inside its
parent, for any other state itself and those inside it. -/
def Brings (c : Chart) (n x : Nat) : Prop :=
  if (c.node n).isHistory then c.isDescendant x (c.anchor n) = true else c.Within x n

/-- History states stand for states inside their parents. -/
def Confined (c : Chart) (history : Dict (List Nat)) : Prop :=
  ∀ n p, (c.node n).isHistory = true → (c.node n).parent = some p →
    ∀ t ∈ c.restored history n, c.isDescendant t p = true

/-- History states inside `a` stand for states inside their parents. -/
def ConfinedIn (c : Chart) (a : Nat) (history : Dict (List Nat)) : Prop :=
  ∀ n p, c.isDescendant n a = true → (c.node n).isHistory = true → (c.node n).parent = some p →
    ∀ t ∈ c.restored history n, c.isDescendant t p = true

theorem Confined.inside (hr : c.Confined history) (a : Nat) : c.ConfinedIn a history :=
  fun n p _ hn hp => hr n p hn hp

theorem anchor_of_history {n p : Nat} (hn : (c.node n).isHistory = true)
    (hp : (c.node n).parent = some p) : c.anchor n = p := by
  simp [anchor, hn, hp]

theorem anchor_of_not_history {n : Nat} (hn : (c.node n).isHistory = false) : c.anchor n = n := by
  simp [anchor, hn]

theorem brings_of_history {n p x : Nat} (hn : (c.node n).isHistory = true)
    (hp : (c.node n).parent = some p) : c.Brings n x ↔ c.isDescendant x p = true := by
  simp [Brings, hn, anchor_of_history hn hp]

theorem brings_of_not_history {n x : Nat} (hn : (c.node n).isHistory = false) :
    c.Brings n x ↔ c.Within x n := by
  simp [Brings, hn]

theorem Brings.isDescendant (h : c.IsTree) {n a x : Nat} (hb : c.Brings n x)
    (hn : c.isDescendant n a = true) : c.isDescendant x a = true := by
  cases hh : (c.node n).isHistory with
  | false => exact h.within_isDescendant ((brings_of_not_history hh).mp hb) hn
  | true =>
    obtain ⟨p, hp⟩ := h.exists_parent_of_isDescendant hn
    exact h.isDescendant_within ((brings_of_history hh hp).mp hb)
      ((h.isDescendant_iff_parent hp).mp hn)

section Grow

variable {names : Names} (h : c.Accepted names)
include h

theorem addMissingRegions_grows {add : Nat → NodeSet → Option NodeSet} {n : Nat}
    (hadd : ∀ r ∈ c.regions n, ∀ s s', add r s = some s' → Grows (c.Brings r) s s')
    {s s' : NodeSet} (he : c.addMissingRegions add n s = some s') :
    Grows (fun x => ∃ r ∈ c.regions n, c.Within x r) s s' := by
  refine Grows.foldlM (fun r hr s s' he => ?_) he
  split at he
  · cases he; exact .refl _ _
  · exact (hadd r hr s s' he).mono fun x hx =>
      ⟨r, hr, (brings_of_not_history ((mem_regions h.toIsTree).mp hr).2).mp hx⟩

omit h in
theorem isDescendant_of_region (h : c.IsTree) {n x : Nat}
    (hx : ∃ r ∈ c.regions n, c.Within x r) : c.isDescendant x n = true := by
  obtain ⟨r, hr, hx⟩ := hx
  exact h.within_isDescendant hx (h.isDescendant_of_parent ((mem_regions h).mp hr).1)

theorem addAncestors_grows {add : Nat → NodeSet → Option NodeSet} {d n : Nat}
    (hadd : ∀ r, c.isDescendant r d = true → ∀ s s', add r s = some s' → Grows (c.Brings r) s s')
    (hn : c.isDescendant n d = true) {s s' : NodeSet}
    (he : c.addAncestors add d n s = some s') :
    Grows (fun x => c.isDescendant x d = true) s s' := by
  refine Grows.foldlM (fun a ha s s' he => ?_) he
  obtain ⟨-, had⟩ := (mem_ancestorsUntil h.toIsTree hn).mp ha
  have hins := Grows.insert (P := fun x => c.isDescendant x d = true) had s
  dsimp only at he
  split at he
  · have hregion : ∀ r ∈ c.regions a, c.isDescendant r d = true := fun r hr =>
      h.trans (h.isDescendant_of_parent ((mem_regions h.toIsTree).mp hr).1) had
    exact hins.trans ((addMissingRegions_grows h (fun r hr => hadd r (hregion r hr)) he).mono
      fun x hx => h.trans (isDescendant_of_region h.toIsTree hx) had)
  · cases he; exact hins

/-- An entry inside a state adds only what its own state may bring in, if the history states there
are confined. -/
theorem addInside_grows_inside {a : Nat} (ha : (c.node a).isHistory = false)
    (hr : c.ConfinedIn a history) :
    ∀ (calls n : Nat), c.Within n a → ∀ s s', c.addInside history calls n s = some s' →
      Grows (c.Brings n) s s' := by
  intro calls
  induction calls with
  | zero => intro n _ s s' he; cases he
  | succ calls ih =>
    intro n hn s s' he
    simp only [addInside] at he
    cases hh : (c.node n).isHistory with
    | true =>
      obtain ⟨p, hp⟩ := h.exists_parent_of_history hh
      have hna : c.isDescendant n a = true := hn.resolve_left fun e => by simp [← e, hh] at ha
      have hpa : c.Within p a := (h.isDescendant_iff_parent hp).mp hna
      simp only [hh, if_true, hp, Option.bind_eq_bind, Option.bind_eq_some_iff] at he
      obtain ⟨t, ht, he⟩ := he
      have hin := hr n p hna hh hp
      have hinside : ∀ k, c.isDescendant k p = true → c.Within k a := fun k hk =>
        .inr (h.isDescendant_within hk hpa)
      refine Grows.mono (P := fun x => c.isDescendant x p = true) ?_
        fun x hx => (brings_of_history hh hp).mpr hx
      refine (Grows.foldlM (fun k hk s s' he => ?_) ht).trans
        (Grows.foldlM (fun k hk s s' he => ?_) he)
      · exact (ih k (hinside k (hin k hk)) s s' he).mono fun x hx =>
          hx.isDescendant h.toIsTree (hin k hk)
      · exact addAncestors_grows h (fun r hr => ih r (hinside r hr)) (hin k hk) he
    | false =>
      have hinside : ∀ k, c.isDescendant k n = true → c.Within k a := fun k hk =>
        .inr (h.isDescendant_within hk hn)
      refine Grows.mono (P := fun x => c.Within x n) ?_
        fun x hx => (brings_of_not_history hh).mpr hx
      have hins := Grows.insert (P := fun x => c.Within x n) (.refl n) s
      simp only [hh, Bool.false_eq_true, if_false] at he
      refine hins.trans ?_
      split at he
      · cases hi : (c.node n).initial with
        | none => rw [hi] at he; cases he; exact .refl _ _
        | some k =>
          have hkn := h.isDescendant_of_parent (h.parent_of_initial hi)
          simp only [hi, Option.bind_eq_bind, Option.bind_eq_some_iff] at he
          obtain ⟨t, ht, he⟩ := he
          refine ((ih k (hinside k hkn) _ _ ht).mono fun x hx => ?_).trans
            ((addAncestors_grows h (fun r hr => ih r (hinside r hr)) hkn he).mono
              fun x hx => .inr hx)
          exact .inr (hx.isDescendant h.toIsTree hkn)
      · split at he
        · have hregion : ∀ r ∈ c.regions n, c.Within r a := fun r hr =>
            hinside r (h.isDescendant_of_parent ((mem_regions h.toIsTree).mp hr).1)
          exact (addMissingRegions_grows h (fun r hr => ih r (hregion r hr)) he).mono fun x hx =>
            .inr (isDescendant_of_region h.toIsTree hx)
        · cases he; exact .refl _ _

theorem root_not_history : (c.node root).isHistory = false := by
  cases hh : (c.node root).isHistory with
  | false => rfl
  | true =>
    obtain ⟨p, hp⟩ := h.exists_parent_of_history hh
    rw [h.parent_root] at hp; cases hp

/-- An entry adds only what its state may bring in. -/
theorem addInside_grows (hr : c.Confined history) (calls n : Nat) (hn : n < c.size)
    (s s' : NodeSet) (he : c.addInside history calls n s = some s') : Grows (c.Brings n) s s' :=
  addInside_grows_inside h (root_not_history h) (hr.inside root) calls n (h.within_root hn) s s' he

theorem effectiveTargets_isDescendant {n d e : Nat} (hr : c.ConfinedIn d history)
    (hn : c.isDescendant n d = true) (he : e ∈ c.effectiveTargets history n) :
    c.isDescendant e d = true := by
  unfold effectiveTargets at he
  split at he
  · rename_i hh
    obtain ⟨p, hp⟩ := h.exists_parent_of_history hh
    exact h.isDescendant_within (hr n p hn hh hp e he) ((h.isDescendant_iff_parent hp).mp hn)
  · rw [List.mem_singleton.mp he]; exact hn

/-- The states that a transition may bring in: those inside its domain, and the root if that
is its domain and a target. -/
theorem addEntries_grows {t d : Nat} (hr : c.ConfinedIn d history) (hd : c.domain t = some d)
    (hs : (c.transition t).source < c.size) {s s' : NodeSet}
    (he : c.addEntries history s t = some s') :
    Grows (fun x => c.isDescendant x d = true ∨
      x = root ∧ d = root ∧ root ∈ (c.transition t).targets) s s' := by
  obtain ⟨-, hkind, htargets⟩ := domain_spec h.toIsTree hd hs fun n hn => h.target_lt hn
  have hplain : (c.node d).isHistory = false := by
    rcases hkind with hcomp | rfl
    · exact Node.not_history (.inr (.inl hcomp))
    · exact root_not_history h
  have hadd := fun n hn => addInside_grows_inside h hplain hr c.entryBound n hn
  simp only [addEntries, hd, enter, Option.bind_eq_bind, Option.bind_eq_some_iff] at he
  obtain ⟨s1, h1, s2, h2, he⟩ := he
  refine (Grows.foldlM (fun n hn s s' ha => ?_) h1).trans
    ((Grows.foldlM (fun e he s s' ha => ?_) h2).trans ?_)
  · rcases htargets n hn with hnd | ⟨rfl, rfl⟩
    · exact (hadd n (.inr hnd) s s' ha).mono fun x hx => .inl (hx.isDescendant h.toIsTree hnd)
    · refine (hadd root (.refl _) s s' ha).mono fun x hx => ?_
      rcases (brings_of_not_history (root_not_history h)).mp hx with rfl | hx
      · exact .inr ⟨rfl, rfl, hn⟩
      · exact .inl hx
  · obtain ⟨n, hn, hen⟩ := List.mem_flatMap.mp he
    rcases htargets n hn with hnd | ⟨rfl, rfl⟩
    · exact (addAncestors_grows h (fun r hr => hadd r (.inr hr))
        (effectiveTargets_isDescendant h hr hnd hen) ha).mono fun x hx => .inl hx
    · simp only [effectiveTargets, root_not_history h, Bool.false_eq_true, if_false,
        List.mem_singleton] at hen
      subst hen
      rw [addAncestors, ancestorsUntil_of_none h.parent_root] at ha
      cases ha
      exact .refl _ _
  · split at he
    · have hregion : ∀ r ∈ c.regions d, c.isDescendant r d = true := fun r hr =>
        h.isDescendant_of_parent ((mem_regions h.toIsTree).mp hr).1
      exact (addMissingRegions_grows h (fun r hr => hadd r (.inr (hregion r hr))) he).mono
        fun x hx => .inl (isDescendant_of_region h.toIsTree hx)
    · cases he; exact .refl _ _

/-- The states that a set of transitions may bring in. -/
def Entered (c : Chart) (transitions : List Nat) (x : Nat) : Prop :=
  ∃ t ∈ transitions, ∃ d, c.domain t = some d ∧
    (c.isDescendant x d = true ∨ x = root ∧ d = root)

omit h in
theorem Entered.of_cons {t : Nat} {l : List Nat} {x : Nat} (hx : c.Entered l x) :
    c.Entered (t :: l) x := by
  obtain ⟨k, hk, hx⟩ := hx
  exact ⟨k, List.mem_cons_of_mem t hk, hx⟩

/-- What is entered lies inside the domain of a transition, or is the root as its target. -/
theorem mem_entrySet {transitions : List Nat}
    (hr : ∀ t ∈ transitions, ∀ d, c.domain t = some d → c.ConfinedIn d history)
    (hs : ∀ t ∈ transitions, (c.transition t).source < c.size) {entries : NodeSet}
    (he : c.entrySet history transitions = some entries) {x : Nat} (hx : x ∈ entries) :
    ∃ t ∈ transitions, ∃ d, c.domain t = some d ∧
      (c.isDescendant x d = true ∨ x = root ∧ d = root ∧ root ∈ (c.transition t).targets) := by
  have hg : Grows (fun x => ∃ t ∈ transitions, ∃ d, c.domain t = some d ∧
      (c.isDescendant x d = true ∨ x = root ∧ d = root ∧ root ∈ (c.transition t).targets))
      ∅ entries := by
    refine Grows.foldlM (fun t ht s s' he => ?_) he
    cases hd : c.domain t with
    | none => simp only [addEntries, hd] at he; cases he; exact .refl _ _
    | some d => exact (addEntries_grows h (hr t ht d hd) hd (hs t ht) he).mono fun x hx => ⟨t, ht, d, hd, hx⟩
  rcases hg.gained x hx with hm | hx
  · exact absurd hm NodeSet.mem_empty.mp
  · exact hx

theorem entrySet_grows (hr : c.Confined history) {transitions : List Nat}
    (hs : ∀ t ∈ transitions, (c.transition t).source < c.size) {entries : NodeSet}
    (he : c.entrySet history transitions = some entries) : ∀ x ∈ entries, c.Entered transitions x := by
  intro x hx
  obtain ⟨t, ht, d, hd, hx⟩ := mem_entrySet h (fun _ _ d _ => hr.inside d) hs he hx
  exact ⟨t, ht, d, hd, hx.imp id fun ⟨hx, hd, _⟩ => ⟨hx, hd⟩⟩

end Grow

end Chart

end Statechart
