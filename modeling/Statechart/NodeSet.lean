/-!
# Finite sets of states

States are numbered in document order, and a set of them is kept as its strictly ascending
list. Ascending order is document order, so every walk over a set is a walk over the
document, and two sets with the same members are equal.

* `mem_insert`, `mem_filter`, `mem_ofList`: what each operation does to membership.
* `ext`: sets with the same members are equal.
-/
namespace Statechart

/-- A finite set of states, listed in document order. -/
structure NodeSet where
  /-- The members, ascending. -/
  toList : List Nat
  /-- Every member comes before the ones listed after it. -/
  sorted : toList.Pairwise (· < ·)
deriving DecidableEq, Repr

namespace NodeSet

/-- Puts `n` at its place in an ascending list. -/
def place (n : Nat) : List Nat → List Nat
  | [] => [n]
  | m :: rest => if n < m then n :: m :: rest else if n = m then m :: rest else m :: place n rest

theorem mem_place {n k : Nat} {l : List Nat} : k ∈ place n l ↔ k = n ∨ k ∈ l := by
  induction l with
  | nil => simp [place]
  | cons m rest ih =>
    unfold place
    split
    · simp
    · split
      · next h => subst h; simp
      · simp [ih]; grind

theorem place_pairwise {n : Nat} {l : List Nat} (h : l.Pairwise (· < ·)) :
    (place n l).Pairwise (· < ·) := by
  induction l with
  | nil => simp [place]
  | cons m rest ih =>
    obtain ⟨hm, hr⟩ := List.pairwise_cons.mp h
    unfold place
    split
    · next hlt => exact List.pairwise_cons.mpr ⟨fun k hk => by
        rcases List.mem_cons.mp hk with rfl | hk
        · exact hlt
        · exact Nat.lt_trans hlt (hm k hk), h⟩
    · split
      · exact h
      · refine List.pairwise_cons.mpr ⟨fun k hk => ?_, ih hr⟩
        rcases mem_place.mp hk with rfl | hk
        · omega
        · exact hm k hk

def empty : NodeSet := ⟨[], .nil⟩

instance : EmptyCollection NodeSet := ⟨empty⟩

instance : Inhabited NodeSet := ⟨empty⟩

instance : Membership Nat NodeSet := ⟨fun s n => n ∈ s.toList⟩

theorem mem_def {n : Nat} {s : NodeSet} : n ∈ s ↔ n ∈ s.toList := Iff.rfl

instance (n : Nat) (s : NodeSet) : Decidable (n ∈ s) :=
  inferInstanceAs (Decidable (n ∈ s.toList))

def insert (n : Nat) (s : NodeSet) : NodeSet := ⟨place n s.toList, place_pairwise s.sorted⟩

def filter (p : Nat → Bool) (s : NodeSet) : NodeSet := ⟨s.toList.filter p, s.sorted.filter p⟩

def erase (n : Nat) (s : NodeSet) : NodeSet := s.filter (· != n)

def ofList (l : List Nat) : NodeSet := l.foldr insert empty

def any (s : NodeSet) (p : Nat → Bool) : Bool := s.toList.any p

def isEmpty (s : NodeSet) : Bool := s.toList.isEmpty

def size (s : NodeSet) : Nat := s.toList.length

def disjoint (s t : NodeSet) : Bool := !s.any (fun n => decide (n ∈ t))

@[simp] theorem mem_empty {n : Nat} : n ∈ (∅ : NodeSet) ↔ False := by
  simp [mem_def, EmptyCollection.emptyCollection, empty]

@[simp] theorem mem_insert {n k : Nat} {s : NodeSet} : k ∈ s.insert n ↔ k = n ∨ k ∈ s := mem_place

@[simp] theorem mem_filter {k : Nat} {p : Nat → Bool} {s : NodeSet} :
    k ∈ s.filter p ↔ k ∈ s ∧ p k = true := List.mem_filter

@[simp] theorem mem_erase {n k : Nat} {s : NodeSet} : k ∈ s.erase n ↔ k ∈ s ∧ k ≠ n := by
  simp [erase]

@[simp] theorem mem_ofList {k : Nat} {l : List Nat} : k ∈ ofList l ↔ k ∈ l := by
  induction l with
  | nil => exact (mem_empty (n := k)).trans (by simp)
  | cons a rest ih => simpa [ofList] using or_congr_right ih

/-- Sets with the same members are equal. -/
theorem ext {s t : NodeSet} (h : ∀ n, n ∈ s ↔ n ∈ t) : s = t := by
  obtain ⟨l, hl⟩ := s
  obtain ⟨m, hm⟩ := t
  simp only [mem_def] at h
  congr
  induction l generalizing m with
  | nil => cases m with
    | nil => rfl
    | cons b _ => exact absurd ((h b).mpr (by simp)) (by simp)
  | cons a l ih => cases m with
    | nil => exact absurd ((h a).mp (by simp)) (by simp)
    | cons b m =>
      obtain ⟨ha, hl'⟩ := List.pairwise_cons.mp hl
      obtain ⟨hb, hm'⟩ := List.pairwise_cons.mp hm
      have hab : a = b := by
        rcases List.mem_cons.mp ((h a).mp (by simp)) with e | e
        · exact e
        · rcases List.mem_cons.mp ((h b).mpr (by simp)) with e' | e'
          · exact e'.symm
          · exact absurd (hb a e) (by have := ha b e'; omega)
      subst hab
      congr 1
      refine ih hl' m hm' fun n => ⟨fun hn => ?_, fun hn => ?_⟩
      · rcases List.mem_cons.mp ((h n).mp (by simp [hn])) with e | e
        · exact absurd (ha n hn) (by omega)
        · exact e
      · rcases List.mem_cons.mp ((h n).mpr (by simp [hn])) with e | e
        · exact absurd (hb n hn) (by omega)
        · exact e

theorem disjoint_iff {s t : NodeSet} : s.disjoint t = true ↔ ∀ n, n ∈ s → n ∉ t := by
  simp [disjoint, any, mem_def]

end NodeSet

end Statechart
