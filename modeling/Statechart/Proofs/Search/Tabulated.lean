import Mathlib.Data.List.Induction
import Statechart.Proofs.Search.Shortest
import Statechart.Search.Table

/-!
# The table is that of the shortest plans

A list of plans has one table (`Table.of`), and adding a new plan to the table gives the table of
the longer list. While a search works through the plans from some position on, its frontier has
all positions from there on (`Table.work`), so the search that keeps a table does to it what the
other does to the list.

* `Table.get?_of`: where fingerprints are those of one plan each, plans are looked up with them.
* `shortestTable_eq`: the search that keeps a table comes to the table of the shortest plans.
-/
namespace Statechart.Search

variable {C E A : Type} [BEq C] {m : Machine C E A} {o : SearchOptions C} {p : Plan C}

/-! ## The table of a list of plans -/

namespace Table

def of (plans : List (Plan C)) : Table C where
  plans
  index := plans.zipIdx.foldl (fun d e => d.insert e.1.fingerprint e.2) []

omit [BEq C] in
theorem index_of_append (plans : List (Plan C)) (p : Plan C) :
    (of (plans ++ [p])).index = (of plans).index.insert p.fingerprint plans.length := by
  simp [of, List.zipIdx_append]

omit [BEq C] in
theorem contains_of (plans : List (Plan C)) (f : String) :
    (of plans).contains f = Plan.reaches plans f := by
  induction plans using List.reverseRecOn with
  | nil => rfl
  | append_singleton plans p ih =>
    rw [contains, Dict.contains] at ih ⊢
    rw [index_of_append, Plan.reaches, List.any_append, ← Plan.reaches, ← ih]
    by_cases hf : f = p.fingerprint
    · subst hf
      simp
    · rw [Dict.get?_insert_of_ne hf]
      simp [Ne.symm hf]

omit [BEq C] in
theorem insert_of {plans : List (Plan C)} (h : Plan.reaches plans p.fingerprint = false) :
    (of plans).insert p = of (plans ++ [p]) := by
  rw [insert, contains_of, h, if_neg Bool.false_ne_true]
  exact congrArg (Table.mk _) (index_of_append plans p).symm

omit [BEq C] in
theorem get?_index_of {plans : List (Plan C)} (h : (plans.map Plan.fingerprint).Nodup) {f : String}
    {i : Nat} :
    (of plans).index.get? f = some i ↔ ∃ p, plans[i]? = some p ∧ p.fingerprint = f := by
  induction plans using List.reverseRecOn with
  | nil => simp [of]
  | append_singleton plans p ih =>
    rw [List.map_append, List.nodup_append] at h
    rw [index_of_append]
    by_cases hf : f = p.fingerprint
    · rw [hf, Dict.get?_insert_self, Option.some.injEq]
      constructor
      · rintro rfl
        exact ⟨p, List.getElem?_concat_length, rfl⟩
      · rintro ⟨q, hq, hqp⟩
        rcases Nat.lt_trichotomy i plans.length with hlt | heq | hgt
        · -- No plan before has the fingerprint.
          rw [List.getElem?_append_left hlt] at hq
          exact absurd hqp (h.2.2 _ (List.mem_map_of_mem (List.mem_of_getElem? hq)) _ (by simp))
        · exact heq.symm
        · simp [List.getElem?_eq_none (l := plans ++ [p]) (i := i) (by simp; omega)] at hq
    · rw [Dict.get?_insert_of_ne hf, ih h.1]
      refine exists_congr fun q => and_congr_left fun hq => ?_
      rcases Nat.lt_or_ge i plans.length with hlt | hge
      · rw [List.getElem?_append_left hlt]
      · rw [List.getElem?_eq_none hge, List.getElem?_append_right hge, List.getElem?_singleton]
        refine iff_of_false (by simp) fun hp => ?_
        split at hp
        · exact hf (Option.some.inj hp ▸ hq.symm)
        · simp at hp

omit [BEq C] in
/-- A plan is looked up with its fingerprint, where fingerprints are those of one plan each. -/
theorem get?_of {plans : List (Plan C)} (h : (plans.map Plan.fingerprint).Nodup) {f : String} :
    (of plans).get? f = some p ↔ p ∈ plans ∧ p.fingerprint = f := by
  rw [get?, Option.bind_eq_bind, Option.bind_eq_some_iff]
  constructor
  · rintro ⟨i, hi, hp⟩
    obtain ⟨q, hq, hf⟩ := (get?_index_of h).mp hi
    obtain rfl := Option.some.inj (hq.symm.trans hp)
    exact ⟨List.mem_of_getElem? hp, hf⟩
  · rintro ⟨hp, hf⟩
    obtain ⟨i, hi⟩ := List.getElem?_of_mem hp
    exact ⟨i, (get?_index_of h).mpr ⟨p, hi, hf⟩, hi⟩

/-- The table of a list of plans, and a frontier that has all positions from a given one on. -/
def work (position : Nat) (plans : List (Plan C)) : Table C × List Nat :=
  (of plans, List.range' position (plans.length - position))

omit [BEq C] in
theorem work_append {position : Nat} {plans : List (Plan C)} (h : position ≤ plans.length)
    (p : Plan C) :
    work position (plans ++ [p]) =
      (of (plans ++ [p]), List.range' position (plans.length - position) ++ [plans.length]) := by
  rw [work, List.length_append, List.length_singleton, Nat.succ_sub h, List.range'_concat,
    Nat.one_mul, Nat.add_sub_cancel' h]

end Table

/-! ## The search -/

omit [BEq C] in
theorem bind_congr_run {α β : Type} {x : Search α} {f g : α → Search β}
    (h : ∀ a, x.run = some (.ok a) → f a = g a) : x >>= f = x >>= g := by
  refine ExceptT.ext ?_
  rw [ExceptT.run_bind, ExceptT.run_bind]
  rcases hx : x.run with _ | _ | a
  · rfl
  · rfl
  · exact congrArg ExceptT.run (h a hx)

open Table

theorem tabulateEvent_work {position : Nat} {plans : List (Plan C)} (h : position ≤ plans.length)
    (event : Event) :
    tabulateEvent m o p (work position plans) event =
      work position <$> tryEvent m o p plans event := by
  rw [tabulateEvent, tryEvent, map_bind]
  congr 1
  funext t
  simp only [work, contains_of]
  cases hr : Plan.reaches plans (o.snapshotFingerprint t) with
  | true => simp [work]
  | false =>
    have hlength : ∀ q, (of (plans ++ [q])).plans.length - 1 = plans.length := by simp [of]
    rw [insert_of (p := p.extend event t (o.snapshotFingerprint t)) hr]
    simp only [Bool.false_eq_true, if_false, hlength, map_bind, map_pure, work_append h]
    rfl

theorem tabulateAll_work {position : Nat} {events : List (String × Event)} {plans : List (Plan C)}
    (h : position ≤ plans.length) :
    events.foldlM (fun work e => tabulateEvent m o p work e.2) (work position plans) =
      work position <$> events.foldlM (fun plans e => tryEvent m o p plans e.2) plans := by
  induction events generalizing plans with
  | nil => simp
  | cons e events ih =>
    rw [List.foldlM_cons, List.foldlM_cons, tabulateEvent_work h, bind_map_left, map_bind]
    exact bind_congr_run fun next hnext => ih (h.trans (prefix_of_tryEvent hnext).length_le)

theorem tabulateFrom_work {fuel position : Nat} {plans : List (Plan C)}
    (h : position ≤ plans.length) :
    tabulateFrom m o fuel (work position plans) = of <$> shortestFrom m o fuel position plans := by
  induction fuel generalizing position plans with
  | zero => rfl
  | succ fuel ih =>
    rcases h.lt_or_eq with hlt | rfl
    · have hwork : work position plans =
          (of plans, position :: List.range' (position + 1) (plans.length - (position + 1))) := by
        rw [work, ← List.range'_succ, ← Nat.sub_sub, Nat.sub_add_cancel (Nat.sub_pos_of_lt hlt)]
      have hplans : plans[position]? = some plans[position] := List.getElem?_eq_getElem hlt
      rw [hwork, tabulateFrom, shortestFrom, of, hplans]
      dsimp only
      rw [← of, ← work, tabulateAll_work hlt, bind_map_left, map_bind]
      exact bind_congr_run fun next hnext => ih (hlt.trans_le (prefix_of_tryAll hnext).length_le)
    · rw [work, Nat.sub_self, List.range'_zero, tabulateFrom, shortestFrom,
        List.getElem?_eq_none le_rfl]
      rfl

/-- The table of the shortest plans has the shortest plans. -/
theorem shortestTable_eq (m : Machine C E A) (o : SearchOptions C) (fuel : Nat) :
    shortestTable m o fuel = of <$> shortest m o fuel := by
  rw [shortestTable, shortest, map_bind]
  congr 1
  funext first
  have hfirst : 0 ≤ [first].length := Nat.zero_le 1
  exact tabulateFrom_work hfirst

end Statechart.Search
