import Statechart.Path

/-!
# Taking paths apart and putting them together

Keys without dots, written with dots between them, are the segments of the path that this gives;
and the segments of any path, written with dots between them, are the path.

* `segments_intercalate`, `intercalate_segments`: the two laws.
* `splitFirst_append`: a path is split at its first dot.
-/
namespace Statechart.Path

theorem pieces_eq_splitOn (cs : List Char) : pieces cs = cs.splitOn '.' := by
  induction cs with
  | nil => rfl
  | cons c cs ih =>
    rw [pieces, ih, List.splitOn_cons_eq_if_modifyHead]
    by_cases h : c = '.'
    · simp [h]
    · simp only [if_neg h, beq_eq_false_iff_ne.mpr h, Bool.false_eq_true, if_false]
      cases hp : cs.splitOn '.' with
      | nil => exact absurd hp (List.splitOn_ne_nil _ _)
      | cons piece more => rfl

theorem segments_ne_nil (cs : List Char) : segments cs ≠ [] := by
  simp [segments, pieces_eq_splitOn]

/-- Keys without dots are the segments of the path that they make. -/
theorem segments_intercalate {keys : List String} (hne : keys ≠ [])
    (hdot : ∀ k ∈ keys, '.' ∉ k.toList) : segments (".".intercalate keys).toList = keys := by
  have hpieces : pieces (".".intercalate keys).toList = keys.map String.toList := by
    rw [pieces_eq_splitOn, String.toList_intercalate]
    exact List.splitOn_intercalate '.' (by simpa using hdot) (by simpa using hne)
  rw [segments, hpieces, List.map_map]
  simp [Function.comp_def]

/-- A path is made of its segments. -/
theorem intercalate_segments (path : String) :
    ".".intercalate (segments path.toList) = path := by
  rw [← String.toList_inj, String.toList_intercalate, segments, List.map_map]
  simp only [Function.comp_def, String.toList_ofList, List.map_id']
  rw [pieces_eq_splitOn]
  exact List.intercalate_splitOn '.'

/-! ## The first dot -/

theorem splitFirst_append {head : List Char} (hdot : '.' ∉ head) (tail : List Char) :
    splitFirst (head ++ '.' :: tail) = some (head, tail) := by
  induction head with
  | nil => simp [splitFirst]
  | cons c head ih =>
    rw [List.mem_cons, not_or] at hdot
    rw [List.cons_append, splitFirst, if_neg (Ne.symm hdot.1), ih hdot.2]
    rfl

theorem append_of_splitFirst : ∀ {cs head tail : List Char},
    splitFirst cs = some (head, tail) → cs = head ++ '.' :: tail
  | [], _, _, h => by cases h
  | c :: rest, _, _, h => by
    rw [splitFirst] at h
    by_cases hc : c = '.'
    · rw [if_pos hc] at h
      cases h
      rw [hc]
      rfl
    · rw [if_neg hc, Option.map_eq_some_iff] at h
      obtain ⟨⟨head, tail⟩, hsplit, h⟩ := h
      cases h
      rw [append_of_splitFirst hsplit]
      rfl

end Statechart.Path
