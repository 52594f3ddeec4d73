import Statechart.Json.Draft
import Statechart.Json.Render

/-!
# Written text is told apart

A string in quotes is read back together with what follows it, whatever characters it has,
because each of them is written as one piece that stands for it (`readPieces_escape`). So a
written string determines the string and where it ends.

* `readText_writeText`: a written string is read back.
* `writeText_inj`: it determines the string and what follows it.
* `write_append`: a value is written in front of what follows it.
-/
namespace Statechart

namespace Draft

open Json (escape writeText)

theorem unit?_hexDigit :
    ∀ n < 32, unit? '0' '0' (hexDigit (n / 16)) (hexDigit (n % 16)) = some n := by decide

theorem joinPieces_unit {c : Char} (hc : c.toNat < 32) (ps : List Piece) :
    joinPieces (.unit c.toNat :: ps) = (joinPieces ps).map (c :: ·) := by
  have hlow : isLow c.toNat = false := by simp [isLow]; omega
  have hhigh : isHigh c.toNat = false := by simp [isHigh]; omega
  rw [joinPieces.eq_def]
  simp [hlow, hhigh]

/-- A written character is one piece of the string, which stands for it. -/
theorem readPieces_escape (c : Char) :
    ∃ p, (∀ ps rest tail, readPieces rest = some (ps, tail) →
        readPieces (escape c ++ rest) = some (p :: ps, tail)) ∧
      ∀ ps, joinPieces (p :: ps) = (joinPieces ps).map (c :: ·) := by
  unfold escape
  split
  case h_8 _ hquote hslash _ _ _ _ _ =>
    split
    · rename_i hc
      exact ⟨.unit c.toNat, fun ps rest tail h => by
        simp [readPieces, unit?_hexDigit _ hc, h], joinPieces_unit hc⟩
    · rename_i hc
      refine ⟨.char c, fun ps rest tail h => ?_, fun _ => rfl⟩
      have hplain : c ≠ '"' ∧ c ≠ '\\' := ⟨hquote, hslash⟩
      simp [readPieces, hc, h, hplain]
  all_goals
    exact ⟨.char _, fun ps rest tail h => by simp [readPieces, escaped?, h], fun _ => rfl⟩

/-- Written characters in front of a quote are the pieces of their string. -/
theorem readPieces_flatMap (cs rest : List Char) :
    ∃ ps, readPieces (cs.flatMap escape ++ '"' :: rest) = some (ps, rest) ∧
      joinPieces ps = some cs := by
  induction cs with
  | nil => exact ⟨[], by simp [readPieces], rfl⟩
  | cons c cs ih =>
    obtain ⟨ps, hps, hjoin⟩ := ih
    obtain ⟨p, hp, hchar⟩ := readPieces_escape c
    refine ⟨p :: ps, ?_, by rw [hchar, hjoin]; rfl⟩
    rw [List.flatMap_cons, List.append_assoc]
    exact hp _ _ _ hps

/-- A written string is read back, and with it what follows. -/
theorem readText_writeText (s : String) (rest : List Char) :
    ∃ text, writeText s rest = '"' :: text ∧ readText text = some (some s, rest) := by
  obtain ⟨ps, hps, hjoin⟩ := readPieces_flatMap s.toList rest
  refine ⟨_, rfl, ?_⟩
  simp [readText, hps, hjoin]

end Draft

namespace Json

/-- A written string determines the string and what follows it. -/
theorem writeText_inj {s t : String} {rest tail : List Char}
    (h : writeText s rest = writeText t tail) : s = t ∧ rest = tail := by
  obtain ⟨text, hs, hread⟩ := Draft.readText_writeText s rest
  obtain ⟨text', ht, hread'⟩ := Draft.readText_writeText t tail
  obtain rfl : text = text' := by simpa [hs, ht] using h
  simpa [hread] using hread'

theorem writeText_append (s : String) (a b : List Char) :
    writeText s (a ++ b) = writeText s a ++ b := by
  simp [writeText]

mutual

/-- A value is written in front of what follows it. -/
theorem write_append : ∀ (j : Json) (a b : List Char), j.write (a ++ b) = j.write a ++ b
  | .null, a, b => by simp [write]
  | .bool true, a, b => by simp [write]
  | .bool false, a, b => by simp [write]
  | .num n, a, b => by cases n <;> simp [write, writeNumber]
  | .str s, a, b => by rw [write, write, writeText_append]
  | .arr [], a, b => by simp [write]
  | .arr (x :: items), a, b => by
    rw [write, write, ← List.cons_append, writeItems_append, write_append]; rfl
  | .obj [], a, b => by simp [write]
  | .obj ((k, x) :: fields), a, b => by
    rw [write, write, ← List.cons_append, writeFields_append, write_append, ← List.cons_append,
      writeText_append]
    rfl

theorem writeItems_append : ∀ (items : List Json) (a b : List Char),
    writeItems items (a ++ b) = writeItems items a ++ b
  | [], a, b => by simp [writeItems]
  | x :: items, a, b => by rw [writeItems, writeItems, writeItems_append, write_append]; rfl

theorem writeFields_append : ∀ (fields : List (String × Json)) (a b : List Char),
    writeFields fields (a ++ b) = writeFields fields a ++ b
  | [], a, b => by simp [writeFields]
  | (k, x) :: fields, a, b => by
    rw [writeFields, writeFields, writeFields_append, write_append, ← List.cons_append,
      writeText_append]
    rfl

end

theorem toList_render_append (j : Json) (s : String) :
    (j.render ++ s).toList = j.write s.toList := by
  rw [render, String.toList_append, String.toList_ofList, ← write_append, List.nil_append]

end Json

end Statechart
