import Mathlib.Data.List.Basic
import Mathlib.Data.List.TakeDrop
import Statechart.Json.Decode
import Statechart.Proofs.Json.Text

/-!
# Written values are read back

The compact text of a value is read as the draft of that value, and the draft has that value,
where all numbers are integers with a written form and the fields of all objects are in order
(`Json.Exact`). Text that follows a value must not go on with it, which only a number can
suffer from (`Json.EndsNumber`). The calls that reading takes are bounded by the length of the
text, and so is the nesting that it allows by the depth of the value.

* `Draft.readNumber_writeNumber`: numbers.
* `Draft.readValue_write`: every value, with what follows it.
* `Draft.value?_ofJson`: the value of the draft of a value.
* `Json.ofText?_render`, `Json.render_inj`: the text of a value is read as that value, and
  determines it.
-/
namespace Statechart

/-! ## Digits -/

namespace Digits

theorem value_toDigits (n : Nat) : value (Nat.toDigits 10 n) = n := by
  have h := Nat.ofDigitChars_toDigits (b := 10) (n := n) (by decide) (by decide)
  simpa only [Nat.ofDigitChars, value, Nat.mul_comm] using h

/-- A positive number is not written with a zero in front. -/
theorem head?_toDigits {n : Nat} (hn : 0 < n) : (Nat.toDigits 10 n).head? ≠ some '0' := by
  induction n using Nat.strongRecOn with
  | ind n ih =>
    rw [Nat.toDigits_eq_if (by decide)]
    split
    · rename_i hlt
      have hdigit : ∀ d < 10, 0 < d → Nat.digitChar d ≠ '0' := by decide
      simpa using hdigit n hlt hn
    · rename_i hge
      rw [List.head?_append_of_ne_nil _ Nat.toDigits_ne_nil]
      exact ih (n / 10) (by omega) (by omega)

theorem toDigits_ne_zero_cons {n : Nat} {d : Char} {ds : List Char} :
    Nat.toDigits 10 n ≠ '0' :: d :: ds := by
  intro h
  rcases Nat.eq_zero_or_pos n with rfl | hn
  · simp at h
  · exact head?_toDigits hn (by rw [h]; rfl)

end Digits

namespace Json

/-! ## Values that their text tells in full -/

mutual

/-- No number of a value is a float. -/
def FloatFree : Json → Prop
  | .num (.float _) => False
  | .arr items => FloatFreeItems items
  | .obj fields => FloatFreeFields fields
  | _ => True

def FloatFreeItems : List Json → Prop
  | [] => True
  | x :: rest => FloatFree x ∧ FloatFreeItems rest

def FloatFreeFields : List (String × Json) → Prop
  | [] => True
  | (_, x) :: rest => FloatFree x ∧ FloatFreeFields rest

end

/-- A value that its text tells in full: it is well formed and has no floats. -/
structure Exact (j : Json) : Prop where
  wellFormed : j.WellFormed
  floatFree : j.FloatFree

mutual

/-- Whether a value is well formed is decided part by part. -/
def decWellFormed : (j : Json) → Decidable j.WellFormed
  | .null | .bool _ | .str _ | .num (.float _) => .isTrue trivial
  | .num (.int i) => inferInstanceAs (Decidable (minInt64 ≤ i ∧ i ≤ maxNat64))
  | .arr items => decWellFormedItems items
  | .obj fields =>
    have := decWellFormedFields fields
    inferInstanceAs (Decidable (Dict.Sorted fields ∧ WellFormedFields fields))

def decWellFormedItems : (items : List Json) → Decidable (WellFormedItems items)
  | [] => .isTrue trivial
  | x :: rest =>
    have := decWellFormed x
    have := decWellFormedItems rest
    inferInstanceAs (Decidable (WellFormed x ∧ WellFormedItems rest))

def decWellFormedFields : (fields : List (String × Json)) → Decidable (WellFormedFields fields)
  | [] => .isTrue trivial
  | (_, x) :: rest =>
    have := decWellFormed x
    have := decWellFormedFields rest
    inferInstanceAs (Decidable (WellFormed x ∧ WellFormedFields rest))

end

mutual

/-- Whether a value is without floats is decided part by part. -/
def decFloatFree : (j : Json) → Decidable j.FloatFree
  | .null | .bool _ | .str _ | .num (.int _) => .isTrue trivial
  | .num (.float _) => .isFalse id
  | .arr items => decFloatFreeItems items
  | .obj fields => decFloatFreeFields fields

def decFloatFreeItems : (items : List Json) → Decidable (FloatFreeItems items)
  | [] => .isTrue trivial
  | x :: rest =>
    have := decFloatFree x
    have := decFloatFreeItems rest
    inferInstanceAs (Decidable (FloatFree x ∧ FloatFreeItems rest))

def decFloatFreeFields : (fields : List (String × Json)) → Decidable (FloatFreeFields fields)
  | [] => .isTrue trivial
  | (_, x) :: rest =>
    have := decFloatFree x
    have := decFloatFreeFields rest
    inferInstanceAs (Decidable (FloatFree x ∧ FloatFreeFields rest))

end

instance (j : Json) : Decidable j.Exact :=
  have := decWellFormed j
  have := decFloatFree j
  decidable_of_iff (j.WellFormed ∧ j.FloatFree) ⟨fun h => ⟨h.1, h.2⟩, fun h => ⟨h.1, h.2⟩⟩

/-- A number is at its end in front of such a text. -/
def EndsNumber (rest : List Char) : Prop :=
  ∀ c ∈ rest.head?, c.isDigit = false ∧ c ≠ '.' ∧ c ≠ 'e' ∧ c ≠ 'E'

theorem endsNumber_nil : EndsNumber [] := fun _ h => nomatch h

theorem endsNumber_items (items : List Json) (rest : List Char) :
    EndsNumber (writeItems items (']' :: rest)) := by
  intro c hc
  cases items <;> (obtain rfl : _ = c := by simpa [writeItems] using hc) <;> decide

theorem endsNumber_fields (fields : List (String × Json)) (rest : List Char) :
    EndsNumber (writeFields fields ('\x7d' :: rest)) := by
  intro c hc
  rcases fields with _ | ⟨⟨k, x⟩, fields⟩ <;>
    (obtain rfl : _ = c := by simpa [writeFields] using hc) <;> decide

/-- A number begins with a digit or a minus sign. -/
def BeginsNumber (c : Char) : Prop := c.isDigit = true ∨ c = '-'

theorem BeginsNumber.ne {c d : Char} (h : BeginsNumber c) (hdigit : d.isDigit = false)
    (hminus : d ≠ '-') : c ≠ d := by
  rintro rfl
  exact h.elim (fun hc => by rw [hdigit] at hc; cases hc) hminus

theorem BeginsNumber.not_blank {c : Char} (h : BeginsNumber c) : Draft.isBlank c = false := by
  have hne (d : Char) (hd : d.isDigit = false ∧ d ≠ '-') : c ≠ d := h.ne hd.1 hd.2
  simp [Draft.isBlank, hne]

theorem writeNumber_head (i : Int) (rest : List Char) : ∃ c cs,
    writeNumber (.int i) rest = c :: cs ∧ BeginsNumber c := by
  simp only [writeNumber]
  split
  · exact ⟨_, _, rfl, .inr rfl⟩
  · cases hds : Nat.toDigits 10 i.natAbs with
    | nil => exact absurd hds Nat.toDigits_ne_nil
    | cons d ds =>
      have hd := Nat.isDigit_of_mem_toDigits (b := 10) (by decide) (by decide)
        (hds ▸ List.mem_cons_self : d ∈ Nat.toDigits 10 i.natAbs)
      exact ⟨d, ds ++ rest, rfl, .inl hd⟩

/-- A written value begins with a character that is neither blank nor the end of an array. -/
theorem write_head {j : Json} (hj : j.FloatFree) : ∃ c cs,
    (∀ rest, j.write rest = c :: (cs ++ rest)) ∧ Draft.isBlank c = false ∧ c ≠ ']' := by
  have hhead : ∃ c cs, j.write [] = c :: cs ∧ Draft.isBlank c = false ∧ c ≠ ']' := by
    cases j with
    | null => exact ⟨_, _, rfl, by decide⟩
    | bool b => cases b <;> exact ⟨_, _, rfl, by decide⟩
    | num n =>
      cases n with
      | float x => exact hj.elim
      | int i =>
        obtain ⟨c, cs, hcs, hc⟩ := writeNumber_head i []
        exact ⟨c, cs, hcs, hc.not_blank, hc.ne (by decide) (by decide)⟩
    | str s => exact ⟨_, _, rfl, by decide⟩
    | arr items => cases items <;> exact ⟨_, _, rfl, by decide⟩
    | obj fields => rcases fields with _ | ⟨⟨k, x⟩, fields⟩ <;> exact ⟨_, _, rfl, by decide⟩
  obtain ⟨c, cs, hcs, hc⟩ := hhead
  refine ⟨c, cs, fun rest => ?_, hc⟩
  have happend := write_append j [] rest
  rwa [hcs] at happend

/-! A written value is longer than what follows it: -/

theorem length_lt_write {j : Json} (hj : j.FloatFree) (rest : List Char) :
    rest.length < (j.write rest).length := by
  obtain ⟨c, cs, hcs, -⟩ := write_head hj
  rw [hcs, List.length_cons, List.length_append]
  omega

theorem length_le_writeItems (items : List Json) (rest : List Char) :
    rest.length ≤ (writeItems items rest).length := by
  rw [← List.nil_append rest, writeItems_append]
  simp

theorem length_le_writeFields (fields : List (String × Json)) (rest : List Char) :
    rest.length ≤ (writeFields fields rest).length := by
  rw [← List.nil_append rest, writeFields_append]
  simp

theorem length_lt_writeText (s : String) (rest : List Char) :
    rest.length < (writeText s rest).length := by
  simp [writeText]
  omega

end Json

namespace Draft

open Json (writeNumber writeItems writeFields writeText EndsNumber Exact)

/-! ## Numbers -/

theorem span_toDigits (n : Nat) {rest : List Char} (hrest : EndsNumber rest) :
    (Nat.toDigits 10 n ++ rest).span Char.isDigit = (Nat.toDigits 10 n, rest) := by
  have hall : ∀ c ∈ Nat.toDigits 10 n, c.isDigit = true := fun c hc =>
    Nat.isDigit_of_mem_toDigits (by decide) (by decide) hc
  have hstop : rest.takeWhile Char.isDigit = [] ∧ rest.dropWhile Char.isDigit = rest := by
    cases rest with
    | nil => exact ⟨rfl, rfl⟩
    | cons c cs =>
      have hc := (hrest c rfl).1
      simp [hc]
  rw [List.span_eq_takeWhile_dropWhile, List.takeWhile_append_of_pos hall,
    List.dropWhile_append_of_pos hall, hstop.1, hstop.2, List.append_nil]

/-- Without a point or an exponent a numeral is an integer. -/
theorem readScaled_of_endsNumber (negative : Bool) (whole : List Char) {rest : List Char}
    (hrest : EndsNumber rest) :
    readScaled negative whole rest = some (integer? negative whole, rest) := by
  unfold readScaled
  split
  · exact absurd rfl (hrest '.' rfl).2.1
  · exact absurd rfl (hrest 'e' rfl).2.2.1
  · exact absurd rfl (hrest 'E' rfl).2.2.2
  · rfl

/-- A numeral is its digits, with or without a minus sign in front. -/
theorem readNumber_of_span {text cs rest : List Char} {negative : Bool} {d : Char} {ds : List Char}
    (htext : text = '-' :: cs ∧ negative = true ∨
      text = cs ∧ negative = false ∧ ∀ more, cs ≠ '-' :: more)
    (hspan : cs.span Char.isDigit = (d :: ds, rest))
    (hzero : ∀ c more, d :: ds ≠ '0' :: c :: more) :
    readNumber text = readScaled negative (d :: ds) rest := by
  unfold readNumber
  split
  rename_i sign digits h
  have hcut : sign = negative ∧ digits = cs := by
    rcases htext with ⟨rfl, rfl⟩ | ⟨rfl, rfl, hminus⟩
    · cases h
      exact ⟨rfl, rfl⟩
    · split at h
      · exact absurd rfl (hminus _)
      · cases h
        exact ⟨rfl, rfl⟩
  obtain ⟨rfl, rfl⟩ := hcut
  rw [hspan]
  split
  · rename_i h
    cases h
  · rename_i h
    exact absurd (Prod.mk.inj h).1 (hzero _ _)
  · rename_i h
    rw [← (Prod.mk.inj h).1, ← (Prod.mk.inj h).2]

/-- A written integer is read back with what follows it. -/
theorem readNumber_writeNumber {i : Int} (hi : (Number.int i).InRange) {rest : List Char}
    (hrest : EndsNumber rest) :
    readNumber (writeNumber (.int i) rest) = some (some (.int i), rest) := by
  have hspan := span_toDigits i.natAbs hrest
  have hvalue := Digits.value_toDigits i.natAbs
  obtain ⟨d, ds, hds⟩ := List.exists_cons_of_ne_nil (Nat.toDigits_ne_nil (n := i.natAbs) (b := 10))
  have hzero : ∀ c more, d :: ds ≠ '0' :: c :: more := fun c more h =>
    Digits.toDigits_ne_zero_cons (hds.trans h)
  have hminus : d ≠ '-' := by
    rintro rfl
    cases Nat.isDigit_of_mem_toDigits (b := 10) (by decide) (by decide)
      (hds ▸ List.mem_cons_self : '-' ∈ Nat.toDigits 10 i.natAbs)
  rw [hds] at hspan hvalue
  obtain ⟨hmin, hmax⟩ := hi
  simp only [writeNumber, hds]
  split
  · rename_i hneg
    have hint : integer? true (d :: ds) = some (.int i) := by
      have hi : -(i.natAbs : Int) = i := by omega
      simp only [integer?, hvalue, hi, if_true]
      rw [if_pos ⟨by omega, hmin⟩]
    rw [List.singleton_append, List.cons_append, readNumber_of_span (.inl ⟨rfl, rfl⟩) hspan hzero,
      readScaled_of_endsNumber _ _ hrest, hint]
  · rename_i hneg
    have hint : integer? false (d :: ds) = some (.int i) := by
      have hi : (i.natAbs : Int) = i := by omega
      simp [integer?, hvalue, hi, hmax]
    have hunsigned : ∀ more, d :: ds ++ rest ≠ '-' :: more := fun more h =>
      hminus (List.cons.inj h).1
    rw [List.nil_append, readNumber_of_span (.inr ⟨rfl, rfl, hunsigned⟩) hspan hzero,
      readScaled_of_endsNumber _ _ hrest, hint]

/-! ## Values -/

theorem skipBlanks_cons {c : Char} (hc : isBlank c = false) (cs : List Char) :
    skipBlanks (c :: cs) = c :: cs := by
  simp [skipBlanks, hc]

/-! How reading goes on behind the first character of a value: -/

theorem readValue_quote (fuel : Nat) (cs : List Char) : readValue (fuel + 1) ('"' :: cs) =
    (readText cs).map fun (s, rest) => (.str s, rest) := by
  rw [readValue, skipBlanks_cons (by decide)]
  rfl

theorem readValue_bracket (fuel : Nat) {c : Char} (hblank : isBlank c = false) (hc : c ≠ ']')
    (cs : List Char) : readValue (fuel + 1) ('[' :: c :: cs) =
      (readItems fuel (c :: cs)).map fun (items, rest) => (.arr items, rest) := by
  rw [readValue, skipBlanks_cons (by decide)]
  simp only [skipBlanks_cons hblank]
  split
  · rename_i h
    exact absurd (List.cons.inj h).1 hc
  · rfl

theorem readValue_brace (fuel : Nat) (cs : List Char) : readValue (fuel + 1) ('\x7b' :: '"' :: cs) =
    (readFields fuel ('"' :: cs)).map fun (fields, rest) => (.obj fields, rest) := by
  rw [readValue, skipBlanks_cons (by decide)]
  rfl

theorem readValue_number (fuel : Nat) {c : Char} (hc : Json.BeginsNumber c) (cs : List Char) :
    readValue (fuel + 1) (c :: cs) =
      (readNumber (c :: cs)).map fun (n, rest) => (.num n, rest) := by
  rw [readValue, skipBlanks_cons hc.not_blank]
  split
  -- every other kind of value begins with a character of its own
  case h_7 => rfl
  all_goals
    rename_i h
    exact absurd (List.cons.inj h).1 (hc.ne (by decide) (by decide))

variable {fuel : Nat} {cs more rest : List Char} {draft : Draft} {name : String}

theorem readItems_last (h : readValue fuel cs = some (draft, ']' :: rest)) :
    readItems (fuel + 1) cs = some ([draft], rest) := by
  simp [readItems, h, skipBlanks, isBlank]

theorem readItems_comma {items : List Draft} (h : readValue fuel cs = some (draft, ',' :: more))
    (hmore : readItems fuel more = some (items, rest)) :
    readItems (fuel + 1) cs = some (draft :: items, rest) := by
  simp [readItems, h, hmore, skipBlanks, isBlank]

theorem readFields_last (h : readValue fuel cs = some (draft, '\x7d' :: rest)) :
    readFields (fuel + 1) (writeText name (':' :: cs)) = some ([(some name, draft)], rest) := by
  obtain ⟨text, htext, hread⟩ := readText_writeText name (':' :: cs)
  simp [htext, readFields, hread, h, skipBlanks, isBlank]

theorem readFields_comma {fields : List (Option String × Draft)}
    (h : readValue fuel cs = some (draft, ',' :: more))
    (hmore : readFields fuel more = some (fields, rest)) :
    readFields (fuel + 1) (writeText name (':' :: cs)) =
      some ((some name, draft) :: fields, rest) := by
  obtain ⟨text, htext, hread⟩ := readText_writeText name (':' :: cs)
  simp [htext, readFields, hread, h, hmore, skipBlanks, isBlank]

mutual

/-- A written value is read back with what follows it, in as many calls as twice the length
of its text. -/
theorem readValue_write : ∀ (j : Json) {fuel : Nat} {rest : List Char}, j.Exact →
    EndsNumber rest → 2 * (j.write rest).length ≤ fuel + 2 * rest.length →
    readValue fuel (j.write rest) = some (ofJson j, rest)
  | j, 0, rest, hj, _, hfuel => by
    have := Json.length_lt_write hj.floatFree rest
    omega
  | .null, fuel + 1, rest, _, _, _ => by simp [Json.write, readValue, skipBlanks, isBlank, ofJson]
  | .bool true, fuel + 1, rest, _, _, _ => by
    simp [Json.write, readValue, skipBlanks, isBlank, ofJson]
  | .bool false, fuel + 1, rest, _, _, _ => by
    simp [Json.write, readValue, skipBlanks, isBlank, ofJson]
  | .num (.float _), fuel + 1, rest, hj, _, _ => hj.floatFree.elim
  | .num (.int i), fuel + 1, rest, hj, hrest, _ => by
    obtain ⟨c, cs, hcs, hc⟩ := Json.writeNumber_head i rest
    rw [Json.write, hcs, readValue_number fuel hc, ← hcs,
      readNumber_writeNumber hj.wellFormed hrest]
    rfl
  | .str s, fuel + 1, rest, _, _, _ => by
    obtain ⟨text, htext, hread⟩ := readText_writeText s rest
    rw [Json.write, htext, readValue_quote, hread]
    rfl
  | .arr [], fuel + 1, rest, _, _, _ => by
    simp [Json.write, readValue, skipBlanks, isBlank, ofJson, ofItems]
  | .arr (x :: items), fuel + 1, rest, hj, _, hfuel => by
    obtain ⟨c, cs, hcs, hblank, hc⟩ := Json.write_head (j := x) hj.floatFree.1
    have hitems : readItems fuel (x.write (writeItems items (']' :: rest))) =
        some (ofItems (x :: items), rest) :=
      readItems_write (x :: items) ⟨hj.wellFormed, hj.floatFree⟩ rfl
        (by simp [Json.write] at hfuel; omega)
    rw [hcs] at hitems
    rw [Json.write, hcs, readValue_bracket fuel hblank hc, hitems]
    rfl
  | .obj [], fuel + 1, rest, _, _, _ => by
    simp [Json.write, readValue, skipBlanks, isBlank, ofJson, ofFields]
  | .obj ((k, x) :: fields), fuel + 1, rest, hj, _, hfuel => by
    have hfields : readFields fuel
        (writeText k (':' :: x.write (writeFields fields ('\x7d' :: rest)))) =
          some (ofFields ((k, x) :: fields), rest) :=
      readFields_write ((k, x) :: fields) ⟨hj.wellFormed.2, hj.floatFree⟩ rfl
        (by simp [Json.write] at hfuel; omega)
    obtain ⟨text, htext, -⟩ := readText_writeText k
      (':' :: x.write (writeFields fields ('\x7d' :: rest)))
    rw [htext] at hfields
    rw [Json.write, htext, readValue_brace, hfields]
    rfl

/-- The items of an array are read back; all but the first follow a comma. -/
theorem readItems_write : ∀ (items : List Json) {fuel : Nat} {text rest : List Char},
    Json.WellFormedItems items ∧ Json.FloatFreeItems items →
    writeItems items (']' :: rest) = ',' :: text →
    2 * text.length ≤ fuel + 2 * rest.length → readItems fuel text = some (ofItems items, rest)
  | [], fuel, text, rest, _, htext, _ => by simp [writeItems] at htext
  | x :: items, fuel, text, rest, hitems, htext, hfuel => by
    obtain rfl : _ = text := (List.cons.inj htext).2
    have hx := Json.length_lt_write (j := x) hitems.2.1 (writeItems items (']' :: rest))
    have hrest := Json.length_le_writeItems items (']' :: rest)
    rw [List.length_cons] at hrest
    obtain ⟨fuel, rfl⟩ : ∃ n, fuel = n + 1 := ⟨fuel - 1, by omega⟩
    have hvalue := @readValue_write x fuel _ ⟨hitems.1.1, hitems.2.1⟩
      (Json.endsNumber_items items rest) (by omega)
    cases items with
    | nil => exact readItems_last hvalue
    | cons y items =>
      have hy : (writeItems (y :: items) (']' :: rest)).length =
          (y.write (writeItems items (']' :: rest))).length + 1 := by
        rw [writeItems, List.length_cons]
      have hmore := @readItems_write (y :: items) fuel _ rest
        ⟨hitems.1.2, hitems.2.2⟩ rfl (by omega)
      exact readItems_comma hvalue hmore

/-- The fields of an object are read back; all but the first follow a comma. -/
theorem readFields_write : ∀ (fields : List (String × Json)) {fuel : Nat} {text rest : List Char},
    Json.WellFormedFields fields ∧ Json.FloatFreeFields fields →
    writeFields fields ('\x7d' :: rest) = ',' :: text →
    2 * text.length ≤ fuel + 2 * rest.length → readFields fuel text = some (ofFields fields, rest)
  | [], fuel, text, rest, _, htext, _ => by simp [writeFields] at htext
  | (k, x) :: fields, fuel, text, rest, hfields, htext, hfuel => by
    obtain rfl : _ = text := (List.cons.inj htext).2
    have hk := Json.length_lt_writeText k (':' :: x.write (writeFields fields ('\x7d' :: rest)))
    have hx := Json.length_lt_write (j := x) hfields.2.1 (writeFields fields ('\x7d' :: rest))
    have hrest := Json.length_le_writeFields fields ('\x7d' :: rest)
    rw [List.length_cons] at hk hrest
    obtain ⟨fuel, rfl⟩ : ∃ n, fuel = n + 1 := ⟨fuel - 1, by omega⟩
    have hvalue := @readValue_write x fuel _ ⟨hfields.1.1, hfields.2.1⟩
      (Json.endsNumber_fields fields rest) (by omega)
    cases fields with
    | nil => exact readFields_last hvalue
    | cons field fields =>
      obtain ⟨l, y⟩ := field
      have hy : (writeFields ((l, y) :: fields) ('\x7d' :: rest)).length =
          (writeText l (':' :: y.write (writeFields fields ('\x7d' :: rest)))).length + 1 := by
        rw [writeFields, List.length_cons]
      have hmore := @readFields_write ((l, y) :: fields) fuel _ rest
        ⟨hfields.1.2, hfields.2.2⟩ rfl (by omega)
      exact readFields_comma hvalue hmore

end

theorem ofText?_render {j : Json} (hj : j.Exact) : ofText? j.render = some (ofJson j) := by
  have hread := @readValue_write j (2 * (j.write []).length + 2) [] hj Json.endsNumber_nil (by simp)
  rw [ofText?, Json.render, String.toList_ofList, hread]
  rfl

/-! ## The value of a draft -/

mutual

/-- The draft of a value has that value, if there is room for its depth. -/
theorem value?_ofJson : ∀ (j : Json) {room : Nat}, j.WellFormed → j.depth ≤ room →
    value? room (ofJson j) = some j
  | .null, room, _, _ => by cases room <;> rfl
  | .bool b, room, _, _ => by cases room <;> rfl
  | .num n, room, _, _ => by cases room <;> rfl
  | .str s, room, _, _ => by cases room <;> rfl
  | .arr items, 0, _, hroom => by simp [Json.depth] at hroom
  | .arr items, room + 1, hj, hroom => by
    rw [Json.depth] at hroom
    simp [ofJson, value?, mapM_value?_ofItems items hj (Nat.le_of_succ_le_succ hroom)]
  | .obj fields, 0, _, hroom => by simp [Json.depth] at hroom
  | .obj fields, room + 1, hj, hroom => by
    rw [Json.depth] at hroom
    have hfields := mapM_value?_ofFields fields hj.2 (Nat.le_of_succ_le_succ hroom)
    simp only [ofJson, value?]
    rw [hfields]
    simp [Json.object, Dict.ofList_of_sorted hj.1]

theorem mapM_value?_ofItems : ∀ (items : List Json) {room : Nat}, Json.WellFormedItems items →
    Json.depthItems items ≤ room → (ofItems items).mapM (value? room) = some items
  | [], _, _, _ => rfl
  | x :: items, room, hitems, hroom => by
    rw [Json.depthItems, Nat.max_le] at hroom
    simp [ofItems, value?_ofJson x hitems.1 hroom.1, mapM_value?_ofItems items hitems.2 hroom.2]

theorem mapM_value?_ofFields : ∀ (fields : List (String × Json)) {room : Nat},
    Json.WellFormedFields fields → Json.depthFields fields ≤ room →
    ((ofFields fields).mapM fun (name, d) => do return (← name, ← value? room d) :
      Option (List (String × Json))) = some fields
  | [], _, _, _ => rfl
  | (k, x) :: fields, room, hfields, hroom => by
    rw [Json.depthFields, Nat.max_le] at hroom
    rw [ofFields, List.mapM_cons, mapM_value?_ofFields fields hfields.2 hroom.2]
    simp [value?_ofJson x hfields.1 hroom.1]

end

end Draft

namespace Json

/-- The text of a value is read as that value, if it is not nested too deep. -/
theorem ofText?_render {j : Json} (hj : j.Exact) (hdepth : j.depth ≤ Draft.maxDepth) :
    ofText? j.render = some j := by
  simp [ofText?, Draft.ofText?_render hj, Draft.value?_ofJson j hj.wellFormed hdepth]

/-- The text of a value determines it. -/
theorem render_inj {i j : Json} (hi : i.Exact) (hj : j.Exact) (h : i.render = j.render) :
    i = j := by
  have hdraft : Draft.ofJson i = Draft.ofJson j := Option.some.inj
    ((Draft.ofText?_render hi).symm.trans ((congrArg Draft.ofText? h).trans
      (Draft.ofText?_render hj)))
  -- with room for both, the one draft has one value
  have hvalue := @Draft.value?_ofJson i (max i.depth j.depth) hi.wellFormed (Nat.le_max_left _ _)
  rw [hdraft, Draft.value?_ofJson j hj.wellFormed (Nat.le_max_right _ _)] at hvalue
  exact (Option.some.inj hvalue).symm

end Json

end Statechart
