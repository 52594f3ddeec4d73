import Statechart.Proofs.Binary64.Text
import Statechart.Proofs.Json.Readback

/-!
# Values of one text are equal

The first character of a written value tells its kind, a number ends at the first character that
numerals do not have, and everything else ends with a character of its own. So the text of a
value determines it and what follows it, without being read: floats are in it with as many
digits as tell them apart, and integers of any size.

* `writeNumber_inj`: numbers.
* `write_inj`: every value, with what follows it.
-/
namespace Statechart.Json

open Binary64 (isNumeric isNumeric_of_isDigit)

mutual

/-- Every float of a value is a number of the format. -/
def Representable : Json → Prop
  | .num (.float x) => x.Canonical
  | .arr items => RepresentableItems items
  | .obj fields => RepresentableFields fields
  | _ => True

def RepresentableItems : List Json → Prop
  | [] => True
  | x :: rest => Representable x ∧ RepresentableItems rest

def RepresentableFields : List (String × Json) → Prop
  | [] => True
  | (_, x) :: rest => Representable x ∧ RepresentableFields rest

end

/-! ## Numbers -/

/-- A numeral is at its end in front of such a text. -/
def Stops (rest : List Char) : Prop := ∀ c ∈ rest.head?, isNumeric c = false

theorem stops_nil : Stops [] := fun _ h => nomatch h

theorem stops_cons {c : Char} (hc : isNumeric c = false) (rest : List Char) : Stops (c :: rest) :=
  fun d hd => by cases hd; exact hc

theorem stops_items (items : List Json) (rest : List Char) :
    Stops (writeItems items (']' :: rest)) := by
  cases items <;> exact stops_cons (by decide) _

theorem stops_fields (fields : List (String × Json)) (rest : List Char) :
    Stops (writeFields fields ('\x7d' :: rest)) := by
  cases fields <;> exact stops_cons (by decide) _

theorem numeric_append_inj {a b rest tail : List Char} (ha : ∀ c ∈ a, isNumeric c = true)
    (hb : ∀ c ∈ b, isNumeric c = true) (hrest : Stops rest) (htail : Stops tail)
    (h : a ++ rest = b ++ tail) : a = b ∧ rest = tail := by
  have htake {a rest : List Char} (ha : ∀ c ∈ a, isNumeric c = true) (hrest : Stops rest) :
      (a ++ rest).takeWhile isNumeric = a := by
    rw [List.takeWhile_append_of_pos ha]
    cases rest with
    | nil => simp
    | cons c cs => simp [hrest c rfl]
  have hab : a = b := by rw [← htake ha hrest, h, htake hb htail]
  subst hab
  exact ⟨rfl, List.append_cancel_left h⟩

theorem writeNumber_eq (n : Number) (rest : List Char) :
    writeNumber n rest = writeNumber n [] ++ rest := by
  cases n <;> simp [writeNumber]

theorem mem_writeNumber_int {i : Int} {c : Char} (hc : c ∈ writeNumber (.int i) []) :
    c = '-' ∨ c.isDigit = true := by
  rw [writeNumber, List.append_nil, List.mem_append] at hc
  rcases hc with hc | hc
  · split at hc
    · exact .inl (List.mem_singleton.mp hc)
    · cases hc
  · exact .inr (Nat.isDigit_of_mem_toDigits (by decide) (by decide) hc)

theorem writeNumber_int_inj {i j : Int} (h : writeNumber (.int i) [] = writeNumber (.int j) []) :
    i = j := by
  have hdigit (n : Nat) : '-' ∉ Nat.toDigits 10 n := fun hc => by
    cases Nat.isDigit_of_mem_toDigits (b := 10) (by decide) (by decide) hc
  have hsign {n n' : Nat} (h : Nat.toDigits 10 n = '-' :: Nat.toDigits 10 n') : False :=
    hdigit n (h ▸ List.mem_cons_self)
  have habs {n n' : Nat} (h : Nat.toDigits 10 n = Nat.toDigits 10 n') : n = n' := by
    rw [← Digits.value_toDigits n, h, Digits.value_toDigits]
  simp only [writeNumber, List.append_nil] at h
  split at h <;> split at h
  · have := habs (List.cons.inj h).2
    omega
  · exact (hsign h.symm).elim
  · exact (hsign h).elim
  · have := habs h
    omega

theorem numeric_writeNumber {n : Number} (hn : (num n).Representable) :
    ∀ c ∈ writeNumber n [], isNumeric c = true := by
  intro c hc
  cases n with
  | int i =>
    rcases mem_writeNumber_int hc with rfl | hdigit
    · rfl
    · exact isNumeric_of_isDigit hdigit
  | float x =>
    rw [writeNumber, List.append_nil] at hc
    exact Binary64.numeric_text hn c hc

/-- A written number determines it and where it ends. -/
theorem writeNumber_inj {n n' : Number} {rest tail : List Char}
    (hn : (num n).Representable) (hn' : (num n').Representable) (hrest : Stops rest)
    (htail : Stops tail) (h : writeNumber n rest = writeNumber n' tail) :
    n = n' ∧ rest = tail := by
  have hmarked {i : Int} {x : Binary64} (hx : x.Canonical) :
      writeNumber (.int i) [] ≠ writeNumber (.float x) [] := by
    intro heq
    have htext : x.text = writeNumber (.int i) [] := by rw [heq]; simp [writeNumber]
    have hmark := Binary64.marked_text hx
    rw [htext] at hmark
    rcases hmark with hc | hc <;> rcases mem_writeNumber_int hc with h | h <;> cases h
  rw [writeNumber_eq, writeNumber_eq n'] at h
  obtain ⟨htext, hend⟩ := numeric_append_inj (numeric_writeNumber hn) (numeric_writeNumber hn')
    hrest htail h
  refine ⟨?_, hend⟩
  cases n with
  | int i =>
    cases n' with
    | int j => rw [writeNumber_int_inj htext]
    | float y => exact (hmarked hn' htext).elim
  | float x =>
    cases n' with
    | int j => exact (hmarked hn htext.symm).elim
    | float y =>
      simp only [writeNumber, List.append_nil] at htext
      rw [Binary64.text_inj hn hn' htext]

/-! ## Values -/

/-- What the first character of a written value tells. -/
inductive Kind where
  | null
  | bool (value : Bool)
  | num
  | str
  | arr
  | obj

def kind : Json → Kind
  | .null => .null
  | .bool b => .bool b
  | .num _ => .num
  | .str _ => .str
  | .arr _ => .arr
  | .obj _ => .obj

/-- The kind of the values that begin with a character. -/
def kindOf (c : Char) : Option Kind :=
  if c.isDigit ∨ c = '-' then some .num
  else match c with
    | 'n' => some .null
    | 't' => some (.bool true)
    | 'f' => some (.bool false)
    | '"' => some .str
    | '[' => some .arr
    | '\x7b' => some .obj
    | _ => none

theorem head_write {j : Json} (hj : j.Representable) (rest : List Char) :
    ∃ c cs, j.write rest = c :: cs ∧ kindOf c = some j.kind := by
  cases j with
  | null => exact ⟨_, _, rfl, rfl⟩
  | bool b => cases b <;> exact ⟨_, _, rfl, rfl⟩
  | num n =>
    cases n with
    | int i =>
      obtain ⟨c, cs, hcs, hc⟩ := writeNumber_head i rest
      exact ⟨c, cs, hcs, if_pos hc⟩
    | float x =>
      obtain ⟨c, cs, hcs, hc⟩ := Binary64.head_text hj
      exact ⟨c, cs ++ rest, congrArg (· ++ rest) hcs, if_pos hc⟩
  | str s => exact ⟨_, _, rfl, rfl⟩
  | arr items => cases items <;> exact ⟨_, _, rfl, rfl⟩
  | obj fields => rcases fields with _ | ⟨⟨k, x⟩, fields⟩ <;> exact ⟨_, _, rfl, rfl⟩

theorem write_ne_bracket {j : Json} (hj : j.Representable) (rest tail : List Char) :
    j.write rest ≠ ']' :: tail := by
  obtain ⟨c, cs, hcs, hc⟩ := head_write hj rest
  rw [hcs]
  rintro h
  rw [(List.cons.inj h).1] at hc
  cases hc

theorem kind_eq {i j : Json} (hi : i.Representable) (hj : j.Representable) {rest tail : List Char}
    (h : i.write rest = j.write tail) : i.kind = j.kind := by
  obtain ⟨c, cs, hc, hi⟩ := head_write hi rest
  obtain ⟨d, ds, hd, hj⟩ := head_write hj tail
  rw [hc, hd] at h
  rw [(List.cons.inj h).1, hj] at hi
  exact (Option.some.inj hi).symm

mutual

/-- A written value determines the value and what follows it. -/
theorem write_inj : ∀ (i j : Json) {rest tail : List Char}, i.Representable → j.Representable →
    Stops rest → Stops tail → i.write rest = j.write tail → i = j ∧ rest = tail
  | i, j, rest, tail, hi, hj, hrest, htail, h => match i, j, kind_eq hi hj h with
    | .null, .null, _ => by simpa [write] using h
    | .bool true, .bool true, _ => by simpa [write] using h
    | .bool false, .bool false, _ => by simpa [write] using h
    | .num n, .num n', _ => by
      obtain ⟨rfl, htail⟩ := writeNumber_inj hi hj hrest htail h
      exact ⟨rfl, htail⟩
    | .str s, .str t, _ => by
      obtain ⟨rfl, htail⟩ := writeText_inj h
      exact ⟨rfl, htail⟩
    | .arr [], .arr [], _ => by simpa [write] using h
    | .arr [], .arr (y :: ys), _ =>
      (write_ne_bracket (j := y) hj.1 _ _ (List.cons.inj h).2.symm).elim
    | .arr (x :: xs), .arr [], _ =>
      (write_ne_bracket (j := x) hi.1 _ _ (List.cons.inj h).2).elim
    | .arr (x :: xs), .arr (y :: ys), _ => by
      have hitems : writeItems (x :: xs) (']' :: rest) = writeItems (y :: ys) (']' :: tail) :=
        congrArg (',' :: ·) (List.cons.inj h).2
      obtain ⟨heq, htail⟩ := writeItems_inj (x :: xs) (y :: ys) hi hj hitems
      exact ⟨congrArg arr heq, htail⟩
    | .obj [], .obj [], _ => by simpa [write] using h
    | .obj [], .obj (_ :: _), _ => by simp [write, writeText] at h
    | .obj (_ :: _), .obj [], _ => by simp [write, writeText] at h
    | .obj (x :: xs), .obj (y :: ys), _ => by
      have hfields : writeFields (x :: xs) ('\x7d' :: rest) =
          writeFields (y :: ys) ('\x7d' :: tail) := congrArg (',' :: ·) (List.cons.inj h).2
      obtain ⟨heq, htail⟩ := writeFields_inj (x :: xs) (y :: ys) hi hj hfields
      exact ⟨congrArg obj heq, htail⟩

theorem writeItems_inj : ∀ (xs ys : List Json) {rest tail : List Char}, RepresentableItems xs →
    RepresentableItems ys → writeItems xs (']' :: rest) = writeItems ys (']' :: tail) →
    xs = ys ∧ rest = tail
  | [], [], rest, tail, _, _, h => by simpa [writeItems] using h
  | [], _ :: _, rest, tail, _, _, h => by simp [writeItems] at h
  | _ :: _, [], rest, tail, _, _, h => by simp [writeItems] at h
  | x :: xs, y :: ys, rest, tail, hxs, hys, h => by
    obtain ⟨rfl, hrest⟩ := write_inj x y hxs.1 hys.1 (stops_items xs rest) (stops_items ys tail)
      (List.cons.inj h).2
    obtain ⟨rfl, htail⟩ := writeItems_inj xs ys hxs.2 hys.2 hrest
    exact ⟨rfl, htail⟩

theorem writeFields_inj : ∀ (xs ys : List (String × Json)) {rest tail : List Char},
    RepresentableFields xs → RepresentableFields ys →
    writeFields xs ('\x7d' :: rest) = writeFields ys ('\x7d' :: tail) → xs = ys ∧ rest = tail
  | [], [], rest, tail, _, _, h => by simpa [writeFields] using h
  | [], _ :: _, rest, tail, _, _, h => by simp [writeFields] at h
  | _ :: _, [], rest, tail, _, _, h => by simp [writeFields] at h
  | (k, x) :: xs, (l, y) :: ys, rest, tail, hxs, hys, h => by
    obtain ⟨rfl, hvalue⟩ := writeText_inj (List.cons.inj h).2
    obtain ⟨rfl, hrest⟩ := write_inj x y hxs.1 hys.1 (stops_fields xs rest) (stops_fields ys tail)
      (List.cons.inj hvalue).2
    obtain ⟨rfl, htail⟩ := writeFields_inj xs ys hxs.2 hys.2 hrest
    exact ⟨rfl, htail⟩

end

end Statechart.Json
