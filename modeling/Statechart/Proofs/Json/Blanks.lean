import Statechart.Proofs.Json.Distinct

/-!
# Blanks in a compact text

A compact text has blanks in its strings only. So of a text with a blank and a written value
behind it, the place of that blank is known: a value that began earlier would have the blank in
one of its strings, and the quotes behind it would open strings where the later value closes
them, and close them where that opens them.

* `scan_write`: a written value begins and ends outside of strings.
* `scan_apart`: who begins inside of a string and who begins outside never agree.
* `eq_of_blank`: what stands before a blank and a written value.
-/
namespace Statechart.Json

open Binary64 (isNumeric)

/-- Where in a text a reader is: outside of strings, inside of one, or behind a backslash. -/
inductive Place where
  | outside
  | inside
  | escaped
deriving DecidableEq

/-- Where the reader is after a character; nowhere, if no compact text has it there. -/
def Place.next : Place → Char → Option Place
  | .outside, c =>
    if c = '"' then some .inside else if c = '\\' ∨ c = ' ' then none else some .outside
  | .inside, c => some (if c = '"' then .outside else if c = '\\' then .escaped else .inside)
  | .escaped, c => if c = ' ' then none else some .inside

/-- Where the reader is after a text. -/
def scan (p : Place) (cs : List Char) : Option Place := cs.foldlM Place.next p

theorem scan_cons (p : Place) (c : Char) (cs : List Char) :
    scan p (c :: cs) = (p.next c).bind fun q => scan q cs := List.foldlM_cons

theorem scan_append (p : Place) (a b : List Char) :
    scan p (a ++ b) = (scan p a).bind fun q => scan q b := List.foldlM_append

/-- Who begins outside of strings and who begins inside of one are at different places after
any text. -/
theorem scan_apart : ∀ {cs : List Char} {p q : Place}, scan .outside cs = some p →
    scan .inside cs = some q → p ≠ q
  | [], p, q, hp, hq => by cases hp; cases hq; decide
  | c :: cs, p, q, hp, hq => by
    rw [scan_cons] at hp hq
    by_cases hquote : c = '"'
    · subst hquote
      exact (scan_apart hq hp).symm
    · by_cases hplain : c = '\\' ∨ c = ' '
      · simp [Place.next, hquote, hplain] at hp
      · obtain ⟨hslash, hblank⟩ := not_or.mp hplain
        simp only [Place.next, if_neg hquote, if_neg hplain, if_neg hslash,
          Option.bind_some] at hp hq
        exact scan_apart hp hq

theorem scan_outside {cs : List Char} (hcs : ∀ c ∈ cs, c ≠ '"' ∧ c ≠ '\\' ∧ c ≠ ' ')
    (rest : List Char) : scan .outside (cs ++ rest) = scan .outside rest := by
  induction cs with
  | nil => rfl
  | cons c cs ih =>
    obtain ⟨⟨hquote, hslash, hblank⟩, hcs⟩ := List.forall_mem_cons.mp hcs
    rw [List.cons_append, scan_cons]
    simp only [Place.next, if_neg hquote, hslash, hblank, or_self, if_false, Option.bind_some]
    exact ih hcs

theorem next_inside {c : Char} (h : c ≠ '"' ∧ c ≠ '\\') : Place.next .inside c = some .inside := by
  simp [Place.next, h]

theorem hexDigit_plain : ∀ n < 16, hexDigit n ≠ '"' ∧ hexDigit n ≠ '\\' := by decide

/-- A character of a string leaves the reader inside. -/
theorem scan_escape (c : Char) (rest : List Char) :
    scan .inside (escape c ++ rest) = scan .inside rest := by
  unfold escape
  split
  case h_8 _ hquote hslash _ _ _ _ _ =>
    split
    · have hlow := hexDigit_plain (c.toNat / 16) (by omega)
      have hhigh := hexDigit_plain (c.toNat % 16) (by omega)
      change scan .inside (hexDigit (c.toNat / 16) :: hexDigit (c.toNat % 16) :: rest) = _
      rw [scan_cons, next_inside hlow, Option.bind_some, scan_cons, next_inside hhigh,
        Option.bind_some]
    · rw [List.singleton_append, scan_cons, next_inside ⟨hquote, hslash⟩, Option.bind_some]
  all_goals rfl

theorem scan_writeText (s : String) (rest : List Char) :
    scan .outside (writeText s rest) = scan .outside rest := by
  have hinside : ∀ cs : List Char,
      scan .inside (cs.flatMap escape ++ '"' :: rest) = scan .outside rest := by
    intro cs
    induction cs with
    | nil => rfl
    | cons c cs ih => rw [List.flatMap_cons, List.append_assoc, scan_escape, ih]
  exact hinside s.toList

theorem scan_writeNumber {n : Number} (hn : (num n).Representable) (rest : List Char) :
    scan .outside (writeNumber n rest) = scan .outside rest := by
  rw [writeNumber_eq]
  refine scan_outside (fun c hc => ?_) rest
  have hnumeric := numeric_writeNumber hn c hc
  have hne (d : Char) (hd : isNumeric d = false) : c ≠ d := fun h => by
    rw [h, hd] at hnumeric
    cases hnumeric
  exact ⟨hne _ rfl, hne _ rfl, hne _ rfl⟩

theorem scan_char {c : Char} (hc : c ≠ '"' ∧ c ≠ '\\' ∧ c ≠ ' ') (rest : List Char) :
    scan .outside (c :: rest) = scan .outside rest :=
  scan_outside (List.forall_mem_singleton.mpr hc) rest

mutual

/-- A written value begins and ends outside of strings, and has blanks only inside. -/
theorem scan_write : ∀ (j : Json) (rest : List Char), j.Representable →
    scan .outside (j.write rest) = scan .outside rest
  | .null, rest, _ => rfl
  | .bool true, rest, _ => rfl
  | .bool false, rest, _ => rfl
  | .num n, rest, hj => scan_writeNumber hj rest
  | .str s, rest, _ => scan_writeText s rest
  | .arr [], rest, _ => rfl
  | .arr (x :: items), rest, hj => by
    rw [write, scan_char (by decide), scan_write x _ hj.1, scan_writeItems items _ hj.2,
      scan_char (by decide)]
  | .obj [], rest, _ => rfl
  | .obj ((k, x) :: fields), rest, hj => by
    rw [write, scan_char (by decide), scan_writeText, scan_char (by decide), scan_write x _ hj.1,
      scan_writeFields fields _ hj.2, scan_char (by decide)]

theorem scan_writeItems : ∀ (items : List Json) (rest : List Char), RepresentableItems items →
    scan .outside (writeItems items rest) = scan .outside rest
  | [], rest, _ => rfl
  | x :: items, rest, h => by
    rw [writeItems, scan_char (by decide), scan_write x _ h.1, scan_writeItems items _ h.2]

theorem scan_writeFields : ∀ (fields : List (String × Json)) (rest : List Char),
    RepresentableFields fields → scan .outside (writeFields fields rest) = scan .outside rest
  | [], rest, _ => rfl
  | (k, x) :: fields, rest, h => by
    rw [writeFields, scan_char (by decide), scan_writeText, scan_char (by decide),
      scan_write x _ h.1, scan_writeFields fields _ h.2]

end

/-- No written value has a blank and another written value at its end. -/
theorem write_ne_blank {i j : Json} (hi : i.Representable) (hj : j.Representable)
    (front : List Char) : i.write [] ≠ front ++ ' ' :: j.write [] := by
  intro h
  have hwhole := scan_write i [] hi
  have hlater := scan_write j [] hj
  rw [h, scan_append] at hwhole
  cases hp : scan .outside front with
  | none => rw [hp] at hwhole; cases hwhole
  | some p =>
    rw [hp, Option.bind_some, scan_cons] at hwhole
    -- the blank is in a string of the earlier value
    cases p with
    | outside => cases hwhole
    | escaped => cases hwhole
    | inside => exact scan_apart hlater hwhole rfl

theorem eq_nil_of_blank {i j : Json} (hi : i.Representable) (hj : j.Representable)
    {front : List Char} (h : ' ' :: i.write [] = front ++ ' ' :: j.write []) : front = [] := by
  cases front with
  | nil => rfl
  | cons c front => exact (write_ne_blank hi hj front (List.cons.inj h).2).elim

/-- What stands before a blank and a written value is told by the whole, whatever it is. -/
theorem eq_of_blank {i j : Json} (hi : i.Representable) (hj : j.Representable)
    {a b : List Char} (h : a ++ ' ' :: i.write [] = b ++ ' ' :: j.write []) : a = b := by
  rcases List.append_eq_append_iff.mp h with ⟨front, rfl, hfront⟩ | ⟨front, rfl, hfront⟩
  · rw [eq_nil_of_blank hi hj hfront, List.append_nil]
  · rw [eq_nil_of_blank hj hi hfront, List.append_nil]

end Statechart.Json
