import Statechart.Proofs.Chart.Offered
import Statechart.Proofs.Configuration.Matches

/-!
# What target texts mean

A target text is of one of four forms: the name of a state behind a number sign, such a name with
the keys from there down to a state, the keys from the source down behind a dot, or the keys from
beside the source. `Chart.Means` is this grammar. A layout resolves texts by other rules: it looks
an absolute text up as a whole before it takes it apart at its first dot, and dotted paths and
declared ids stand in one table.

Where keys and declared ids are of one piece (`Definition.Plain`), the dots and number signs of a
text say what its parts are, and the two agree.

* `Layout.get?_ids_iff`: the table has the states by their names.
* `Layout.descend_segments_iff`: a dotted text leads down along its keys.
* `Layout.absolute?_iff`: an absolute text is read in one way only.
* `Chart.means_of_build`: resolution accepts the grammar and nothing else.
-/
namespace Statechart

/-! ## Names of one piece -/

/-- A name of one piece is not empty and has neither dots nor number signs. -/
def PlainName (name : String) : Prop := name ≠ "" ∧ '.' ∉ name.toList ∧ '#' ∉ name.toList

instance (name : String) : Decidable (PlainName name) := inferInstanceAs (Decidable (_ ∧ _ ∧ _))

/-- All keys and declared ids of a definition are of one piece. -/
def Definition.Plain (d : Definition) : Prop :=
  ∀ s ∈ d.preorder, PlainName s.key ∧ ∀ id ∈ s.id, PlainName id

instance (d : Definition) : Decidable d.Plain :=
  inferInstanceAs (Decidable (∀ s ∈ d.preorder, PlainName s.key ∧ ∀ id ∈ s.id, PlainName id))

/-- A name of one piece begins with neither a dot nor a number sign. -/
theorem PlainName.exists_cons {name : String} (h : PlainName name) :
    ∃ c rest, name.toList = c :: rest ∧ c ≠ '.' ∧ c ≠ '#' := by
  obtain ⟨hne, hdot, hsign⟩ := h
  cases hname : name.toList with
  | nil => exact absurd (String.toList_eq_nil_iff.mp hname) hne
  | cons c rest =>
    rw [hname, List.mem_cons, not_or] at hdot hsign
    exact ⟨c, rest, rfl, Ne.symm hdot.1, Ne.symm hsign.1⟩

namespace Chart

variable {c : Chart}

/-! ## Rows of keys -/

/-- The dotted path of keys from the root down to a state. -/
def dottedPath (c : Chart) (n : Nat) : String :=
  ".".intercalate ((c.node root).key :: c.keysTo n)

/-- A row of keys leads from a state down to one inside it, child by child. -/
inductive Descends (c : Chart) : Nat → List String → Nat → Prop
  | child {p n : Nat} (hp : (c.node n).parent = some p) : c.Descends p [(c.node n).key] n
  | cons {p k n : Nat} {keys : List String} (hp : (c.node k).parent = some p)
      (hk : c.Descends k keys n) : c.Descends p ((c.node k).key :: keys) n

namespace Descends

variable {m n : Nat} {keys : List String}

theorem ne_nil (h : c.Descends m keys n) : keys ≠ [] := by cases h <;> simp

theorem keysTo (ht : c.IsTree) (h : c.Descends m keys n) : c.keysTo n = c.keysTo m ++ keys := by
  induction h with
  | child hp => exact keysTo_of_parent ht hp
  | cons hp _ ih => rw [ih, keysTo_of_parent ht hp, List.append_assoc, List.singleton_append]

/-- The path of a state inside another goes on with the keys that lead there. -/
theorem dottedPath (ht : c.IsTree) (h : c.Descends m keys n) :
    c.dottedPath n = c.dottedPath m ++ "." ++ ".".intercalate keys := by
  rw [Chart.dottedPath, h.keysTo ht, ← List.cons_append,
    String.intercalate_append_of_ne_nil (List.cons_ne_nil _ _) h.ne_nil]
  rfl

theorem lt_size (h : c.Descends m keys n) : n < c.size := by
  induction h with
  | child hp => exact lt_size_of_parent hp
  | cons _ _ ih => exact ih

theorem exists_of_mem (h : c.Descends m keys n) {key : String} (hk : key ∈ keys) :
    ∃ k < c.size, (c.node k).key = key := by
  induction h with
  | child hp =>
    rw [List.mem_singleton] at hk
    exact ⟨_, lt_size_of_parent hp, hk.symm⟩
  | cons hp _ ih =>
    rcases List.mem_cons.mp hk with rfl | hk
    · exact ⟨_, lt_size_of_parent hp, rfl⟩
    · exact ih hk

end Descends

/-! ## The grammar -/

/-- A state goes by its id, which is the declared one if there is one, and by its dotted path. -/
def GoesBy (c : Chart) (n : Nat) (name : String) : Prop :=
  n < c.size ∧ (name = (c.node n).id ∨ name = c.dottedPath n)

/-- What a target text of a source means. -/
inductive Means (c : Chart) (source : Nat) : String → Nat → Prop
  /-- The name of the state, behind a number sign. -/
  | absolute {name : String} {n : Nat} (hn : c.GoesBy n name) : c.Means source ("#" ++ name) n
  /-- The name of a state and the keys from there, behind a number sign. -/
  | inside {name : String} {m n : Nat} {keys : List String} (hm : c.GoesBy m name)
      (hk : c.Descends m keys n) :
      c.Means source ("#" ++ (name ++ "." ++ ".".intercalate keys)) n
  /-- The keys from the source, behind a dot. -/
  | below {n : Nat} {keys : List String} (hk : c.Descends source keys n) :
      c.Means source ("." ++ ".".intercalate keys) n
  /-- The keys from the parent of the source, or from the root if that is the source. -/
  | beside {n : Nat} {keys : List String}
      (hk : c.Descends ((c.node source).parent.getD source) keys n) :
      c.Means source (".".intercalate keys) n

end Chart

theorem Slot.mem_names {s : Slot} {name : String} :
    name ∈ s.names ↔ name = s.id ∨ name = s.path := by
  constructor
  · intro h
    rcases List.mem_cons.mp h with rfl | h
    · exact .inr rfl
    · obtain ⟨hid, -⟩ := Option.filter_eq_some_iff.mp (Option.mem_toList.mp h)
      exact .inl (by rw [Slot.id, hid]; rfl)
  · rintro (rfl | rfl)
    · exact s.id_mem_names
    · exact s.path_mem_names

namespace Layout

/-! ## The table of names -/

/-- Every name of a row is in the table that is made of it. -/
theorem isSome_get?_register {names : List (String × Nat)} {e : String × Nat} (he : e ∈ names) :
    ((register names).get? e.1).isSome = true := by
  let add (ids : Dict Nat) (f : String × Nat) : Dict Nat :=
    if ids.contains f.1 then ids else ids.insert f.1 f.2
  have hadd : ∀ ids f, (ids.get? e.1).isSome = true ∨ e = f →
      ((add ids f).get? e.1).isSome = true := by
    intro ids f h
    by_cases hc : ids.contains f.1 = true
    · simp only [add, if_pos hc]
      rcases h with h | rfl
      · exact h
      · exact hc
    · simp only [add, if_neg hc]
      by_cases hef : e.1 = f.1
      · rw [hef, Dict.get?_insert_self]; rfl
      · rw [Dict.get?_insert_of_ne hef]
        exact h.resolve_right fun h => hef (congrArg Prod.fst h)
  have hall : ∀ (names : List (String × Nat)) ids, (ids.get? e.1).isSome = true ∨ e ∈ names →
      ((names.foldl add ids).get? e.1).isSome = true := by
    intro names
    induction names with
    | nil => exact fun ids h => h.resolve_right List.not_mem_nil
    | cons f rest ih =>
      intro ids h
      rw [List.mem_cons, ← or_assoc] at h
      exact ih _ (h.imp_left (hadd ids f))
  exact hall names [] (.inr he)

theorem mem_namesFrom {slots : List Slot} : ∀ {start : Nat} {e : String × Nat},
    e ∈ namesFrom start slots ↔ ∃ i s, slots[i]? = some s ∧ e.1 ∈ s.names ∧ e.2 = start + i := by
  induction slots with
  | nil => simp [namesFrom]
  | cons s rest ih =>
    intro start e
    rw [namesFrom, List.mem_append, ih, List.mem_map]
    constructor
    · rintro (⟨name, hname, rfl⟩ | ⟨i, t, hi, ht, he⟩)
      · exact ⟨0, s, rfl, hname, rfl⟩
      · exact ⟨i + 1, t, hi, ht, by omega⟩
    · rintro ⟨i, t, hi, ht, he⟩
      cases i with
      | zero =>
        cases hi
        exact .inl ⟨e.1, ht, by rw [Nat.add_zero] at he; rw [← he]⟩
      | succ i => exact .inr ⟨i, t, hi, ht, by omega⟩

variable {d : Definition} {names : Names} {c : Chart} (hb : Chart.build names d = .ok c)
include hb

/-- In a chart that was built, the states have the keys, parents, ids and paths of their slots. -/
theorem slot_of_build {n : Nat} (hn : n < c.size) :
    (c.node n).key = ((ofDefinition d).slot n).key ∧
    (c.node n).parent = ((ofDefinition d).slot n).parent ∧
    (c.node n).children = ((ofDefinition d).slot n).children ∧
    (c.node n).id = ((ofDefinition d).slot n).id := by
  obtain ⟨-, rfl⟩ := Chart.build_ok.mp hb
  rw [size_chart] at hn
  rw [node_chart _ hn]
  exact ⟨rfl, rfl, rfl, rfl⟩

theorem size_of_build : c.size = (ofDefinition d).slots.size := by
  obtain ⟨-, rfl⟩ := Chart.build_ok.mp hb
  exact size_chart _

theorem path_of_build {n : Nat} (hn : n < c.size) :
    ((ofDefinition d).slot n).path = c.dottedPath n := by
  have ht := (Chart.accepted_of_build hb).toIsTree
  have hsize := size_of_build hb
  refine ht.induct_within (P := fun n => ((ofDefinition d).slot n).path = c.dottedPath n)
    ?_ (fun n p hp _ ih => ?_) (ht.within_root hn)
  · have hkey := (slot_of_build hb ht.root_lt).1
    have hpath : ((ofDefinition d).slot Chart.root).path = ((ofDefinition d).slot Chart.root).key := by
      obtain ⟨_, _, _, _, _, _, _, _, _, _, _, _, _, _⟩ := d
      simp [ofDefinition, slot, slotsFrom, Chart.root, Slot.key]
    rw [Chart.dottedPath, Chart.keysTo_root ht, String.intercalate_singleton, hkey, hpath]
  · have hnl := Chart.lt_size_of_parent hp
    have hslot := slot_of_build hb hnl
    rw [path_of_parent d (hsize ▸ hnl) (hslot.2.1 ▸ hp), ih, (Chart.Descends.child hp).dottedPath ht,
      String.intercalate_singleton, hslot.1]

/-- The table has the states by their names, and nothing else. -/
theorem get?_ids_iff {name : String} {n : Nat} :
    (ofDefinition d).ids.get? name = some n ↔ c.GoesBy n name := by
  have hsize := size_of_build hb
  obtain ⟨hproblems, -⟩ := Chart.build_ok.mp hb
  simp only [problems, List.append_eq_nil_iff, List.map_eq_nil_iff] at hproblems
  have hnodup := (nodup_of_repeated hproblems.1.1).1
  have hmem : ∀ {name n}, (name, n) ∈ namesFrom 0 (ofDefinition d).slots.toList ↔
      n < c.size ∧ name ∈ ((ofDefinition d).slot n).names := by
    intro name n
    rw [mem_namesFrom, hsize]
    constructor
    · rintro ⟨i, s, hi, hname, he⟩
      obtain ⟨hlt, rfl⟩ := List.getElem?_eq_some_iff.mp hi
      have hlt : i < (ofDefinition d).slots.size := by simpa using hlt
      obtain rfl : n = i := by simpa using he
      exact ⟨hlt, by simpa [slot, hlt] using hname⟩
    · rintro ⟨hlt, hname⟩
      exact ⟨n, (ofDefinition d).slot n, by simp [slot, hlt], hname, (Nat.zero_add n).symm⟩
  have hnames : n < c.size → (name ∈ ((ofDefinition d).slot n).names ↔
      name = (c.node n).id ∨ name = c.dottedPath n) := by
    intro hn
    rw [(slot_of_build hb hn).2.2.2, ← path_of_build hb hn]
    exact Slot.mem_names
  have hids : (ofDefinition d).ids = register (namesFrom 0 (ofDefinition d).slots.toList) := rfl
  rw [Chart.GoesBy, ← and_congr_right hnames, hids]
  constructor
  · exact fun h => hmem.mp (mem_of_get?_register h)
  · intro h
    have hentry := hmem.mpr h
    obtain ⟨m, hm⟩ := Option.isSome_iff_exists.mp (isSome_get?_register hentry)
    obtain ⟨hlt, hname⟩ := hmem.mp (mem_of_get?_register hm)
    rw [hm, slot_unique _ hnodup (hsize ▸ h.1) (hsize ▸ hlt) h.2 hname]

theorem goesBy_unique {name : String} {n m : Nat} (hn : c.GoesBy n name) (hm : c.GoesBy m name) :
    n = m :=
  Option.some.inj (((get?_ids_iff hb).mpr hn).symm.trans ((get?_ids_iff hb).mpr hm))

/-! ## Following keys -/

theorem child?_eq_some_iff {p k : Nat} {key : String} (hp : p < c.size) :
    (ofDefinition d).child? p key = some k ↔
      (c.node k).parent = some p ∧ (c.node k).key = key := by
  have ht := (Chart.accepted_of_build hb).toIsTree
  have hmem : ∀ {k}, k ∈ ((ofDefinition d).slot p).children ↔ (c.node k).parent = some p := by
    intro k
    rw [← (slot_of_build hb hp).2.2.1, ht.mem_children]
  have hkey : ∀ {key k}, (c.node k).parent = some p →
      ((((ofDefinition d).slot k).key == key) = true ↔ (c.node k).key = key) := by
    intro key k hk
    rw [← (slot_of_build hb (Chart.lt_size_of_parent hk)).1, beq_iff_eq]
  have hfound : ∀ {key k}, (ofDefinition d).child? p key = some k →
      (c.node k).parent = some p ∧ (c.node k).key = key := by
    intro key k h
    unfold child? at h
    have hk := hmem.mp (List.mem_of_find?_eq_some h)
    have hmatch := List.find?_some h
    exact ⟨hk, (hkey hk).mp hmatch⟩
  refine ⟨hfound, ?_⟩
  rintro ⟨hk, rfl⟩
  cases hfind : (ofDefinition d).child? p (c.node k).key with
  | none => exact absurd ((hkey hk).mpr rfl) (List.find?_eq_none.mp hfind k (hmem.mpr hk))
  | some j =>
    obtain ⟨hj, hjk⟩ := hfound hfind
    rw [Chart.keyed_of_build hb j k p hj hk hjk]

theorem descend_eq_some_iff {n : Nat} {keys : List String} (hne : keys ≠ []) :
    ∀ {p}, p < c.size → ((ofDefinition d).descend p keys = some n ↔ c.Descends p keys n) := by
  induction keys with
  | nil => exact absurd rfl hne
  | cons key keys ih =>
    intro p hp
    simp only [descend, Option.bind_eq_bind, Option.bind_eq_some_iff, child?_eq_some_iff hb hp]
    constructor
    · rintro ⟨k, ⟨hk, rfl⟩, h⟩
      by_cases hkeys : keys = []
      · subst hkeys
        cases h
        exact .child hk
      · exact .cons hk ((ih hkeys (Chart.lt_size_of_parent hk)).mp h)
    · rintro (⟨hk⟩ | ⟨hk, h⟩)
      · exact ⟨n, ⟨hk, rfl⟩, rfl⟩
      · exact ⟨_, ⟨hk, rfl⟩, (ih h.ne_nil (Chart.lt_size_of_parent hk)).mpr h⟩

/-! ## Names of one piece -/

variable (hd : d.Plain)
include hd

/-- Keys are of one piece, and so is an id unless it is the path. -/
theorem plain_of_build {n : Nat} (hn : n < c.size) :
    PlainName (c.node n).key ∧ ((c.node n).id = c.dottedPath n ∨ PlainName (c.node n).id) := by
  have hslot := slot_of_build hb hn
  obtain ⟨hkey, hid⟩ := hd _ (definition_mem_preorder d (size_of_build hb ▸ hn))
  refine ⟨hslot.1 ▸ hkey, ?_⟩
  rw [hslot.2.2.2, ← path_of_build hb hn, Slot.id]
  cases hdecl : ((ofDefinition d).slot n).definition.id with
  | none => exact .inl rfl
  | some id => exact .inr (hid id hdecl)

/-- A dotted text leads down along its keys. -/
theorem descend_segments_iff {p n : Nat} {text : String} (hp : p < c.size) :
    (ofDefinition d).descend p (Path.segments text.toList) = some n ↔
      ∃ keys, c.Descends p keys n ∧ text = ".".intercalate keys := by
  constructor
  · intro h
    exact ⟨_, (descend_eq_some_iff hb (Path.segments_ne_nil _) hp).mp h,
      (Path.intercalate_segments text).symm⟩
  · rintro ⟨keys, h, rfl⟩
    rw [Path.segments_intercalate h.ne_nil, descend_eq_some_iff hb h.ne_nil hp]
    · exact h
    · intro key hkey
      obtain ⟨k, hk, rfl⟩ := h.exists_of_mem hkey
      exact (plain_of_build hb hd hk).1.2.1

/-- A name with a dot is a path, and that begins with the key of the root. -/
theorem eq_key_of_goesBy {n : Nat} {name rest : String} (hname : PlainName name)
    (h : c.GoesBy n (name ++ "." ++ rest)) : name = (c.node Chart.root).key := by
  have hroot := (Chart.accepted_of_build hb).toIsTree.root_lt
  have htext : (name ++ "." ++ rest).toList = name.toList ++ '.' :: rest.toList := by simp
  have hdot : ¬ PlainName (name ++ "." ++ rest) := fun h => h.2.1 (by simp)
  have hpath : name ++ "." ++ rest = c.dottedPath n := by
    rcases h.2 with hid | hpath
    · rcases (plain_of_build hb hd h.1).2 with he | hplain
      · exact hid.trans he
      · exact absurd (hid ▸ hplain) hdot
    · exact hpath
  rw [Chart.dottedPath] at hpath
  by_cases hkeys : c.keysTo n = []
  · rw [hkeys, String.intercalate_singleton] at hpath
    exact absurd (hpath ▸ (plain_of_build hb hd hroot).1) hdot
  · have hsplit := Path.splitFirst_append hname.2.1 rest.toList
    rw [← htext, hpath, String.intercalate_cons_of_ne_nil hkeys] at hsplit
    have hkey := Path.splitFirst_append (plain_of_build hb hd hroot).1.2.1
      (".".intercalate (c.keysTo n)).toList
    have hpair := Option.some.inj (hsplit.symm.trans (by simpa using hkey))
    exact String.toList_inj.mp (congrArg Prod.fst hpair)

/-- An absolute text is read in one way only: as a name, or as a name and keys. -/
theorem absolute?_iff {n : Nat} {text : String} :
    (ofDefinition d).absolute? text.toList = some n ↔ c.GoesBy n text ∨
      ∃ m name keys, c.GoesBy m name ∧ c.Descends m keys n ∧
        text = name ++ "." ++ ".".intercalate keys := by
  have ht := (Chart.accepted_of_build hb).toIsTree
  have hwhole : c.GoesBy n text → (ofDefinition d).absolute? text.toList = some n := by
    intro h
    rw [absolute?, String.ofList_toList, (get?_ids_iff hb).mpr h]
  constructor
  · intro h
    rw [absolute?, String.ofList_toList] at h
    cases hget : (ofDefinition d).ids.get? text with
    | some m =>
      rw [hget] at h
      cases h
      exact .inl ((get?_ids_iff hb).mp hget)
    | none =>
      rw [hget] at h
      simp only [Option.bind_eq_bind, Option.bind_eq_some_iff] at h
      obtain ⟨⟨head, tail⟩, hsplit, m, hm, h⟩ := h
      have hm := (get?_ids_iff hb).mp hm
      rw [← String.toList_ofList (l := tail)] at h
      obtain ⟨keys, hk, htail⟩ := (descend_segments_iff hb hd hm.1).mp h
      refine .inr ⟨m, _, keys, hm, hk, String.toList_inj.mp ?_⟩
      rw [Path.append_of_splitFirst hsplit, ← htail]
      simp
  · rintro (h | ⟨m, name, keys, hm, hk, rfl⟩)
    · exact hwhole h
    · by_cases hpath : name = c.dottedPath m
      · -- The path of the one state and the keys are the path of the other.
        refine hwhole ⟨hk.lt_size, .inr ?_⟩
        rw [hk.dottedPath ht, hpath]
      · have hname := hm.2.resolve_right hpath
        have hplain : PlainName name := by
          rcases (plain_of_build hb hd hm.1).2 with hid | hid
          · exact absurd (hname.trans hid) hpath
          · exact hname ▸ hid
        have htext : (name ++ "." ++ ".".intercalate keys).toList =
            name.toList ++ '.' :: (".".intercalate keys).toList := by simp
        have hsplit := Path.splitFirst_append hplain.2.1 (".".intercalate keys).toList
        -- A path that began with the declared id would be one from the root.
        have hnone : (ofDefinition d).ids.get? (name ++ "." ++ ".".intercalate keys) = none := by
          refine Option.eq_none_iff_forall_ne_some.mpr fun k hk => hpath ?_
          have hkey := eq_key_of_goesBy hb hd hplain ((get?_ids_iff hb).mp hk)
          have hroot : name = c.dottedPath Chart.root := by
            rw [hkey, Chart.dottedPath, Chart.keysTo_root ht, String.intercalate_singleton]
          exact hroot.trans (congrArg _ (goesBy_unique hb ⟨ht.root_lt, .inr hroot⟩ hm))
        rw [absolute?, String.ofList_toList, hnone, htext, hsplit]
        simp only [Option.bind_eq_bind, Option.bind_some, String.ofList_toList,
          (get?_ids_iff hb).mpr hm]
        exact (descend_segments_iff hb hd hm.1).mpr ⟨keys, hk, rfl⟩

/-! ## Target texts -/

omit hb hd in
/-- A row of keys that begins with one of one piece begins with neither a dot nor a number sign. -/
theorem exists_cons_intercalate {key : String} (hkey : PlainName key) (keys : List String) :
    ∃ c rest, (".".intercalate (key :: keys)).toList = c :: rest ∧ c ≠ '.' ∧ c ≠ '#' := by
  obtain ⟨c, rest, hc, hdot, hsign⟩ := hkey.exists_cons
  by_cases hkeys : keys = []
  · exact ⟨c, rest, by rw [hkeys, String.intercalate_singleton, hc], hdot, hsign⟩
  · refine ⟨c, rest ++ (".".intercalate keys).toList.cons '.', ?_, hdot, hsign⟩
    rw [String.intercalate_cons_of_ne_nil hkeys]
    simp [hc]

theorem exists_cons_of_goesBy {n : Nat} {name : String} (h : c.GoesBy n name) :
    ∃ c rest, name.toList = c :: rest ∧ c ≠ '.' ∧ c ≠ '#' := by
  have hroot := (Chart.accepted_of_build hb).toIsTree.root_lt
  have hpath : ∃ ch rest, (c.dottedPath n).toList = ch :: rest ∧ ch ≠ '.' ∧ ch ≠ '#' :=
    exists_cons_intercalate (plain_of_build hb hd hroot).1 _
  obtain ⟨hn, rfl | rfl⟩ := h
  · rcases (plain_of_build hb hd hn).2 with he | hid
    · exact he ▸ hpath
    · exact hid.exists_cons
  · exact hpath

theorem exists_cons_of_descends {m n : Nat} {keys : List String} (h : c.Descends m keys n) :
    ∃ c rest, (".".intercalate keys).toList = c :: rest ∧ c ≠ '.' ∧ c ≠ '#' := by
  cases keys with
  | nil => exact absurd rfl h.ne_nil
  | cons key keys =>
    obtain ⟨k, hk, hkey⟩ := h.exists_of_mem List.mem_cons_self
    exact exists_cons_intercalate (hkey ▸ (plain_of_build hb hd hk).1) keys

/-- A target text means what the grammar says, and nothing else. -/
theorem target?_iff {source n : Nat} {text : String} (hs : source < c.size) :
    (ofDefinition d).target? source text = some n ↔ c.Means source text n := by
  have ht := (Chart.accepted_of_build hb).toIsTree
  have hslot := slot_of_build hb hs
  have hbase : (c.node source).parent.getD source < c.size := by
    cases hp : (c.node source).parent with
    | none => exact hs
    | some p => exact ht.parent_lt_size hp
  constructor
  · intro h
    unfold target? at h
    split at h
    case h_1 rest htext =>
      obtain rfl : text = "#" ++ String.ofList rest := String.toList_inj.mp (by simp [htext])
      rw [← String.toList_ofList (l := rest)] at h
      rcases (absolute?_iff hb hd).mp h with h | ⟨m, name, keys, hm, hk, he⟩
      · exact .absolute h
      · rw [he]
        exact .inside hm hk
    case h_2 rest htext =>
      obtain rfl : text = "." ++ String.ofList rest := String.toList_inj.mp (by simp [htext])
      rw [← String.toList_ofList (l := rest)] at h
      obtain ⟨keys, hk, he⟩ := (descend_segments_iff hb hd hs).mp h
      rw [he]
      exact .below hk
    case h_3 =>
      rw [← hslot.2.1] at h
      obtain ⟨keys, hk, rfl⟩ := (descend_segments_iff hb hd hbase).mp h
      exact .beside hk
  · intro h
    cases h with
    | @absolute name _ hn =>
      rw [target?, show ("#" ++ name).toList = '#' :: name.toList by simp]
      exact (absolute?_iff hb hd).mpr (.inl hn)
    | @inside name m _ keys hm hk =>
      rw [target?, show ("#" ++ (name ++ "." ++ ".".intercalate keys)).toList =
        '#' :: (name ++ "." ++ ".".intercalate keys).toList by simp]
      exact (absolute?_iff hb hd).mpr (.inr ⟨m, name, keys, hm, hk, rfl⟩)
    | @below _ keys hk =>
      rw [target?, show ("." ++ ".".intercalate keys).toList =
        '.' :: (".".intercalate keys).toList by simp]
      exact (descend_segments_iff hb hd hs).mpr ⟨keys, hk, rfl⟩
    | @beside _ keys hk =>
      obtain ⟨ch, rest, htext, hdot, hsign⟩ := exists_cons_of_descends hb hd hk
      have hmeans := (descend_segments_iff hb hd hbase).mpr ⟨keys, hk, rfl⟩
      rw [hslot.2.1, htext] at hmeans
      rw [target?, htext]
      split
      · rename_i he
        exact absurd (List.cons.inj he).1 hsign
      · rename_i he
        exact absurd (List.cons.inj he).1 hdot
      · exact hmeans

end Layout

namespace Chart

/-- Resolution accepts the grammar and nothing else, so that a text means one state at most;
and a state is found by its names, with or without a number sign in front. -/
theorem means_of_build {d : Definition} {names : Names} {c : Chart}
    (hb : Chart.build names d = .ok c) (hd : d.Plain) :
    (∀ source < c.size, ∀ text n,
      (Layout.ofDefinition d).target? source text = some n ↔ c.Means source text n) ∧
    ∀ n name, c.GoesBy n name → c.find? name = some n ∧ c.find? ("#" ++ name) = some n := by
  refine ⟨fun source hs text n => Layout.target?_iff hb hd hs, fun n name h => ?_⟩
  have hget := (Layout.get?_ids_iff hb).mpr h
  have hids : c.ids = (Layout.ofDefinition d).ids := by
    obtain ⟨-, rfl⟩ := build_ok.mp hb
    rfl
  obtain ⟨ch, rest, hname, -, hsign⟩ := Layout.exists_cons_of_goesBy hb hd h
  constructor
  · rw [find?, hname]
    split
    · rename_i he
      exact absurd (List.cons.inj he).1 hsign
    · rw [hids, hget]
  · rw [find?, show ("#" ++ name).toList = '#' :: name.toList by simp]
    exact (congrArg _ String.ofList_toList).trans (hids ▸ hget)

/-- A museum whose east wing has a declared id. -/
def museum : Definition where
  key := "museum"
  initial := "east"
  states := [
    { key := "east"
      id := "armoury"
      initial := "hall"
      states := [{ key := "hall", initial := "case", states := [{ key := "case" }] }] },
    { key := "west" }]

/-- From the west wing, the case is found by the id of the east wing, by its path and by the key of
the east wing. The hall is not beside the west wing. -/
theorem means_museum : ∃ c,
    Chart.build ⟨fun _ => false, fun _ => false, fun _ => false⟩ museum = .ok c ∧
    c.Means 4 "#armoury.hall.case" 3 ∧ c.Means 4 "#museum.east.hall.case" 3 ∧
    c.Means 4 "east.hall.case" 3 ∧ (∀ n, ¬ c.Means 4 "hall" n) ∧ c.find? "#armoury" = some 1 := by
  have hb : (Chart.build ⟨fun _ => false, fun _ => false, fun _ => false⟩ museum).toOption.any
      (fun c => decide (c.size = 5 ∧ (c.node 1).id = "armoury")) = true := by decide +kernel
  obtain ⟨c, hb, htest⟩ := exists_ok_of_any hb
  obtain ⟨hsize, hid⟩ := of_decide_eq_true htest
  obtain ⟨hmeans, hfind⟩ := means_of_build hb (by decide +kernel)
  have hwest : 4 < c.size := by omega
  refine ⟨c, hb, (hmeans 4 hwest _ _).mp (by decide +kernel),
    (hmeans 4 hwest _ _).mp (by decide +kernel), (hmeans 4 hwest _ _).mp (by decide +kernel),
    fun n hn => ?_, (hfind 1 "armoury" ⟨by omega, .inl hid.symm⟩).2⟩
  have hnone : (Layout.ofDefinition museum).target? 4 "hall" = none := by decide +kernel
  rw [← hmeans 4 hwest, hnone] at hn
  cases hn

end Chart

end Statechart
