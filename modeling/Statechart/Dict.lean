/-!
# Maps keyed by text

A map from names to values is the list of its entries in ascending order of the names, each
name once. Names are compared by code points, so the order is that of their UTF-8 bytes, and
it is the order in which every listing of a map is shown.

* `get?_insert_self`, `get?_insert_of_ne`: a look-up after an insertion.
* `Sorted.insert`: insertion keeps the entries in order, each name once.
* `get?_ofList`, `mem_keys_ofList`: the map of a list of entries.
* `ofList_of_sorted`, `get?_of_mem`: entries in order are the map of themselves.
-/
namespace Statechart

/-- The entries of a map, ascending by name. -/
abbrev Dict (α : Type) := List (String × α)

namespace Dict

variable {α β : Type}

/-- The value kept under a name. -/
def get? : Dict α → String → Option α
  | [], _ => none
  | (k, v) :: rest, name => if k = name then some v else get? rest name

/-- Keeps a value under a name, in place of the one that was there. -/
def insert (name : String) (value : α) : Dict α → Dict α
  | [] => [(name, value)]
  | (k, v) :: rest =>
    if name = k then (name, value) :: rest
    else if name < k then (name, value) :: (k, v) :: rest
    else (k, v) :: insert name value rest

/-- The map of a list of entries; of two entries of one name the later counts. -/
def ofList (entries : List (String × α)) : Dict α :=
  entries.foldl (fun d e => d.insert e.1 e.2) []

/-- Whether a name has a value. -/
def contains (d : Dict α) (name : String) : Bool := (d.get? name).isSome

/-- The names that have a value, ascending. -/
def keys (d : Dict α) : List String := d.map Prod.fst

/-- The entries are in ascending order of their names, each name once. -/
def Sorted (d : Dict α) : Prop := d.Pairwise (fun a b => a.1 < b.1)

instance (d : Dict α) : Decidable d.Sorted := by unfold Sorted; infer_instance

@[simp] theorem get?_nil (name : String) : get? ([] : Dict α) name = none := rfl

@[simp] theorem get?_insert_self (name : String) (value : α) (d : Dict α) :
    (d.insert name value).get? name = some value := by
  induction d with
  | nil => simp [insert, get?]
  | cons e rest ih =>
    obtain ⟨k, v⟩ := e
    unfold insert
    split
    · simp [get?]
    · split
      · simp [get?]
      · next h _ => simp [get?, Ne.symm h, ih]

theorem get?_insert_of_ne {name other : String} (h : other ≠ name) (value : α) (d : Dict α) :
    (d.insert name value).get? other = d.get? other := by
  induction d with
  | nil => simp [insert, get?, h.symm]
  | cons e rest ih =>
    obtain ⟨k, v⟩ := e
    unfold insert
    split
    · next hk => subst hk; simp [get?, h.symm]
    · split
      · simp [get?, h.symm]
      · simp only [get?, ih]

/-- The names after an insertion are the old ones and the new one. -/
theorem mem_keys_insert {name k : String} {value : α} {d : Dict α} :
    k ∈ (d.insert name value).keys ↔ k = name ∨ k ∈ d.keys := by
  induction d with
  | nil => simp [insert, keys]
  | cons e rest ih =>
    obtain ⟨k', v⟩ := e
    simp only [keys] at ih
    unfold insert
    split
    · next h => subst h; simp [keys]
    · split
      · simp [keys]
      · simp only [keys, List.map_cons, List.mem_cons, ih]; grind

/-- Two different names are in order one way or the other. -/
theorem lt_of_not_lt_of_ne {a b : String} (h : ¬ a < b) (hne : a ≠ b) : b < a := by
  rcases Classical.em (b < a) with hb | hb
  · exact hb
  · exact absurd (String.le_antisymm (String.not_lt.mp hb) (String.not_lt.mp h)) hne

theorem Sorted.insert {d : Dict α} (h : d.Sorted) (name : String) (value : α) :
    (d.insert name value).Sorted := by
  induction d with
  | nil => exact List.pairwise_singleton ..
  | cons e rest ih =>
    obtain ⟨k, v⟩ := e
    obtain ⟨hk, hr⟩ := List.pairwise_cons.mp h
    unfold Dict.insert
    split
    · next hn => subst hn; exact List.pairwise_cons.mpr ⟨hk, hr⟩
    · split
      · next hlt => exact List.pairwise_cons.mpr ⟨fun x hx => by
          rcases List.mem_cons.mp hx with rfl | hx
          · exact hlt
          · exact String.lt_trans hlt (hk x hx), h⟩
      · next hne hlt =>
        refine List.pairwise_cons.mpr ⟨fun x hx => ?_, ih hr⟩
        have hx' : x.1 ∈ (Dict.insert name value rest).keys := List.mem_map_of_mem hx
        rcases mem_keys_insert.mp hx' with e | e
        · rw [e]; exact lt_of_not_lt_of_ne hlt hne
        · obtain ⟨y, hy, he⟩ := List.mem_map.mp e
          rw [← he]; exact hk y hy

theorem sorted_ofList (entries : List (String × α)) : (ofList entries).Sorted := by
  have go : ∀ (l : List (String × α)) (d : Dict α), d.Sorted →
      (l.foldl (fun d e => Dict.insert e.1 e.2 d) d).Sorted := by
    intro l
    induction l with
    | nil => exact fun _ h => h
    | cons e rest ih => exact fun d h => ih _ (h.insert e.1 e.2)
  exact go entries [] List.Pairwise.nil

/-! ## The map of a list of entries -/

variable {name : String} {value : α}

theorem get?_foldl_insert_of_not_mem {entries : List (String × α)}
    (h : name ∉ entries.map Prod.fst) (d : Dict α) :
    Dict.get? (entries.foldl (fun d e => d.insert e.1 e.2) d) name = d.get? name := by
  induction entries generalizing d with
  | nil => rfl
  | cons e rest ih =>
    rw [List.map_cons, List.mem_cons, not_or] at h
    rw [List.foldl_cons, ih h.2, get?_insert_of_ne h.1]

/-- A map of entries whose names differ has every one of them. -/
theorem get?_ofList {entries : List (String × α)} (h : (entries.map Prod.fst).Nodup)
    (hmem : (name, value) ∈ entries) : (ofList entries).get? name = some value := by
  unfold ofList
  generalize ([] : Dict α) = d
  induction entries generalizing d with
  | nil => exact absurd hmem List.not_mem_nil
  | cons e rest ih =>
    obtain ⟨hhead, hrest⟩ := List.nodup_cons.mp h
    rw [List.foldl_cons]
    rcases List.mem_cons.mp hmem with rfl | hmem
    · rw [get?_foldl_insert_of_not_mem hhead, get?_insert_self]
    · exact ih hrest hmem _

/-- The names of a map are those of its entries. -/
theorem mem_keys_ofList {entries : List (String × α)} :
    name ∈ (ofList entries).keys ↔ name ∈ entries.map Prod.fst := by
  have go : ∀ (entries : List (String × α)) (d : Dict α),
      name ∈ (entries.foldl (fun d e => d.insert e.1 e.2) d).keys ↔
        name ∈ d.keys ∨ name ∈ entries.map Prod.fst := by
    intro entries
    induction entries with
    | nil => simp
    | cons e rest ih =>
      intro d
      rw [List.foldl_cons, ih, mem_keys_insert, List.map_cons, List.mem_cons]
      grind
  exact (go entries []).trans (or_iff_right List.not_mem_nil)

theorem mem_of_get? {d : Dict α} (h : d.get? name = some value) : (name, value) ∈ d := by
  induction d with
  | nil => cases h
  | cons e rest ih =>
    obtain ⟨k, v⟩ := e
    rw [get?] at h
    split at h
    · rename_i hname
      rw [hname, Option.some.inj h]
      exact List.mem_cons_self
    · exact List.mem_cons_of_mem _ (ih h)

theorem mem_keys_of_get? {d : Dict α} (h : d.get? name = some value) : name ∈ d.keys :=
  List.mem_map_of_mem (mem_of_get? h)

theorem mem_insert {e : String × α} {d : Dict α} (h : e ∈ d.insert name value) :
    e = (name, value) ∨ e ∈ d := by
  induction d with
  | nil => exact .inl (List.mem_singleton.mp h)
  | cons f rest ih =>
    obtain ⟨k, v⟩ := f
    unfold insert at h
    split at h
    · exact (List.mem_cons.mp h).imp_right (List.mem_cons_of_mem _)
    · split at h
      · exact List.mem_cons.mp h
      · rcases List.mem_cons.mp h with h | h
        · exact .inr (List.mem_cons.mpr (.inl h))
        · exact (ih h).imp_right (List.mem_cons_of_mem _)

theorem mem_of_mem_ofList {e : String × α} {entries : List (String × α)} (h : e ∈ ofList entries) :
    e ∈ entries := by
  have go : ∀ (rest : List (String × α)) (d : Dict α),
      e ∈ rest.foldl (fun d e => Dict.insert e.1 e.2 d) d → e ∈ d ∨ e ∈ rest := by
    intro rest
    induction rest with
    | nil => exact fun _ h => .inl h
    | cons f rest ih =>
      intro d h
      rcases ih _ h with h | h
      · rcases mem_insert h with rfl | h
        · exact .inr List.mem_cons_self
        · exact .inl h
      · exact .inr (List.mem_cons_of_mem _ h)
  exact (go entries [] h).resolve_left List.not_mem_nil

/-- A name behind all others is kept at the end. -/
theorem insert_of_lt {d : Dict α} {name : String} (value : α) (h : ∀ k ∈ d.keys, k < name) :
    d.insert name value = d ++ [(name, value)] := by
  induction d with
  | nil => rfl
  | cons e rest ih =>
    obtain ⟨k, v⟩ := e
    have hk : k < name := h k List.mem_cons_self
    have hne : name ≠ k := fun hname => String.lt_irrefl k (hname ▸ hk)
    rw [insert, if_neg hne, if_neg (String.lt_asymm hk),
      ih fun l hl => h l (List.mem_cons_of_mem _ hl)]
    rfl

/-- The map of entries in order is these entries. -/
theorem ofList_of_sorted {entries : Dict α} (h : entries.Sorted) : ofList entries = entries := by
  have go : ∀ (rest d : Dict α), Sorted (d ++ rest) →
      rest.foldl (fun d e => Dict.insert e.1 e.2 d) d = d ++ rest := by
    intro rest
    induction rest with
    | nil => simp
    | cons e rest ih =>
      intro d hd
      have hkeys : ∀ k ∈ d.keys, k < e.1 := fun k hk => by
        obtain ⟨x, hx, rfl⟩ := List.mem_map.mp hk
        exact (List.pairwise_append.mp hd).2.2 x hx e List.mem_cons_self
      rw [List.foldl_cons, insert_of_lt e.2 hkeys, ih _ (by simpa using hd)]
      simp
  exact (go entries [] h).trans (List.nil_append _)

theorem Sorted.nodup {d : Dict α} (h : d.Sorted) : (d.map Prod.fst).Nodup := by
  rw [List.Nodup, List.pairwise_map]
  exact List.Pairwise.imp (fun {a b} hlt (heq : a.1 = b.1) => String.lt_irrefl b.1 (heq ▸ hlt)) h

theorem get?_of_mem {d : Dict α} (h : d.Sorted) {e : String × α} (he : e ∈ d) :
    d.get? e.1 = some e.2 := by
  have hget := get?_ofList h.nodup he
  rwa [ofList_of_sorted h] at hget

end Dict

end Statechart
