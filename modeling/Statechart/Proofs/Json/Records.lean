import Mathlib.Data.List.Nodup
import Statechart.Definition.Json
import Statechart.Proofs.Json.Readback

/-!
# Written records are read back

A record is written as an object of the fields that have content. Read for its fields, it gives
each of them under its name, whatever order they are kept in, with as much room left as the record
allows (`Draft.Holds`). From there on it is read field by field: one that has content is what was
written, and one without content is its default.

* `Draft.list?_ofJson`, `Draft.dict?_ofJson`: lists and maps.
* `Draft.read_record`: records.
* `Holds.required`, `Holds.list`, `Holds.optional`: the fields of a record.
* `Event.read_toJson`: events.
-/
namespace Statechart

/-! ## Values by their parts -/

namespace Json

theorem wellFormedItems_iff {items : List Json} :
    WellFormedItems items ↔ ∀ x ∈ items, x.WellFormed := by
  induction items with
  | nil => simp [WellFormedItems]
  | cons x items ih => rw [WellFormedItems, ih, List.forall_mem_cons]

theorem wellFormedFields_iff {fields : List (String × Json)} :
    WellFormedFields fields ↔ ∀ e ∈ fields, e.2.WellFormed := by
  induction fields with
  | nil => simp [WellFormedFields]
  | cons e fields ih => rw [WellFormedFields, ih, List.forall_mem_cons]

theorem floatFreeItems_iff {items : List Json} :
    FloatFreeItems items ↔ ∀ x ∈ items, x.FloatFree := by
  induction items with
  | nil => simp [FloatFreeItems]
  | cons x items ih => rw [FloatFreeItems, ih, List.forall_mem_cons]

theorem floatFreeFields_iff {fields : List (String × Json)} :
    FloatFreeFields fields ↔ ∀ e ∈ fields, e.2.FloatFree := by
  induction fields with
  | nil => simp [FloatFreeFields]
  | cons e fields ih => rw [FloatFreeFields, ih, List.forall_mem_cons]

theorem depth_le_depthItems {x : Json} {items : List Json} (hx : x ∈ items) :
    x.depth ≤ depthItems items := by
  induction items with
  | nil => cases hx
  | cons y items ih =>
    rw [depthItems]
    rcases List.mem_cons.mp hx with rfl | hx
    · exact Nat.le_max_left _ _
    · exact Nat.le_trans (ih hx) (Nat.le_max_right _ _)

theorem depth_le_depthFields {e : String × Json} {fields : List (String × Json)}
    (he : e ∈ fields) : e.2.depth ≤ depthFields fields := by
  induction fields with
  | nil => cases he
  | cons f fields ih =>
    rw [depthFields]
    rcases List.mem_cons.mp he with rfl | he
    · exact Nat.le_max_left _ _
    · exact Nat.le_trans (ih he) (Nat.le_max_right _ _)

def contents (fields : List (String × Option Json)) : List (String × Json) :=
  fields.filterMap fun (name, value) => value.map (name, ·)

theorem record_eq (fields : List (String × Option Json)) :
    record fields = object (contents fields) := rfl

section Contents

variable {fields : List (String × Option Json)}

theorem mem_contents {name : String} {x : Json} :
    (name, x) ∈ contents fields ↔ (name, some x) ∈ fields := by
  simp [contents, List.mem_filterMap]

theorem mem_names_of_mem_contents {name : String} (h : name ∈ (contents fields).map Prod.fst) :
    name ∈ fields.map Prod.fst := by
  obtain ⟨e, he, rfl⟩ := List.mem_map.mp h
  exact List.mem_map.mpr ⟨_, mem_contents.mp he, rfl⟩

theorem nodup_contents (h : (fields.map Prod.fst).Nodup) :
    ((contents fields).map Prod.fst).Nodup := by
  induction fields with
  | nil => exact .nil
  | cons e fields ih =>
    obtain ⟨name, value⟩ := e
    obtain ⟨hname, hfields⟩ := List.nodup_cons.mp h
    cases value with
    | none => exact ih hfields
    | some x =>
      exact List.nodup_cons.mpr ⟨fun hmem => hname (mem_names_of_mem_contents hmem), ih hfields⟩

theorem get?_contents (h : (fields.map Prod.fst).Nodup) {e : String × Option Json}
    (he : e ∈ fields) : (Dict.ofList (contents fields)).get? e.1 = e.2 := by
  obtain ⟨name, value⟩ := e
  cases value with
  | some x => exact Dict.get?_ofList (nodup_contents h) (mem_contents.mpr he)
  | none =>
    refine Dict.get?_foldl_insert_of_not_mem (fun hmem => ?_) []
    obtain ⟨⟨_, x⟩, hx, rfl⟩ := List.mem_map.mp hmem
    cases List.inj_on_of_nodup_map h he (mem_contents.mp hx) rfl

end Contents

namespace Exact

theorem str (s : String) : (Json.str s).Exact := ⟨trivial, trivial⟩

theorem bool (b : Bool) : (Json.bool b).Exact := ⟨trivial, trivial⟩

theorem ofNat {n : Nat} (h : n ≤ maxNat64) : (Json.ofNat n).Exact :=
  ⟨⟨Int.le_trans (by decide) (Int.natCast_nonneg n), h⟩, trivial⟩

theorem arr {items : List Json} (h : ∀ x ∈ items, x.Exact) : (Json.arr items).Exact :=
  ⟨wellFormedItems_iff.mpr fun x hx => (h x hx).wellFormed,
    floatFreeItems_iff.mpr fun x hx => (h x hx).floatFree⟩

theorem obj {fields : Dict Json} (hs : fields.Sorted) (h : ∀ e ∈ fields, e.2.Exact) :
    (Json.obj fields).Exact :=
  ⟨⟨hs, wellFormedFields_iff.mpr fun e he => (h e he).wellFormed⟩,
    floatFreeFields_iff.mpr fun e he => (h e he).floatFree⟩

theorem record {fields : List (String × Option Json)} (h : ∀ e ∈ fields, ∀ x ∈ e.2, x.Exact) :
    (Json.record fields).Exact :=
  .obj (Dict.sorted_ofList _) fun e he =>
    h (e.1, Option.some e.2) (mem_contents.mp (Dict.mem_of_mem_ofList he)) e.2 rfl

/-! The content of a field: -/

theorem some {j : Json} (h : j.Exact) : ∀ x ∈ Option.some j, x.Exact := by
  intro x hx
  cases hx
  exact h

section

variable {α : Type} {toJson : α → Json}

theorem option {o : Option α} (h : ∀ a, (toJson a).Exact) : ∀ x ∈ o.map toJson, x.Exact := by
  intro x hx
  obtain ⟨a, -, rfl⟩ := Option.map_eq_some_iff.mp hx
  exact h a

theorem list {l : List α} (h : ∀ a ∈ l, (toJson a).Exact) : (Json.arr (l.map toJson)).Exact :=
  .arr fun x hx => by
    obtain ⟨a, ha, rfl⟩ := List.mem_map.mp hx
    exact h a ha

theorem listField {l : List α} (h : ∀ a ∈ l, (toJson a).Exact) :
    ∀ x ∈ Json.listField toJson l, x.Exact := by
  intro x hx
  unfold Json.listField at hx
  split at hx
  · cases hx
  · cases hx
    exact .list h

end

end Exact

end Json

namespace Draft

/-! ## Lists and maps -/

theorem ofItems_eq (items : List Json) : ofItems items = items.map ofJson := by
  induction items with
  | nil => rfl
  | cons x items ih => rw [ofItems, ih, List.map_cons]

theorem ofFields_eq (fields : List (String × Json)) :
    ofFields fields = fields.map fun e => (some e.1, ofJson e.2) := by
  induction fields with
  | nil => rfl
  | cons e fields ih => rw [ofFields, ih, List.map_cons]

theorem mapM_map {α β γ : Type} {f : α → β} {g : α → γ} {read : β → Option γ} {l : List α}
    (h : ∀ a ∈ l, read (f a) = some (g a)) : (l.map f).mapM read = some (l.map g) := by
  induction l with
  | nil => rfl
  | cons a l ih =>
    rw [List.forall_mem_cons] at h
    simp [h.1, ih h.2]

theorem mapM_map_self {α β : Type} {f : α → β} {read : β → Option α} {l : List α}
    (h : ∀ a ∈ l, read (f a) = some a) : (l.map f).mapM read = some l :=
  (mapM_map (g := fun a => a) h).trans (congrArg some (List.map_id' l))

section Parts

variable {α : Type} {toJson : α → Json} {read : Nat → Draft → Option α} {room : Nat}

/-- The items of a list are read back with one less room. -/
theorem list?_ofJson {l : List α} (hroom : (Json.arr (l.map toJson)).depth ≤ room)
    (hread : ∀ a ∈ l, ∀ {room}, (toJson a).depth ≤ room →
      read room (ofJson (toJson a)) = some a) :
    list? read room (ofJson (.arr (l.map toJson))) = some l := by
  rw [Json.depth] at hroom
  obtain ⟨room, rfl⟩ : ∃ n, room = n + 1 := ⟨room - 1, by omega⟩
  rw [ofJson, ofItems_eq, List.map_map]
  refine mapM_map_self fun a ha => hread a ha ?_
  have := Json.depth_le_depthItems (List.mem_map_of_mem (f := toJson) ha)
  omega

/-- The entries of a map are read back with one less room. -/
theorem dict?_ofJson {d : Dict α} (hd : d.Sorted)
    (hroom : (Json.obj (d.map fun e => (e.1, toJson e.2))).depth ≤ room)
    (hread : ∀ e ∈ d, ∀ {room}, (toJson e.2).depth ≤ room →
      read room (ofJson (toJson e.2)) = some e.2) :
    dict? read room (ofJson (.obj (d.map fun e => (e.1, toJson e.2)))) = some d := by
  rw [Json.depth] at hroom
  obtain ⟨room, rfl⟩ : ∃ n, room = n + 1 := ⟨room - 1, by omega⟩
  rw [ofJson, ofFields_eq, List.map_map, dict?, mapM_map_self]
  · exact congrArg some (Dict.ofList_of_sorted hd)
  · intro e he
    have hdepth := Json.depth_le_depthFields
      (List.mem_map_of_mem (f := fun e => (e.1, toJson e.2)) he)
    simp [hread e he (Nat.le_trans hdepth (Nat.le_of_succ_le_succ hroom))]

end Parts

theorem dict?_value? {d : Dict Json} (hd : (Json.obj d).WellFormed) {room : Nat}
    (hroom : (Json.obj d).depth ≤ room) : dict? value? room (ofJson (.obj d)) = some d := by
  have hread := @dict?_ofJson Json (fun j => j) value? room d hd.1 (by simpa using hroom)
    fun e he _ hroom => value?_ofJson e.2 (Json.wellFormedFields_iff.mp hd.2 e he) hroom
  simpa using hread

theorem ofJson_eq_null {j : Json} (h : ofJson j = .null) : j = .null := by
  cases j <;> first | rfl | cases h

theorem nat?_ofJson (n : Nat) : nat? (ofJson (.ofNat n)) = some n := by
  simp [Json.ofNat, ofJson, nat?]

theorem word?_ofJson {α : Type} {ofWord? : String → Option α} (room : Nat) (word : String) :
    word? ofWord? room (ofJson (.str word)) = ofWord? word := by
  cases room <;> rfl

/-! ## Records -/

/-- A record that was read for its fields has this content in a field; `room` is what is left
inside the record. -/
structure Holds (known : Fields) (room : Nat) (name : String) (content : Option Json) : Prop where
  lookup : known.lookup name = content.map ofJson
  room : ∀ x ∈ content, x.depth ≤ room

namespace Holds

variable {α : Type} {known : Fields} {room : Nat} {name : String} {content : Option Json}

theorem required {x : Json} (h : Holds known room name (some x)) {read : Draft → Option α} {a : α}
    (hread : x.depth ≤ room → read (ofJson x) = some a) : known.required name read = some a := by
  rw [Fields.required, h.lookup]
  exact hread (h.room x rfl)

theorem text {s : String} (h : Holds known room name (some (.str s))) :
    known.required name text? = some s := h.required fun _ => rfl

theorem absent (h : Holds known room name none) (default : α) (read : Draft → Option α) :
    known.withDefault name default read = some default := by
  rw [Fields.withDefault, h.lookup]
  rfl

theorem present {x : Json} (h : Holds known room name (some x)) (default : α)
    {read : Draft → Option α} {a : α} (hread : x.depth ≤ room → read (ofJson x) = some a) :
    known.withDefault name default read = some a := by
  rw [Fields.withDefault, h.lookup]
  exact hread (h.room x rfl)

/-- A list that is left out when it is empty. -/
theorem list {toJson : α → Json} {read : Nat → Draft → Option α} {l : List α}
    (h : Holds known room name (Json.listField toJson l))
    (hread : ∀ a ∈ l, ∀ {room}, (toJson a).depth ≤ room →
      read room (ofJson (toJson a)) = some a) :
    known.withDefault name [] (list? read room) = some l := by
  unfold Json.listField at h
  split at h
  · rename_i hnil
    exact (h.absent _ _).trans (congrArg some (List.isEmpty_iff.mp hnil).symm)
  · exact h.present _ fun hroom => list?_ofJson hroom hread

theorem texts {l : List String} (h : Holds known room name (Json.listField .str l)) :
    known.withDefault name [] (list? (fun _ => text?) room) = some l :=
  h.list fun _ _ _ _ => rfl

theorem optional {o : Option α} {toJson : α → Json} {read : Draft → Option α}
    (h : Holds known room name (o.map toJson)) (hread : ∀ a, read (ofJson (toJson a)) = some a)
    (hnull : ∀ a, toJson a ≠ .null) : known.optional name read = some o := by
  rw [Fields.optional, h.lookup]
  cases o with
  | none => rfl
  | some a =>
    have hdraft : ofJson (toJson a) ≠ .null := fun hd => hnull a (ofJson_eq_null hd)
    rw [Option.map_some, Option.map_some]
    split
    · rename_i hnone
      cases hnone
    · rename_i hnone
      exact absurd (Option.some.inj hnone) hdraft
    · rename_i hsome
      rw [← Option.some.inj hsome, hread]
      rfl

theorem optionalText {o : Option String} (h : Holds known room name (o.map .str)) :
    known.optional name text? = some o := h.optional (fun _ => rfl) nofun

theorem optionalWord {o : Option α} {word : α → String} {ofWord? : String → Option α}
    (h : Holds known room name (o.map fun a => .str (word a)))
    (hword : ∀ a, ofWord? (word a) = some a) :
    known.optional name (word? ofWord? room) = some o :=
  h.optional (fun a => (word?_ofJson room (word a)).trans (hword a)) nofun

end Holds

theorem lookup_map (d : Dict Json) (name : String) :
    List.lookup name (d.map fun e => (e.1, ofJson e.2)) = (d.get? name).map ofJson := by
  induction d with
  | nil => rfl
  | cons e d ih =>
    rw [List.map_cons, List.lookup_cons, ih, Dict.get?]
    by_cases h : e.1 = name
    · simp [h]
    · rw [if_neg h, beq_false_of_ne (Ne.symm h)]

theorem fields?_ofJson {names : List String} {d : Dict Json} (hd : d.Sorted)
    (hnames : ∀ name ∈ d.keys, name ∈ names) :
    (ofJson (.obj d)).fields? names = some (d.map fun e => (e.1, ofJson e.2)) := by
  have hknown : (d.map fun e => (e.1, ofJson e.2)).filter (fun e => names.contains e.1) =
      d.map fun e => (e.1, ofJson e.2) := by
    refine List.filter_eq_self.mpr fun e he => List.contains_iff_mem.mpr (hnames e.1 ?_)
    obtain ⟨entry, hentry, rfl⟩ := List.mem_map.mp he
    exact List.mem_map_of_mem hentry
  have hnodup : ((d.map fun e => (e.1, ofJson e.2)).map Prod.fst).Nodup := by
    rw [List.map_map]
    exact hd.nodup
  rw [ofJson, ofFields_eq, fields?, mapM_map (g := fun e => (e.1, ofJson e.2))]
  · simp only [Option.bind_eq_bind, Option.bind_some, hknown]
    exact if_pos hnodup
  · exact fun _ _ => rfl

/-- A record is read field by field: what comes after its fields may count on what they
hold. -/
theorem read_record {α : Type} {fields : List (String × Option Json)} {names : List String}
    {room : Nat} {rest : Fields → Option α} {a : α} (hnames : fields.map Prod.fst = names)
    (hnodup : names.Nodup) (hroom : (Json.record fields).depth ≤ room + 1)
    (hrest : ∀ known, (∀ e ∈ fields, Holds known room e.1 e.2) → rest known = some a) :
    ((ofJson (.record fields)).fields? names).bind rest = some a := by
  subst hnames
  rw [Json.record_eq, Json.object, fields?_ofJson (Dict.sorted_ofList _) fun name hname =>
    Json.mem_names_of_mem_contents (Dict.mem_keys_ofList.mp hname)]
  refine hrest _ fun e he => ⟨?_, fun x hx => ?_⟩
  · rw [lookup_map, Json.get?_contents hnodup he]
  · have hmem := Dict.mem_of_get? ((Json.get?_contents hnodup he).trans hx)
    exact Nat.le_trans (Json.depth_le_depthFields hmem) (Nat.le_of_succ_le_succ hroom)

end Draft

namespace Event

/-- The payload has no floats, and its integers and the order of its fields are as they are
written. -/
def Exact (e : Event) : Prop := (Json.obj e.payload).Exact

instance (e : Event) : Decidable e.Exact := inferInstanceAs (Decidable (Json.obj e.payload).Exact)

theorem toJson_eq (e : Event) : e.toJson = .record [
    ("type", some (.str e.type)),
    ("payload", if e.payload.isEmpty then none else some (.obj e.payload)),
    ("origin", e.origin.map .str)] := by
  obtain ⟨type, payload, origin⟩ := e
  cases payload <;> cases origin <;> rfl

theorem Exact.toJson {e : Event} (he : e.Exact) : e.toJson.Exact := by
  rw [toJson_eq]
  refine .record ?_
  simp only [List.forall_mem_cons]
  refine ⟨.some (.str _), fun x hx => ?_, .option .str, List.forall_mem_nil _⟩
  split at hx
  · cases hx
  · cases hx
    exact he

theorem read_toJson (e : Event) : ∀ {room : Nat}, e.Exact → e.toJson.depth ≤ room →
    read room (.ofJson e.toJson) = some e
  | 0, _, hroom => by rw [toJson_eq] at hroom; cases hroom
  | room + 1, he, hroom => by
    rw [toJson_eq] at hroom ⊢
    refine Draft.read_record rfl (by decide) hroom fun known hfields => ?_
    simp only [List.forall_mem_cons] at hfields
    obtain ⟨htype, hpayload, horigin, -⟩ := hfields
    have hpayload : known.withDefault "payload" [] (Draft.dict? Draft.value? room) =
        some e.payload := by
      split at hpayload
      · rename_i hnil
        exact (hpayload.absent _ _).trans (congrArg some (List.isEmpty_iff.mp hnil).symm)
      · exact hpayload.present _ fun hroom => Draft.dict?_value? he.wellFormed hroom
    simp [htype.text, hpayload, horigin.optionalText]

end Event

end Statechart
