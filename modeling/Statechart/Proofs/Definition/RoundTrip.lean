import Statechart.Proofs.Json.Records

/-!
# Definitions are read back from their text

A definition is a record of records: each of them leaves out what has no content, names some of
its fields otherwise than they are called, and has its own defaults. One after the other they are
read back from what they are written as. An action has three forms, which are tried in their
order; none of them fits what another one writes.

The numbers in a definition must have a written form (`Definition.Exact`): delays have 64 bits, and
there are no floats in payloads. Any key, name or text will do.

* `Action.read_toJson`, `TransitionDef.read_toJson`, `Handler.read_toJson`, `Delay.read_toJson`,
  `InvocationDef.read_toJson`: the parts of a definition.
* `Definition.read_toJson`: a definition and its subtree.
* `Definition.text_round_trip`: the text of a definition.
-/
namespace Statechart

/-! ## Actions -/

namespace Action

def Exact : Action → Prop
  | .named _ => True
  | .raise event | .sendTo _ event => event.Exact

instance : (a : Action) → Decidable a.Exact
  | .named _ => .isTrue trivial
  | .raise event | .sendTo _ event => inferInstanceAs (Decidable event.Exact)

theorem Exact.toJson {a : Action} (ha : a.Exact) : a.toJson.Exact := by
  cases a with
  | named name => exact .str name
  | raise event =>
    refine .obj (Dict.sorted_ofList _) fun e he => ?_
    obtain rfl := List.mem_singleton.mp (Dict.mem_of_mem_ofList he)
    exact Event.Exact.toJson ha
  | sendTo actor event =>
    refine .obj (Dict.sorted_ofList _) fun e he => ?_
    rcases List.mem_pair.mp (Dict.mem_of_mem_ofList he) with rfl | rfl
    · exact .str actor
    · exact Event.Exact.toJson ha

theorem toJson_raise (event : Event) :
    (raise event).toJson = .obj [("raise", event.toJson)] := rfl

theorem toJson_sendTo (actor : String) (event : Event) : (sendTo actor event).toJson =
    .obj [("event", event.toJson), ("send_to", .str actor)] := by
  have hlt : "event" < "send_to" := by decide
  simp [toJson, Json.object, Dict.ofList, Dict.insert, hlt]

/-- An action is read in the form that it was written in. -/
theorem read_toJson (a : Action) {room : Nat} (ha : a.Exact) (hroom : a.toJson.depth ≤ room) :
    read room (.ofJson a.toJson) = some a := by
  have hvalue := Draft.value?_ofJson a.toJson ha.toJson.wellFormed hroom
  unfold read
  rw [hvalue, Option.bind_eq_bind, Option.bind_some]
  cases a with
  | named name => cases room <;> rfl
  | raise event =>
    rw [toJson_raise, Json.depth, Json.depthFields] at hroom
    obtain ⟨room, rfl⟩ : ∃ n, room = n + 1 := ⟨room - 1, by omega⟩
    have hread : Event.read room (.ofJson event.toJson) = some event :=
      event.read_toJson ha (by omega)
    simp [toJson_raise, Draft.ofJson, Draft.ofFields, single?, hread]
  | sendTo actor event =>
    -- no field raises an event, so the first form does not fit
    rw [toJson_sendTo, Json.depth, Json.depthFields] at hroom
    obtain ⟨room, rfl⟩ : ∃ n, room = n + 1 := ⟨room - 1, by omega⟩
    have hread : Event.read room (.ofJson event.toJson) = some event :=
      event.read_toJson ha (by omega)
    simp [toJson_sendTo, Draft.ofJson, Draft.ofFields, single?, hread, Draft.text?]

end Action

/-! ## Transitions, and what they are declared for -/

namespace TransitionDef

def Exact (t : TransitionDef) : Prop := ∀ a ∈ t.actions, a.Exact

instance (t : TransitionDef) : Decidable t.Exact :=
  inferInstanceAs (Decidable (∀ a ∈ t.actions, a.Exact))

theorem Exact.toJson {t : TransitionDef} (ht : t.Exact) : t.toJson.Exact := by
  refine .record ?_
  simp only [List.forall_mem_cons]
  exact ⟨.listField fun s _ => .str s, .option .str, .listField fun a ha => (ht a ha).toJson,
    .some (.bool _), List.forall_mem_nil _⟩

theorem read_toJson (t : TransitionDef) : ∀ {room : Nat}, t.Exact → t.toJson.depth ≤ room →
    read room (.ofJson t.toJson) = some t
  | 0, _, hroom => nomatch hroom
  | room + 1, ht, hroom => by
    refine Draft.read_record rfl (by decide) hroom fun known hfields => ?_
    simp only [List.forall_mem_cons] at hfields
    obtain ⟨htarget, hguard, hactions, hreenter, -⟩ := hfields
    have hactions := hactions.list fun a ha _ => a.read_toJson (ht a ha)
    have hreenter : known.withDefault "reenter" false Draft.bool? = some t.reenter :=
      hreenter.present false fun _ => rfl
    simp [htarget.texts, hguard.optionalText, hactions, hreenter]

end TransitionDef

namespace Handler

def Exact (h : Handler) : Prop := ∀ t ∈ h.transitions, t.Exact

instance (h : Handler) : Decidable h.Exact :=
  inferInstanceAs (Decidable (∀ t ∈ h.transitions, t.Exact))

theorem toJson_eq (h : Handler) : h.toJson = .record [
    ("event", some (.str h.event)),
    ("transitions", some (.arr (h.transitions.map TransitionDef.toJson)))] := rfl

theorem Exact.toJson {h : Handler} (hh : h.Exact) : h.toJson.Exact := by
  rw [toJson_eq]
  refine .record ?_
  simp only [List.forall_mem_cons]
  exact ⟨.some (.str _), .some (.list fun t ht => (hh t ht).toJson), List.forall_mem_nil _⟩

theorem read_toJson (h : Handler) : ∀ {room : Nat}, h.Exact → h.toJson.depth ≤ room →
    read room (.ofJson h.toJson) = some h
  | 0, _, hroom => nomatch hroom
  | room + 1, hh, hroom => by
    rw [toJson_eq] at hroom ⊢
    refine Draft.read_record rfl (by decide) hroom fun known hfields => ?_
    simp only [List.forall_mem_cons] at hfields
    obtain ⟨hevent, htransitions, -⟩ := hfields
    have htransitions := htransitions.required fun hroom =>
      Draft.list?_ofJson hroom fun t ht _ => t.read_toJson (hh t ht)
    simp [hevent.text, htransitions]

end Handler

namespace Delay

/-- The time has 64 bits, and the transitions are as they are written. -/
structure Exact (d : Delay) : Prop where
  delayMs : d.delayMs ≤ maxNat64
  transitions : ∀ t ∈ d.transitions, t.Exact

instance (d : Delay) : Decidable d.Exact :=
  decidable_of_iff (d.delayMs ≤ maxNat64 ∧ ∀ t ∈ d.transitions, t.Exact)
    ⟨fun h => ⟨h.1, h.2⟩, fun h => ⟨h.delayMs, h.transitions⟩⟩

theorem toJson_eq (d : Delay) : d.toJson = .record [
    ("delay_ms", some (.ofNat d.delayMs)),
    ("transitions", some (.arr (d.transitions.map TransitionDef.toJson)))] := rfl

theorem Exact.toJson {d : Delay} (hd : d.Exact) : d.toJson.Exact := by
  rw [toJson_eq]
  refine .record ?_
  simp only [List.forall_mem_cons]
  exact ⟨.some (.ofNat hd.delayMs), .some (.list fun t ht => (hd.transitions t ht).toJson), List.forall_mem_nil _⟩

theorem read_toJson (d : Delay) : ∀ {room : Nat}, d.Exact → d.toJson.depth ≤ room →
    read room (.ofJson d.toJson) = some d
  | 0, _, hroom => nomatch hroom
  | room + 1, hd, hroom => by
    rw [toJson_eq] at hroom ⊢
    refine Draft.read_record rfl (by decide) hroom fun known hfields => ?_
    simp only [List.forall_mem_cons] at hfields
    obtain ⟨hdelay, htransitions, -⟩ := hfields
    have hdelay := hdelay.required fun _ => Draft.nat?_ofJson d.delayMs
    have htransitions := htransitions.required fun hroom =>
      Draft.list?_ofJson hroom fun t ht _ => t.read_toJson (hd.transitions t ht)
    simp [hdelay, htransitions]

end Delay

namespace InvocationDef

theorem exact_toJson (i : InvocationDef) : i.toJson.Exact := by
  refine .record ?_
  simp only [List.forall_mem_cons]
  exact ⟨.option .str, .some (.str _), List.forall_mem_nil _⟩

theorem read_toJson (i : InvocationDef) : ∀ {room : Nat}, i.toJson.depth ≤ room →
    read room (.ofJson i.toJson) = some i
  | 0, hroom => nomatch hroom
  | room + 1, hroom => by
    refine Draft.read_record rfl (by decide) hroom fun known hfields => ?_
    simp only [List.forall_mem_cons] at hfields
    obtain ⟨hid, hsrc, -⟩ := hfields
    simp [hid.optionalText, hsrc.text]

end InvocationDef

/-! ## Definitions -/

namespace Definition

mutual

/-- All numbers in a definition and its subtree are as they are written. -/
def Exact : Definition → Prop
  | ⟨_, _, _, _, _, _, states, on, always, after, onDone, entry, exit, _⟩ =>
    ExactAll states ∧ (∀ h ∈ on, h.Exact) ∧ (∀ t ∈ always, t.Exact) ∧ (∀ d ∈ after, d.Exact) ∧
      (∀ t ∈ onDone, t.Exact) ∧ (∀ a ∈ entry, a.Exact) ∧ ∀ a ∈ exit, a.Exact

/-- All numbers in a list of definitions and their subtrees are as they are written. -/
def ExactAll : List Definition → Prop
  | [] => True
  | d :: rest => Exact d ∧ ExactAll rest

end

mutual

/-- Whether the numbers of a definition have a written form is decided part by part. -/
def decExact : (d : Definition) → Decidable d.Exact
  | ⟨_, _, _, _, _, _, states, on, always, after, onDone, entry, exit, _⟩ =>
    have := decExactAll states
    inferInstanceAs (Decidable (ExactAll states ∧ (∀ h ∈ on, h.Exact) ∧ (∀ t ∈ always, t.Exact) ∧
      (∀ d ∈ after, d.Exact) ∧ (∀ t ∈ onDone, t.Exact) ∧ (∀ a ∈ entry, a.Exact) ∧
      ∀ a ∈ exit, a.Exact))

def decExactAll : (l : List Definition) → Decidable (ExactAll l)
  | [] => .isTrue trivial
  | d :: rest =>
    have := decExact d
    have := decExactAll rest
    inferInstanceAs (Decidable (Exact d ∧ ExactAll rest))

end

instance (d : Definition) : Decidable d.Exact := decExact d

theorem toJsonAll_eq (l : List Definition) : toJsonAll l = l.map toJson := by
  induction l with
  | nil => rfl
  | cons d l ih => rw [toJsonAll, ih, List.map_cons]

/-- The child states are written like every other list. -/
theorem listField_toJson (l : List Definition) :
    (if l.isEmpty then none else some (.arr (toJsonAll l))) = Json.listField toJson l := by
  rw [toJsonAll_eq, Json.listField]

theorem read_succ (room : Nat) (d : Draft) :
    read (room + 1) d = readRecord room (Draft.list? read room) d := by
  cases room with
  | zero => rfl
  | succ room =>
    rw [read]
    congr 1
    funext d
    cases d <;> rfl

mutual

theorem Exact.toJson : ∀ {d : Definition}, d.Exact → d.toJson.Exact
  | ⟨key, id, kind, initial, history, target, states, on, always, after, onDone, entry, exit,
      invoke⟩, hd => by
    obtain ⟨hstates, hon, halways, hafter, hdone, hentry, hexit⟩ := hd
    rw [Definition.toJson, listField_toJson]
    refine .record ?_
    simp only [List.forall_mem_cons]
    exact ⟨.some (.str _), .option .str, .option fun _ => .str _, .option .str,
      .option fun _ => .str _, .listField fun s _ => .str s,
      .listField (ExactAll.toJson hstates), .listField fun h hh => (hon h hh).toJson,
      .listField fun t ht => (halways t ht).toJson, .listField fun d hd => (hafter d hd).toJson,
      .listField fun t ht => (hdone t ht).toJson, .listField fun a ha => (hentry a ha).toJson,
      .listField fun a ha => (hexit a ha).toJson, .listField fun i _ => i.exact_toJson, List.forall_mem_nil _⟩

theorem ExactAll.toJson : ∀ {l : List Definition}, ExactAll l → ∀ d ∈ l, d.toJson.Exact
  | [], _ => nofun
  | _ :: _, hl => List.forall_mem_cons.mpr ⟨Exact.toJson hl.1, ExactAll.toJson hl.2⟩

end

mutual

/-- A definition is read back with its subtree, as deep as there is room. -/
theorem read_toJson : ∀ (d : Definition) {room : Nat}, d.Exact → d.toJson.depth ≤ room →
    read room (.ofJson d.toJson) = some d
  | ⟨_, _, _, _, _, _, _, _, _, _, _, _, _, _⟩, 0, _, hroom => nomatch hroom
  | ⟨key, id, kind, initial, history, target, states, on, always, after, onDone, entry, exit,
      invoke⟩, room + 1, hd, hroom => by
    obtain ⟨hstates, hon, halways, hafter, hdone, hentry, hexit⟩ := hd
    rw [toJson, listField_toJson] at hroom ⊢
    rw [read_succ]
    refine Draft.read_record rfl (by decide) hroom fun known hfields => ?_
    simp only [List.forall_mem_cons] at hfields
    obtain ⟨fkey, fid, fkind, finitial, fhistory, ftarget, fstates, fon, falways, fafter, fdone,
      fentry, fexit, finvoke, -⟩ := hfields
    simp [fkey.text, fid.optionalText, fkind.optionalWord Kind.ofWord?_word,
      finitial.optionalText, fhistory.optionalWord HistoryMode.ofWord?_word, ftarget.texts,
      fstates.list (read_toJsonAll states hstates),
      fon.list fun h hh _ => h.read_toJson (hon h hh),
      falways.list fun t ht _ => t.read_toJson (halways t ht),
      fafter.list fun d hd _ => d.read_toJson (hafter d hd),
      fdone.list fun t ht _ => t.read_toJson (hdone t ht),
      fentry.list fun a ha _ => a.read_toJson (hentry a ha),
      fexit.list fun a ha _ => a.read_toJson (hexit a ha),
      finvoke.list fun i _ _ => i.read_toJson]

theorem read_toJsonAll : ∀ (l : List Definition), ExactAll l → ∀ d ∈ l, ∀ {room : Nat},
    d.toJson.depth ≤ room → read room (.ofJson d.toJson) = some d
  | [], _ => nofun
  | d :: l, hl => List.forall_mem_cons.mpr
      ⟨read_toJson d hl.1, read_toJsonAll l hl.2⟩

end

/-- The text of a definition is read as that definition, whatever it has for keys and texts,
if its payloads have no floats and it nests at most as deep as can be read. -/
theorem text_round_trip {d : Definition} (hd : d.Exact) (hdepth : d.toJson.depth ≤ Draft.maxDepth) :
    ofText? d.render = some d := by
  simp [ofText?, render, Draft.ofText?_render hd.toJson, read_toJson d hd hdepth]

/-- A jukebox with a lamp, whose record plays for as long as can be waited. -/
def jukebox : Definition := {
  key := "jukebox"
  id := some "\"j\"\\"
  kind := some .parallel
  states := [
    { key := "player"
      initial := some "idle"
      states := [
        { key := "idle"
          on := [⟨"COIN", [
            { target := ["playing"], guard := some "enough", actions := [.named "count"] },
            { actions := [.raise {
                type := "REFUSED"
                payload := [
                  ("coins", .num (.int (-1))), ("why", .arr [.null, .str "a\tb\x07"])] }] }]⟩] },
        { key := "playing"
          entry := [.sendTo "arm" { type := "DOWN", origin := some "slot" }]
          after := [⟨18446744073709551615, [{ target := ["last"], reenter := true }]⟩]
          invoke := [{ src := "needle" }, { id := some "arm", src := "motor" }] },
        { key := "last", history := some .deep, target := ["idle"] },
        { key := "empty", kind := some .final }]
      onDone := [{}] },
    { key := "lamp é", always := [{ target := [], guard := some "" }], exit := [.named "\x7b"] }] }

theorem text_round_trip_jukebox : jukebox.Exact ∧ jukebox.toJson.depth ≤ Draft.maxDepth ∧
    ofText? jukebox.render = some jukebox := by
  have hexact : jukebox.Exact := by decide +kernel
  have hdepth : jukebox.toJson.depth ≤ Draft.maxDepth := by decide +kernel
  exact ⟨hexact, hdepth, text_round_trip hexact hdepth⟩

end Definition

end Statechart
