import Statechart.Proofs.Json.Blanks
import Statechart.Proofs.Macrostep.Alike
import Statechart.Proofs.Search.Traced

/-!
# What is dropped with a fingerprint

Of the events that are offered in a snapshot, only the first with each fingerprint is tried. By
default the fingerprint of an event is its type and the text of its payload. Both can be told
from it, unless an event without a payload has a type that reads like the type and the payload
of another one (`Event.Spells`); the origin is not in it. So nothing is lost with the events that
are dropped if no type spells another event out and no guard or action looks at origins, and
something may be lost if one does.

* `Event.same_fingerprint_iff`: events of one fingerprint.
* `Registry.blindToOrigin_of_origin`: events that differ in more than their origins.
* `Search.candidates_suffice`: when trying the candidates is as good as trying every event.
* `Search.candidates_lose`: a search that misses a state for what was dropped.
-/
namespace Statechart

/-! ## Events of one fingerprint -/

namespace Event

/-- The type of an event without a payload reads like the type and the payload of another one. -/
def Spells (a b : Event) : Prop :=
  a.payload = [] ∧ b.payload ≠ [] ∧ a.type = b.type ++ " " ++ (Json.obj b.payload).render

theorem fingerprint_of_payload {e : Event} (h : e.payload ≠ []) :
    e.fingerprint = e.type ++ " " ++ (Json.obj e.payload).render := by
  rw [fingerprint, if_neg (by simpa using h)]

theorem fingerprint_of_no_payload {e : Event} (h : e.payload = []) : e.fingerprint = e.type := by
  rw [fingerprint, if_pos (by simpa using h)]

theorem fingerprint_toList {e : Event} (h : e.payload ≠ []) :
    e.fingerprint.toList = e.type.toList ++ ' ' :: (Json.obj e.payload).write [] := by
  simp [fingerprint_of_payload h, Json.render]

/-- Events of one fingerprint have one type and one payload, or the type of one of them
spells the other out. -/
theorem same_fingerprint_iff {a b : Event} (ha : Json.RepresentableFields a.payload)
    (hb : Json.RepresentableFields b.payload) :
    a.fingerprint = b.fingerprint ↔
      (a.type = b.type ∧ a.payload = b.payload) ∨ a.Spells b ∨ b.Spells a := by
  constructor
  · intro h
    by_cases hpa : a.payload = []
    · by_cases hpb : b.payload = []
      · rw [fingerprint_of_no_payload hpa, fingerprint_of_no_payload hpb] at h
        exact .inl ⟨h, hpa.trans hpb.symm⟩
      · rw [fingerprint_of_no_payload hpa, fingerprint_of_payload hpb] at h
        exact .inr (.inl ⟨hpa, hpb, h⟩)
    · by_cases hpb : b.payload = []
      · rw [fingerprint_of_payload hpa, fingerprint_of_no_payload hpb] at h
        exact .inr (.inr ⟨hpb, hpa, h.symm⟩)
      · have htext := congrArg String.toList h
        rw [fingerprint_toList hpa, fingerprint_toList hpb] at htext
        have htype := Json.eq_of_blank (i := .obj a.payload) (j := .obj b.payload) ha hb htext
        rw [htype] at htext
        have hpayload := (Json.write_inj (.obj a.payload) (.obj b.payload) ha hb Json.stops_nil
          Json.stops_nil (List.cons.inj (List.append_cancel_left htext)).2).1
        exact .inl ⟨String.toList_inj.mp htype, Json.obj.inj hpayload⟩
  · rintro (⟨htype, hpayload⟩ | ⟨hpa, hpb, htype⟩ | ⟨hpb, hpa, htype⟩)
    · rw [fingerprint, fingerprint, htype, hpayload]
    · rw [fingerprint_of_no_payload hpa, fingerprint_of_payload hpb, htype]
    · rw [fingerprint_of_payload hpa, fingerprint_of_no_payload hpb, htype]

end Event

/-- Guards and actions do not tell some events apart that differ in their origins only. -/
def Registry.BlindToOrigin {C E A : Type} (r : Registry C E A) (events : List Event) : Prop :=
  ∃ S, r.Blind Eq S ∧
    ∀ a ∈ events, ∀ b ∈ events, a.type = b.type → a.payload = b.payload → S a b

/-- No guard or action can, if there are no two such events. -/
theorem Registry.blindToOrigin_of_origin {C E A : Type} (r : Registry C E A) {events : List Event}
    (h : ∀ a ∈ events, ∀ b ∈ events, a.type = b.type → a.payload = b.payload →
      a.origin = b.origin) : r.BlindToOrigin events := by
  refine ⟨Eq, r.blind_eq, fun a ha b hb htype hpayload => ?_⟩
  have horigin := h a ha b hb htype hpayload
  cases a
  cases b
  simp_all

/-! ## Candidates -/

namespace Search

/-- For every event there is one of its fingerprint that is kept, or was seen before. -/
theorem exists_mem_distinct {fingerprint : Event → String} {seen : List String}
    {events : List Event} : ∀ e ∈ events, fingerprint e ∈ seen ∨
      ∃ k ∈ events, fingerprint k = fingerprint e ∧
        (fingerprint e, k) ∈ SearchOptions.distinct fingerprint seen events := by
  induction events generalizing seen with
  | nil => exact fun e he => absurd he List.not_mem_nil
  | cons first rest ih =>
    intro e he
    rw [SearchOptions.distinct]
    split
    · rename_i hseen
      rcases List.mem_cons.mp he with rfl | he
      · exact .inl hseen
      · refine (ih e he).imp_right ?_
        rintro ⟨k, hk, hfp, hmem⟩
        exact ⟨k, List.mem_cons_of_mem _ hk, hfp, hmem⟩
    · rcases List.mem_cons.mp he with rfl | he
      · exact .inr ⟨e, List.mem_cons_self, rfl, List.mem_cons_self⟩
      · rcases ih e he with hseen | ⟨k, hk, hfp, hmem⟩
        · rcases List.mem_cons.mp hseen with hfirst | hseen
          · exact .inr ⟨first, List.mem_cons_self, hfirst.symm, hfirst ▸ List.mem_cons_self⟩
          · exact .inl hseen
        · exact .inr ⟨k, List.mem_cons_of_mem _ hk, hfp, List.mem_cons_of_mem _ hmem⟩

variable {C E A : Type} {o : SearchOptions C} {s : Snapshot C}

theorem exists_candidate {e : Event} (he : e ∈ o.offered s) :
    ∃ k ∈ o.offered s, o.eventFingerprint k = o.eventFingerprint e ∧
      (o.eventFingerprint e, k) ∈ o.candidates s :=
  (exists_mem_distinct e he).resolve_left List.not_mem_nil

/-- With the default fingerprint of events nothing is lost with those that are dropped, if no
type of an event spells another one out, and guards and actions do not tell apart those that
differ in their origins only: every event that is offered has a candidate of its type and payload
that fails where it fails, and leads to the same configuration, context and history elsewhere. -/
theorem candidates_suffice [BEq C] {m : Machine C E A} (ho : o.eventFingerprint = Event.fingerprint)
    (hfloats : ∀ e ∈ o.offered s, Json.RepresentableFields e.payload)
    (hspell : ∀ a ∈ o.offered s, ∀ b ∈ o.offered s, ¬ a.Spells b)
    (horigin : m.registry.BlindToOrigin (o.offered s)) :
    ∀ e ∈ o.offered s, ∃ k ∈ o.candidates s,
      k.2 ∈ o.offered s ∧ k.2.type = e.type ∧ k.2.payload = e.payload ∧
      Both Snapshot.SameState (m.transition s e) (m.transition s k.2) := by
  intro e he
  obtain ⟨k, hk, hfp, hmem⟩ := exists_candidate he
  obtain ⟨S, hblind, hS⟩ := horigin
  rw [ho] at hfp
  obtain ⟨htype, hpayload⟩ : k.type = e.type ∧ k.payload = e.payload := by
    rcases (Event.same_fingerprint_iff (hfloats k hk) (hfloats e he)).mp hfp with h | h | h
    · exact h
    · exact absurd h (hspell k hk e he)
    · exact absurd h (hspell e he k hk)
  exact ⟨_, hmem, hk, htype, hpayload,
    transition_alike hblind s htype.symm (hS e he k hk htype.symm hpayload.symm)⟩

/-! ## A doorbell, and a gate -/

/-- A doorbell that is heard if it is rung for long enough. -/
def doorbell : Definition := {
  key := "doorbell"
  initial := some "still"
  states := [
    { key := "still", on := [⟨"RING", [{ target := ["heard"], guard := some "long" }]⟩] },
    { key := "heard" }] }

def half : Binary64 := ⟨false, 2 ^ 52, -53⟩

def tenth : Binary64 := ⟨false, 7205759403792794, -56⟩

/-- Somebody rings at the door. -/
def ring (seconds : Binary64) (origin : Option String) : Event :=
  { type := "RING", payload := [("seconds", .num (.float seconds))], origin }

def isLong (e : Event) : Bool := e.get? "seconds" == some (.num (.float half))

def doorbellRegistry : Registry Unit Unit Unit := { guards := [("long", .ofEvent isLong)] }

/-- The doorbell hears how long it is rung, and nothing else. -/
theorem doorbellRegistry_blind : doorbellRegistry.Blind Eq fun a b => a.payload = b.payload where
  refl _ := rfl
  guard := by
    intro name g hg c c' e e' _ hpayload
    obtain ⟨-, rfl⟩ : "long" = name ∧ Guard.ofEvent isLong = g := by
      simpa [Registry.guard?, doorbellRegistry, Dict.get?] using hg
    have hlong : isLong e = isLong e' := by simp only [isLong, Event.get?, hpayload]
    exact .ok hlong
  assign h := by cases h
  effect h := by cases h

def doorbellMachine : Machine Unit Unit Unit := .buildD doorbellRegistry () 10 doorbell

def doorbellOptions : SearchOptions Unit :=
  { events := [ring tenth (some "front"), ring half (some "front"), ring half (some "back")]
    cases := [("RING", [[("seconds", .num (.float half))]])]
    snapshotFingerprint := Snapshot.fingerprint fun _ => .null }

theorem offered_doorbell (s : Snapshot Unit) : doorbellOptions.offered s =
    [ring tenth (some "front"), ring half (some "front"), ring half (some "back"),
      ring half none] := rfl

/-- Who rings the doorbell does not matter, so one candidate is enough for those who ring for
long. -/
theorem candidates_suffice_doorbell : ∃ s t : Snapshot Unit,
    Machine.build doorbellRegistry () 10 doorbell = .ok doorbellMachine ∧
    doorbellMachine.Reachable s ∧ (doorbellOptions.candidates s).length = 2 ∧
    doorbellMachine.transition s (ring half (some "back")) = .ok t ∧ t.matches? "heard" = true ∧
    ∀ e ∈ doorbellOptions.offered s, ∃ k ∈ doorbellOptions.candidates s,
      k.2 ∈ doorbellOptions.offered s ∧ k.2.type = e.type ∧ k.2.payload = e.payload ∧
      Both Snapshot.SameState (doorbellMachine.transition s e)
        (doorbellMachine.transition s k.2) := by
  have hb : Machine.build doorbellRegistry () 10 doorbell = .ok doorbellMachine :=
    Machine.build_eq_buildD (by decide +kernel)
  have hrun : (do
      let s ← doorbellMachine.initial
      let t ← doorbellMachine.transition s (ring half (some "back"))
      return decide ((doorbellOptions.candidates s).length = 2) && t.matches? "heard") =
        .ok true := by decide +kernel
  simp only [bind_ok, pure_ok, Bool.and_eq_true, decide_eq_true_eq] at hrun
  obtain ⟨s, hs, t, ht, htwo, hheard⟩ := hrun
  refine ⟨s, t, hb, Machine.reachable_of_initial hs, htwo, ht, hheard,
    candidates_suffice rfl ?_ ?_ ?_⟩
  · have htenth : tenth.Canonical := by decide
    have hhalf : half.Canonical := by decide
    simp [offered_doorbell, ring, Json.RepresentableFields, Json.Representable, htenth, hhalf]
  · rintro a ha b - ⟨hpayload, -⟩
    rw [offered_doorbell] at ha
    revert a
    simp [ring]
  · refine ⟨fun a b => a.payload = b.payload, ?_, fun a _ b _ _ hpayload => hpayload⟩
    exact doorbellRegistry_blind

/-- A gate that opens for its keeper, and lets pass who calls. -/
def gate : Definition := {
  key := "gate"
  initial := some "shut"
  states := [
    { key := "shut"
      on := [⟨"OPEN", [{ target := ["open"], guard := some "keeper" }]⟩,
        ⟨"PASS", [{ target := ["open"] }]⟩] },
    { key := "open" }] }

def gateRegistry : Registry Unit Unit Unit :=
  { guards := [("keeper", .ofEvent fun e => e.origin == some "keeper")] }

def gateMachine : Machine Unit Unit Unit := .buildD gateRegistry () 10 gate

/-- Somebody wants the gate to be opened. -/
def knock (origin : String) : Event := { type := "OPEN", origin := some origin }

def pass : Event := { type := "PASS", payload := [("n", .num (.int 1))] }

/-- An event that the gate does not know. -/
def misspelled : Event := { type := "PASS \x7b\"n\":1\x7d" }

def gateOptions : SearchOptions Unit :=
  { events := [knock "guest", knock "keeper", misspelled, pass]
    snapshotFingerprint := Snapshot.fingerprint fun _ => .null }

theorem offered_gate (s : Snapshot Unit) : gateOptions.offered s =
    [knock "guest", knock "keeper", misspelled, pass] := rfl

theorem candidates_gate (s : Snapshot Unit) : gateOptions.candidates s =
    [("OPEN", knock "guest"), ("PASS \x7b\"n\":1\x7d", misspelled)] := by
  rw [SearchOptions.candidates, offered_gate]
  decide +kernel

/-- Something can be lost with what is dropped: the keeper's call, which differs from the
guest's in its origin, and a pass, which an unknown type spells out. Either of them opens the
gate, no candidate does, and a search finds no way through it. -/
theorem candidates_lose : ∃ s : Snapshot Unit,
    Machine.build gateRegistry () 10 gate = .ok gateMachine ∧ gateMachine.Reachable s ∧
    (∀ e ∈ [knock "keeper", pass], e ∈ gateOptions.offered s ∧
      ∀ k ∈ gateOptions.candidates s,
        ¬ Both Snapshot.SameState (gateMachine.transition s e) (gateMachine.transition s k.2)) ∧
    (Search.shortestTo gateMachine gateOptions 5 (·.matches? "open")).run = some (.ok []) := by
  have hb : Machine.build gateRegistry () 10 gate = .ok gateMachine :=
    Machine.build_eq_buildD (by decide +kernel)
  have hrun : (do
      let s ← gateMachine.initial
      let opened ← gateMachine.transition s (knock "keeper")
      let passed ← gateMachine.transition s pass
      let refused ← gateMachine.transition s (knock "guest")
      let missed ← gateMachine.transition s misspelled
      return decide (opened.configuration = passed.configuration) &&
        decide (refused.configuration = missed.configuration) &&
        decide (opened.configuration ≠ refused.configuration)) = .ok true := by decide +kernel
  have hfound : (Search.shortestTo gateMachine gateOptions 5 (·.matches? "open")).run =
      some (.ok []) := by decide +kernel
  simp only [bind_ok, pure_ok, Bool.and_eq_true, decide_eq_true_eq] at hrun
  obtain ⟨s, hs, opened, hopened, passed, hpassed, refused, hrefused, missed, hmissed,
    ⟨hopen, hshut⟩, hne⟩ := hrun
  have hapart {x y : Except Failure (Snapshot Unit)} {t u : Snapshot Unit} (hx : x = .ok t)
      (hy : y = .ok u) (h : t.configuration ≠ u.configuration) :
      ¬ Both Snapshot.SameState x y := by
    rintro (_ | hsame)
    · cases hx
    · cases hx
      cases hy
      exact h hsame.configuration
  refine ⟨s, hb, Machine.reachable_of_initial hs, ?_, hfound⟩
  rw [candidates_gate, offered_gate]
  simp only [List.forall_mem_cons]
  exact ⟨⟨by simp, hapart hopened hrefused hne, hapart hopened hmissed (hshut ▸ hne), by simp⟩,
    ⟨by simp, hapart hpassed hrefused (hopen ▸ hne),
      hapart hpassed hmissed (hopen ▸ hshut ▸ hne), by simp⟩, by simp⟩

end Search

end Statechart
