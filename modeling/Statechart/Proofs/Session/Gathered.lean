import Statechart.Proofs.Macrostep.Renumbered
import Statechart.Proofs.Session.Shadow

/-!
# Handlers and delays put together

A state whose handlers name one event more than once comes to the same as the state with one
handler for the event (`Definition.gathered`): the transitions get other numbers, and no session
can tell. With delays it is not so. Every entry of a delay is scheduled for itself, whatever its
transitions are, so the transitions of a delay can be put together only where its later entries
stay behind without transitions; leaving these out (`Definition.merged`) leaves timers out.

* `replies_gathered`: every definition against what is put together of it.
* `egg_rings_twice`: a delay in two entries, which rings twice.
-/
namespace Statechart

variable {C E A : Type} [BEq C] {m m' : Machine C E A}

theorem Machine.Renumbered.interchangeable (h : m.Renumbered m') : m.Interchangeable m' where
  startStep mode := h.startStep mode
  step s event mode := h.step mode s event
  exitStep s mode := h.exitStep mode s
  registry := h.registry

namespace Session

/-- Handlers of one event can be put together, and so can the transitions of one delay, if the
later entries of the delay are kept: all calls answer the same, and come to the same session but
for the machine. To leave those entries out is to leave out all timers but the first of a delay;
so it makes no difference where no state names a delay twice. -/
theorem replies_gathered {registry : Registry C E A} {context : C} {maxMicrosteps : Nat}
    {d : Definition} (hb : Machine.build registry context maxMicrosteps d = .ok m) :
    (∃ m', Machine.build registry context maxMicrosteps d.gathered = .ok m' ∧
      ∀ name journalLimit calls, (ofMachine m' name journalLimit).replies calls =
        ((ofMachine m name journalLimit).replies calls).map fun r => (r.1, r.2.withMachine m')) ∧
    (∃ m', Machine.build registry context maxMicrosteps d.merged = .ok m' ∧
      ∀ name journalLimit calls, (ofMachine m' name journalLimit).replies calls =
        ((ofMachine m.once name journalLimit).replies calls).map
          fun r => (r.1, r.2.withMachine m')) ∧
    (d.NoDelayTwice → d.merged = d.gathered) := by
  obtain ⟨g, hg, hgathered⟩ := Machine.renumbered_gathered hb
  obtain ⟨m', hm', hmerged⟩ := Machine.renumbered_merged hb
  exact ⟨⟨g, hg, replies_of_interchangeable hgathered.interchangeable⟩,
    ⟨m', hm', replies_of_interchangeable hmerged.interchangeable⟩, Definition.merged_eq_gathered⟩

/-- What kitchen machines have registered; the context is the number of rings so far. -/
def kitchen : Registry Nat Unit Unit where
  guards := [("quiet", .ofContext (· == 0)), ("late", .ofContext (3 ≤ ·))]
  actions := [("ring", .ofAssign fun rings _ => rings + 1)]

/-- A toaster whose lever has two handlers: pushed down it toasts while all is quiet, and rings
otherwise. -/
def toaster : Definition where
  key := "toaster"
  initial := "up"
  states := [
    { key := "up"
      on := [⟨"PUSH", [{ target := ["down"], guard := "quiet" }]⟩, ⟨"PULL", [{}]⟩,
        ⟨"PUSH", [{ actions := [.named "ring"] }]⟩] },
    { key := "down", after := [⟨90, [{ target := ["up"], actions := [.named "ring"] }]⟩] }]

/-- The lever of the toaster in one handler. -/
theorem replies_toaster : ∃ m m', Machine.build kitchen 0 10 toaster = .ok m ∧
    Machine.build kitchen 0 10 toaster.merged = .ok m' ∧
    (m.chart.node 1).menu (some "PUSH") = [0, 2] ∧ (m'.chart.node 1).menu (some "PUSH") = [0, 1] ∧
    ∀ name journalLimit calls, (ofMachine m' name journalLimit).replies calls =
      ((ofMachine m name journalLimit).replies calls).map fun r => (r.1, r.2.withMachine m') := by
  have hb : Machine.build kitchen 0 10 toaster = .ok (Machine.buildD kitchen 0 10 toaster) :=
    Machine.build_eq_buildD (by decide +kernel)
  have hb' : Machine.build kitchen 0 10 toaster.merged =
      .ok (Machine.buildD kitchen 0 10 toaster.merged) :=
    Machine.build_eq_buildD (by decide +kernel)
  obtain ⟨⟨m', hm', hreplies⟩, -, hmerged⟩ := replies_gathered hb
  have htwice : toaster.NoDelayTwice := by
    simp [toaster, Definition.NoDelayTwice, Definition.NoDelayTwiceAll]
  rw [← hmerged htwice, hb'] at hm'
  cases hm'
  exact ⟨_, _, hb, hb', by decide +kernel, by decide +kernel, hreplies⟩

/-- An egg that is put away when it has rung enough, and rings otherwise: in two entries of one
delay. -/
def egg : Definition where
  key := "egg"
  initial := "boiling"
  states := [
    { key := "boiling"
      after := [⟨10, [{ target := ["away"], guard := "late" }]⟩,
        ⟨10, [{ actions := [.named "ring"] }]⟩] },
    { key := "away" }]

/-- The egg rings twice: two timers wait for it, and there is one with its entries merged. -/
theorem egg_rings_twice : ∃ m m' s s' t t', Machine.build kitchen 0 10 egg = .ok m ∧
    Machine.build kitchen 0 10 egg.merged = .ok m' ∧
    ((ofMachine m "egg" none).after 5 .start = some s ∧ s.timers.pending.length = 2 ∧
      s.after 5 (.advance 10) = some t ∧ t.snapshot.map Snapshot.context = some 2) ∧
    (ofMachine m' "egg" none).after 5 .start = some s' ∧ s'.timers.pending.length = 1 ∧
      s'.after 5 (.advance 10) = some t' ∧ t'.snapshot.map Snapshot.context = some 1 := by
  have hrings : ∀ (m : Machine Nat Unit Unit) (n : Nat),
      ((ofMachine m "egg" none).after 5 .start).any (fun s =>
        decide (s.timers.pending.length = n) && (s.after 5 (.advance 10)).any fun t =>
          decide (t.snapshot.map Snapshot.context = some n)) = true →
      ∃ s t, (ofMachine m "egg" none).after 5 .start = some s ∧ s.timers.pending.length = n ∧
        s.after 5 (.advance 10) = some t ∧ t.snapshot.map Snapshot.context = some n := by
    intro m n h
    obtain ⟨s, hs, h⟩ := (Option.any_eq_true _ _).mp h
    obtain ⟨htimers, h⟩ := Bool.and_eq_true_iff.mp h
    obtain ⟨t, ht, hcontext⟩ := (Option.any_eq_true _ _).mp h
    exact ⟨s, t, hs, of_decide_eq_true htimers, ht, of_decide_eq_true hcontext⟩
  have hb : Machine.build kitchen 0 10 egg = .ok (Machine.buildD kitchen 0 10 egg) :=
    Machine.build_eq_buildD (by decide +kernel)
  have hb' : Machine.build kitchen 0 10 egg.merged =
      .ok (Machine.buildD kitchen 0 10 egg.merged) :=
    Machine.build_eq_buildD (by decide +kernel)
  obtain ⟨s, t, hsplit⟩ := hrings (Machine.buildD kitchen 0 10 egg) 2 (by decide +kernel)
  obtain ⟨s', t', hmerged⟩ := hrings (Machine.buildD kitchen 0 10 egg.merged) 1 (by decide +kernel)
  exact ⟨_, _, s, s', t, t', hb, hb', hsplit, hmerged⟩

end Session

end Statechart
