import Statechart.Proofs.Macrostep.Run
import Statechart.Search.Shortest

/-!
# Ways through the snapshots

What a search can come to, said without the search: the snapshots that candidates lead to
(`Reached`), and the plans along them, each with the places of its events among the candidates
(`Traced`). A search tells snapshots apart by their fingerprints only; it is right to do so if
fingerprints are `Consistent`.

* `run_bind`, `run_ofResult`, `run_foldlM`: what the parts of a search that succeeds give.
* `candidates_fingerprint`, `candidates_nodup`: candidates are told apart by their fingerprints.
* `Traced.reached`, `Reached.traced`: the snapshots reached are those at the ends of the plans.
* `Consistent.of_closed`: consistency is a matter of finitely many cases if the snapshots are
  finitely many.
-/
namespace Statechart.Search

variable {C E A : Type} {α β : Type}

/-! ## Searches that succeed -/

theorem run_pure {a b : α} : (pure a : Search α).run = some (.ok b) ↔ a = b := by
  simp [pure, ExceptT.run, ExceptT.pure, ExceptT.mk]

theorem run_bind {x : Search α} {f : α → Search β} {b : β} :
    (x >>= f).run = some (.ok b) ↔ ∃ a, x.run = some (.ok a) ∧ (f a).run = some (.ok b) := by
  rw [ExceptT.run_bind]
  rcases h : x.run with _ | _ | a <;> simp

theorem run_ofResult {r : Except Failure α} {a : α} :
    (ofResult r).run = some (.ok a) ↔ r = .ok a := by
  cases r <;> simp [ofResult, ExceptT.run, ExceptT.mk, Except.mapError]

theorem run_outOfFuel {a : α} : (outOfFuel : Search α).run ≠ some (.ok a) := by
  simp [outOfFuel, ExceptT.run, ExceptT.mk]

/-- What every step of a fold that succeeds keeps, the fold keeps. -/
theorem run_foldlM {f : β → α → Search β} {P : β → Prop} {l : List α}
    (hf : ∀ a ∈ l, ∀ b b', P b → (f b a).run = some (.ok b') → P b') {b b' : β} (hb : P b)
    (h : (l.foldlM f b).run = some (.ok b')) : P b' := by
  induction l generalizing b with
  | nil => exact run_pure.mp h ▸ hb
  | cons a l ih =>
    rw [List.foldlM_cons, run_bind] at h
    obtain ⟨next, hnext, h⟩ := h
    exact ih (fun a ha => hf a (List.mem_cons_of_mem _ ha))
      (hf a List.mem_cons_self b next hb hnext) h

/-- What one element of a list establishes and all keep, a fold that succeeds has. -/
theorem run_foldlM_of_mem {f : β → α → Search β} {P : β → Prop} {l : List α}
    (hf : ∀ a ∈ l, ∀ b b', P b → (f b a).run = some (.ok b') → P b') {a : α} (ha : a ∈ l)
    (hfa : ∀ b b', (f b a).run = some (.ok b') → P b') {b b' : β}
    (h : (l.foldlM f b).run = some (.ok b')) : P b' := by
  induction l generalizing b with
  | nil => exact absurd ha List.not_mem_nil
  | cons c l ih =>
    rw [List.foldlM_cons, run_bind] at h
    obtain ⟨next, hnext, h⟩ := h
    have hrest : ∀ a ∈ l, ∀ b b', P b → (f b a).run = some (.ok b') → P b' :=
      fun a ha => hf a (List.mem_cons_of_mem _ ha)
    rcases List.mem_cons.mp ha with rfl | ha
    · exact run_foldlM hrest (hfa b next hnext) h
    · exact ih hrest ha h

/-! ## Candidates -/

theorem distinct_fingerprint {fingerprint : Event → String} {seen : List String}
    {events : List Event} : ∀ e ∈ SearchOptions.distinct fingerprint seen events,
      e.1 = fingerprint e.2 ∧ e.1 ∉ seen := by
  induction events generalizing seen with
  | nil => exact fun e he => absurd he List.not_mem_nil
  | cons event events ih =>
    intro e he
    rw [SearchOptions.distinct] at he
    split at he
    · exact ih e he
    · rename_i hnew
      rcases List.mem_cons.mp he with rfl | he
      · exact ⟨rfl, hnew⟩
      · obtain ⟨hfp, hseen⟩ := ih e he
        exact ⟨hfp, fun hmem => hseen (List.mem_cons_of_mem _ hmem)⟩

theorem distinct_nodup (fingerprint : Event → String) (seen : List String) (events : List Event) :
    ((SearchOptions.distinct fingerprint seen events).map Prod.fst).Nodup := by
  induction events generalizing seen with
  | nil => exact .nil
  | cons event events ih =>
    rw [SearchOptions.distinct]
    split
    · exact ih seen
    · refine List.nodup_cons.mpr ⟨fun hmem => ?_, ih _⟩
      obtain ⟨e, he, heq⟩ := List.mem_map.mp hmem
      exact (distinct_fingerprint e he).2 (heq ▸ List.mem_cons_self)

/-- A candidate is kept with the fingerprint of its event. -/
theorem candidates_fingerprint {o : SearchOptions C} {s : Snapshot C} {e : String × Event}
    (he : e ∈ o.candidates s) : e.1 = o.eventFingerprint e.2 := (distinct_fingerprint e he).1

/-- No two candidates of a snapshot have one fingerprint. -/
theorem candidates_nodup (o : SearchOptions C) (s : Snapshot C) :
    ((o.candidates s).map Prod.fst).Nodup := distinct_nodup _ _ _

/-! ## Snapshots and plans -/

section

variable [BEq C]

/-- The snapshots that sequences of candidates lead to. -/
inductive Reached (m : Machine C E A) (o : SearchOptions C) : Snapshot C → Prop
  | start {s : Snapshot C} (h : m.initial = .ok s) : Reached m o s
  | next {s t : Snapshot C} {e : String × Event} (hs : Reached m o s) (he : e ∈ o.candidates s)
      (h : m.transition s e.2 = .ok t) : Reached m o t

/-- A plan whose events are those at given places among the candidates, one after the other. -/
inductive Traced (m : Machine C E A) (o : SearchOptions C) : List Nat → Plan C → Prop
  | start {s : Snapshot C} (h : m.initial = .ok s) :
      Traced m o [] { snapshot := s, fingerprint := o.snapshotFingerprint s }
  | extend {places : List Nat} {p : Plan C} {i : Nat} {e : String × Event} {t : Snapshot C}
      (hp : Traced m o places p) (he : (o.candidates p.snapshot)[i]? = some e)
      (h : m.transition p.snapshot e.2 = .ok t) :
      Traced m o (places ++ [i]) (p.extend e.2 t (o.snapshotFingerprint t))

/-- Snapshots of one fingerprint have the same candidates, and each leads on to snapshots of one
fingerprint. -/
structure Consistent (m : Machine C E A) (o : SearchOptions C) : Prop where
  candidates {s t : Snapshot C} (hs : Reached m o s) (ht : Reached m o t)
    (h : o.snapshotFingerprint s = o.snapshotFingerprint t) : o.candidates s = o.candidates t
  leads {s t s' t' : Snapshot C} {e : String × Event} (hs : Reached m o s) (ht : Reached m o t)
    (h : o.snapshotFingerprint s = o.snapshotFingerprint t) (he : e ∈ o.candidates s)
    (hs' : m.transition s e.2 = .ok s') (ht' : m.transition t e.2 = .ok t') :
    o.snapshotFingerprint s' = o.snapshotFingerprint t'

variable {m : Machine C E A} {o : SearchOptions C} {places : List Nat} {p q : Plan C}
  {s : Snapshot C}

namespace Traced

theorem fingerprint (h : Traced m o places p) :
    p.fingerprint = o.snapshotFingerprint p.snapshot := by
  cases h <;> rfl

theorem size (h : Traced m o places p) : p.size = places.length := by
  induction h with
  | start => rfl
  | extend _ _ _ ih =>
    simpa [Plan.size, Plan.extend] using ih

theorem reached (h : Traced m o places p) : Reached m o p.snapshot := by
  induction h with
  | start hs => exact .start hs
  | extend _ he ht ih => exact .next ih (List.mem_of_getElem? he) ht

theorem of_nil (h : Traced m o [] p) :
    ∃ s, m.initial = .ok s ∧ p = { snapshot := s, fingerprint := o.snapshotFingerprint s } := by
  generalize hplaces : ([] : List Nat) = places at h
  cases h with
  | start hs => exact ⟨_, hs, rfl⟩
  | extend => simp at hplaces

end Traced

theorem Reached.traced (h : Reached m o s) :
    ∃ places p, Traced m o places p ∧ p.snapshot = s := by
  induction h with
  | start hs => exact ⟨_, _, .start hs, rfl⟩
  | next _ he ht ih =>
    obtain ⟨places, p, hp, rfl⟩ := ih
    obtain ⟨i, hi⟩ := List.getElem?_of_mem he
    exact ⟨_, _, .extend hp hi ht, rfl⟩

/-- Candidates lead to snapshots that the machine can be in. -/
theorem Reached.reachable (h : Reached m o s) : m.Reachable s := by
  induction h with
  | start hs => exact Machine.reachable_of_initial hs
  | next _ _ ht ih => exact ih.transition ht

theorem Reached.foldlM_transition {t : Snapshot C} {events : List Event} (hs : Reached m o s)
    (hall : ∀ event ∈ events, ∀ s, ∃ e ∈ o.candidates s, e.2 = event)
    (h : events.foldlM m.transition s = .ok t) : Reached m o t := by
  induction events generalizing s with
  | nil => exact pure_ok.mp h ▸ hs
  | cons event rest ih =>
    rw [List.foldlM_cons, bind_ok] at h
    obtain ⟨u, hu, h⟩ := h
    obtain ⟨e, he, rfl⟩ := hall event (by simp) s
    exact ih (hs.next he hu) (fun event hevent => hall event (by simp [hevent])) h

/-! ## Finitely many snapshots -/

/-- What holds at the start and is kept by candidates holds of everything reached. -/
theorem Reached.mem_of_closed {snapshots : List (Snapshot C)}
    (hstart : ∀ s ∈ m.initial.toOption, s ∈ snapshots)
    (hnext : ∀ s ∈ snapshots, ∀ e ∈ o.candidates s, ∀ t ∈ (m.transition s e.2).toOption,
      t ∈ snapshots) (h : Reached m o s) : s ∈ snapshots := by
  induction h with
  | start hs => exact hstart _ (by simp [hs, Except.toOption])
  | next _ he ht ih => exact hnext _ ih _ he _ (by simp [ht, Except.toOption])

/-- Consistency is checked on any list of snapshots that candidates do not lead out of. -/
theorem Consistent.of_closed (snapshots : List (Snapshot C))
    (hstart : ∀ s ∈ m.initial.toOption, s ∈ snapshots)
    (hnext : ∀ s ∈ snapshots, ∀ e ∈ o.candidates s, ∀ t ∈ (m.transition s e.2).toOption,
      t ∈ snapshots)
    (hsame : ∀ s ∈ snapshots, ∀ t ∈ snapshots,
      o.snapshotFingerprint s = o.snapshotFingerprint t →
        o.candidates s = o.candidates t ∧ ∀ e ∈ o.candidates s,
          (m.transition s e.2).toOption.map o.snapshotFingerprint =
            (m.transition t e.2).toOption.map o.snapshotFingerprint) :
    Consistent m o where
  candidates hs ht h :=
    (hsame _ (hs.mem_of_closed hstart hnext) _ (ht.mem_of_closed hstart hnext) h).1
  leads {s t s' t' e} hs ht h he hs' ht' := by
    have hs := hs.mem_of_closed hstart hnext
    have ht := ht.mem_of_closed hstart hnext
    have hmap := (hsame s hs t ht h).2 e he
    simpa [hs', ht', Except.toOption] using hmap

end

end Statechart.Search
