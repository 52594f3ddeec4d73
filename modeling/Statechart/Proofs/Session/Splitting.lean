import Statechart.Proofs.Session.Clock
import Statechart.Proofs.Session.Untimed

/-!
# Letting time pass in parts

Whether time passes at once or in two parts makes no difference. What is due in the first part
fires in the same order either way, since a timer that goes first by some time goes first by
any later time. Between the parts the queue and the mailbox are empty, so the second part
begins with nothing to work off; and that the clock was put forward at the end of the first
part is forgotten with the next timer that fires, which sets the clock to the time it was due.

Only a session that ends in the first part can tell the difference: its clock does not go on
in the second part, where there is nothing left to fire.

* `fire?_before`, `fire?_after`: firing by a time, and then by a later one.
* `fire?_waited`: firing after the clock was put forward.
* `advance_split`, `advance_join`: one call for two, and two for one.
* `advance_add`: the same with times of day, which may be others in every call.
-/
namespace Statechart

theorem Timers.advanceTo_advanceTo {limit later : Nat} (t : Timers) (hle : limit ≤ later) :
    (t.advanceTo limit).advanceTo later = t.advanceTo later := by
  have hnow : max (max t.now limit) later = max t.now later := by omega
  simp only [advanceTo, hnow]

namespace Session

variable {C E A : Type} {s t u v : Session C E A} {fuel more limit later ms a b : Nat}

/-- A session with its clock put forward. -/
def waited (s : Session C E A) (limit : Nat) : Session C E A :=
  { s with timers := s.timers.advanceTo limit }

theorem waited_waited (s : Session C E A) (hle : limit ≤ later) :
    (s.waited limit).waited later = s.waited later := by
  unfold waited
  rw [Timers.advanceTo_advanceTo _ hle]

/-- There is nothing to work off. -/
structure Idle (s : Session C E A) : Prop where
  mailbox : s.mailbox = []
  queue : s.status = .running → s.queue = [] ∨ s.snapshot = none

variable [BEq C]

/-- What working off the queue leads to if it succeeds. -/
def drain? (fuel : Nat) (s : Session C E A) : Option (Session C E A) :=
  (s.drain fuel).bind Reply.ok?

/-- What firing the timers due by a time leads to if it succeeds. -/
def fire? (limit fuel : Nat) (s : Session C E A) : Option (Session C E A) :=
  (s.fire limit fuel).bind Reply.ok?

/-! ## Sessions with nothing to work off -/

theorem Idle.turn (h : Idle s) : s.turn = .idle s := by
  have hcollect := collect_of_nil h.mailbox
  have hidle := turn_eq_idle (s := s) (by rw [hcollect]; exact h.queue)
  rw [hidle, hcollect]

theorem Idle.of_turn (h : s.turn = .idle t) : Idle t := by
  obtain ⟨rfl, hidle⟩ := of_turn_idle h
  exact ⟨by rw [collect_eq], hidle⟩

theorem Idle.drain? (h : Idle s) : s.drain? (fuel + 1) = some s := by
  rw [Session.drain?, drain, h.turn]
  rfl

theorem Idle.of_drain? : ∀ {fuel : Nat} {s : Session C E A}, s.drain? fuel = some t → Idle t := by
  intro fuel
  induction fuel with
  | zero => intro s h; cases h
  | succ fuel ih =>
    intro s h
    rw [Session.drain?, drain] at h
    cases ht : s.turn with
    | idle u => rw [ht] at h; cases h; exact .of_turn ht
    | failed failure u => rw [ht] at h; cases h
    | again u => rw [ht] at h; exact ih h

theorem drain?_mono (h : s.drain? fuel = some t) (hle : fuel ≤ more) : s.drain? more = some t := by
  obtain ⟨r, hr, hok⟩ := Option.bind_eq_some_iff.mp h
  exact Option.bind_eq_some_iff.mpr ⟨r, drain_mono hr hle, hok⟩

/-! ## Firing by a time and by a later one -/

theorem fire?_mono (h : s.fire? limit fuel = some t) (hle : fuel ≤ more) :
    s.fire? limit more = some t := by
  obtain ⟨r, hr, hok⟩ := Option.bind_eq_some_iff.mp h
  exact Option.bind_eq_some_iff.mpr ⟨r, fire_mono hr hle, hok⟩

theorem fire?_of_not_running (hs : s.status ≠ .running) : s.fire? limit (fuel + 1) = some s := by
  rw [fire?, fire, if_pos hs]
  rfl

theorem fire?_of_none (hn : s.timers.take? limit = none) : s.fire? limit (fuel + 1) = some s := by
  rw [fire?, fire, hn]
  split <;> rfl

theorem fire?_of_some {timer : Timer} {timers : Timers} (hs : s.status = .running)
    (ht : s.timers.take? limit = some (timer, timers)) :
    s.fire? limit (fuel + 1) =
      ((s.fired timer timers).drain? fuel).bind (fire? limit fuel) := by
  rw [fire?, fire, if_neg (not_not_intro hs), ht]
  change (((s.fired timer timers).drain fuel).bind _).bind _ = _
  rw [drain?]
  cases (s.fired timer timers).drain fuel with
  | none => rfl
  | some reply =>
    obtain ⟨answer, u⟩ := reply
    cases answer <;> rfl

/-- What is fired by a later time is fired by an earlier one first. -/
theorem fire?_before (hle : limit ≤ later) : ∀ {fuel : Nat} {s : Session C E A},
    s.fire? later fuel = some t →
      ∃ u, s.fire? limit fuel = some u ∧ u.fire? later fuel = some t := by
  intro fuel
  induction fuel with
  | zero => intro s h; cases h
  | succ fuel ih =>
    intro s h
    by_cases hs : s.status = .running
    · cases ht : s.timers.take? limit with
      | none => exact ⟨s, fire?_of_none ht, h⟩
      | some next =>
        -- the timer that fires now is the same for both times
        rw [fire?_of_some hs (Timers.take?_of_le ht hle)] at h
        obtain ⟨v, hd, hf⟩ := Option.bind_eq_some_iff.mp h
        obtain ⟨u, hu, hrest⟩ := ih hf
        refine ⟨u, ?_, fire?_mono hrest (Nat.le_succ _)⟩
        rw [fire?_of_some hs ht]
        exact Option.bind_eq_some_iff.mpr ⟨v, hd, hu⟩
    · exact ⟨s, fire?_of_not_running hs, h⟩

/-- What is fired by a time, and then by a later one, is fired by the later one. -/
theorem fire?_after (hle : limit ≤ later) (ht : u.fire? later more = some t) :
    ∀ {fuel : Nat} {s : Session C E A}, s.fire? limit fuel = some u →
      s.fire? later (fuel + more) = some t := by
  intro fuel
  induction fuel with
  | zero => intro s h; cases h
  | succ fuel ih =>
    intro s h
    by_cases hs : s.status = .running
    · cases hn : s.timers.take? limit with
      | none =>
        rw [fire?_of_none hn] at h
        cases h
        exact fire?_mono ht (Nat.le_add_left _ _)
      | some next =>
        rw [fire?_of_some hs hn] at h
        obtain ⟨v, hd, hf⟩ := Option.bind_eq_some_iff.mp h
        rw [Nat.succ_add, fire?_of_some hs (Timers.take?_of_le hn hle)]
        exact Option.bind_eq_some_iff.mpr ⟨v, drain?_mono hd (Nat.le_add_right _ _), ih hf⟩
    · rw [fire?_of_not_running hs] at h
      cases h
      exact fire?_mono ht (Nat.le_add_left _ _)

/-- That the clock was put forward first makes no difference in the end. -/
theorem fire?_waited (hle : limit ≤ later) (hn : s.status = .running → s.timers.take? limit = none) :
    ((s.waited limit).fire? later fuel).map (waited · later) =
      (s.fire? later fuel).map (waited · later) := by
  cases fuel with
  | zero => rfl
  | succ fuel =>
    have hstill : (some (s.waited limit)).map (waited · later) = (some s).map (waited · later) :=
      congrArg some (waited_waited s hle)
    by_cases hs : s.status = .running
    · have hnext : (s.waited limit).timers.take? later = s.timers.take? later :=
        Timers.take?_advanceTo (hn hs)
      cases ht : s.timers.take? later with
      | none => rw [fire?_of_none ht, fire?_of_none (hnext.trans ht), hstill]
      | some next =>
        -- the clock shows the time of the timer now, whatever it showed before
        have hfired : (s.waited limit).fired next.1 next.2 = s.fired next.1 next.2 := rfl
        rw [fire?_of_some hs ht, fire?_of_some (s := s.waited limit) hs (hnext.trans ht), hfired]
    · rw [fire?_of_not_running hs, fire?_of_not_running (s := s.waited limit) hs, hstill]

theorem Idle.fire? : ∀ {fuel : Nat} {s : Session C E A}, Idle s → s.fire? limit fuel = some t →
    Idle t := by
  intro fuel
  induction fuel with
  | zero => intro s _ h; cases h
  | succ fuel ih =>
    intro s hi h
    by_cases hs : s.status = .running
    · cases ht : s.timers.take? limit with
      | none => rw [fire?_of_none ht] at h; cases h; exact hi
      | some next =>
        rw [fire?_of_some hs ht] at h
        obtain ⟨v, hd, hf⟩ := Option.bind_eq_some_iff.mp h
        exact ih (.of_drain? hd) hf
    · rw [fire?_of_not_running hs] at h; cases h; exact hi

/-! ## One call and two -/

theorem worksOff_advance (hs : s.status = .running) :
    s.worksOff fuel (.advance ms) = (s.drain? fuel).bind fun t =>
      (t.fire? (s.timers.now + ms) fuel).map (waited · (s.timers.now + ms)) := by
  rw [worksOff, advance, if_neg (not_not_intro hs), drain?]
  cases hd : s.drain fuel with
  | none => rfl
  | some reply =>
    have hnow := drain_now hd
    obtain ⟨answer, t⟩ := reply
    cases answer with
    | error e => rfl
    | ok _ =>
      change ((t.fire (t.timers.now + ms) fuel).bind _).bind _ = Option.map _ (t.fire? _ fuel)
      rw [show t.timers.now = s.timers.now from hnow, Session.fire?]
      cases t.fire (s.timers.now + ms) fuel with
      | none => rfl
      | some last =>
        obtain ⟨answer, u⟩ := last
        cases answer <;> rfl

theorem worksOff_advance_of_not_running (hs : s.status ≠ .running) :
    s.worksOff fuel (.advance ms) = some s := by
  rw [worksOff, advance, if_pos hs]
  rfl

/-- A session where all that was due by a time has fired, before the clock is put forward to it. -/
structure Rested (limit : Nat) (s : Session C E A) : Prop where
  idle : Idle s
  fired : s.status = .running → s.timers.take? limit = none
  now : s.timers.now ≤ limit

/-- So it is at the end of a call that lets time pass. -/
theorem rested (hd : s.drain? fuel = some t) (hf : t.fire? (s.timers.now + ms) fuel = some u) :
    Rested (s.timers.now + ms) u := by
  obtain ⟨first, hfirst, hok⟩ := Option.bind_eq_some_iff.mp hd
  obtain ⟨-, rfl⟩ := ok?_eq_some hok
  obtain ⟨last, hlast, hok⟩ := Option.bind_eq_some_iff.mp hf
  obtain ⟨⟨_, hanswer⟩, rfl⟩ := ok?_eq_some hok
  have hnow : first.session.timers.now ≤ s.timers.now + ms := by
    rw [drain_now hfirst]; exact Nat.le_add_right _ _
  exact ⟨(Idle.of_drain? hd).fire? hf, (fire_strides hlast).2 hanswer, fire_now hnow hlast⟩

theorem Rested.advance (h : Rested limit u) (hu : u.status = .running) :
    (u.waited limit).worksOff (fuel + 1) (.advance b) =
      (u.fire? (limit + b) (fuel + 1)).map (waited · (limit + b)) := by
  have hnow : (u.waited limit).timers.now = limit := Nat.max_eq_right h.now
  have hidle : Idle (u.waited limit) := ⟨h.idle.mailbox, h.idle.queue⟩
  rw [worksOff_advance (s := u.waited limit) hu, hidle.drain?, Option.bind_some, hnow]
  exact fire?_waited (Nat.le_add_right _ _) h.fired

omit [BEq C] in
/-- Two calls, which lead to `u` and then to `v`, and one call for both, which leads to `t`, end at
the same session. Only the clock of a session that has ended in the first of two calls differs. -/
structure Parted (u v t : Session C E A) : Prop where
  running : u.status = .running → v = t
  ended : u.status ≠ .running → ∃ limit, t = v.waited limit

omit [BEq C] in
theorem Parted.refl (s : Session C E A) : Parted s s s where
  running _ := rfl
  ended _ := ⟨0, by simp [waited, Timers.advanceTo]⟩

omit [BEq C] in
theorem Parted.of_ended (hu : u.status ≠ .running) (hle : limit ≤ later) :
    Parted (u.waited limit) (u.waited limit) (u.waited later) where
  running hr := absurd hr hu
  ended _ := ⟨later, (waited_waited u hle).symm⟩

/-- What one call does, two calls do. -/
theorem advance_split (h : s.worksOff fuel (.advance (a + b)) = some t) :
    ∃ u v, s.worksOff fuel (.advance a) = some u ∧ u.worksOff fuel (.advance b) = some v ∧
      Parted u v t := by
  by_cases hs : s.status = .running
  · rw [worksOff_advance hs, ← Nat.add_assoc] at h
    obtain ⟨d, hd, hmap⟩ := Option.bind_eq_some_iff.mp h
    obtain ⟨e, he, rfl⟩ := Option.map_eq_some_iff.mp hmap
    have hle := Nat.le_add_right (s.timers.now + a) b
    obtain ⟨u, hu, hrest⟩ := fire?_before hle he
    have hfirst : s.worksOff fuel (.advance a) = some (u.waited (s.timers.now + a)) := by
      rw [worksOff_advance hs, hd, Option.bind_some, hu]
      rfl
    cases fuel with
    | zero => cases hd
    | succ fuel =>
      by_cases hr : u.status = .running
      · refine ⟨_, _, hfirst, ?_, fun _ => rfl, fun hn => absurd hr hn⟩
        rw [(rested hd hu).advance hr, hrest]
        rfl
      · refine ⟨_, _, hfirst, worksOff_advance_of_not_running hr, ?_⟩
        rw [fire?_of_not_running hr] at hrest
        cases hrest
        exact .of_ended hr hle
  · rw [worksOff_advance_of_not_running hs] at h
    cases h
    exact ⟨s, s, worksOff_advance_of_not_running hs, worksOff_advance_of_not_running hs, .refl s⟩

/-- What two calls do, one call does, with as much fuel as the two together. -/
theorem advance_join (hu : s.worksOff fuel (.advance a) = some u)
    (hv : u.worksOff more (.advance b) = some v) :
    ∃ t, s.worksOff (fuel + (more + 1)) (.advance (a + b)) = some t ∧ Parted u v t := by
  by_cases hs : s.status = .running
  · rw [worksOff_advance hs] at hu
    obtain ⟨d, hd, hmap⟩ := Option.bind_eq_some_iff.mp hu
    obtain ⟨f, hf, rfl⟩ := Option.map_eq_some_iff.mp hmap
    have hle := Nat.le_add_right (s.timers.now + a) b
    rw [worksOff_advance hs, drain?_mono hd (Nat.le_add_right _ _), Option.bind_some,
      ← Nat.add_assoc s.timers.now]
    by_cases hr : f.status = .running
    · cases more with
      | zero => rw [worksOff_advance (s := f.waited _) hr] at hv; cases hv
      | succ more =>
        rw [(rested hd hf).advance hr] at hv
        obtain ⟨e, he, rfl⟩ := Option.map_eq_some_iff.mp hv
        rw [fire?_after hle (fire?_mono he (Nat.le_succ _)) hf]
        exact ⟨_, rfl, fun _ => rfl, fun hn => absurd hr hn⟩
    · rw [worksOff_advance_of_not_running (s := f.waited _) hr] at hv
      cases hv
      have hrest : f.fire? (s.timers.now + a + b) (more + 1) = some f := fire?_of_not_running hr
      rw [fire?_after hle hrest hf]
      exact ⟨_, rfl, .of_ended hr hle⟩
  · rw [worksOff_advance_of_not_running hs] at hu
    cases hu
    rw [worksOff_advance_of_not_running hs] at hv
    cases hv
    exact ⟨s, worksOff_advance_of_not_running hs, .refl s⟩

/-! ## Times of day -/

theorem untimed_worksOff (s : Session C E A) :
    (s.worksOff fuel (.advance ms)).map untimed = s.untimed.worksOff fuel (.advance ms) := by
  rw [worksOff, worksOff, ← untimed_advance]
  cases s.advance fuel ms with
  | none => rfl
  | some reply =>
    obtain ⟨answer, t⟩ := reply
    cases answer <;> rfl

omit [BEq C] in
/-- A session without any times: neither those of day in its journal nor that of its clock. What
waits, its timers and when they are due, its actors and all that was seen of it stay. -/
def timeless (s : Session C E A) : Session C E A :=
  { s.untimed with timers := { s.timers with now := 0 } }

omit [BEq C] in
/-- Two calls, which lead to `u` and then to `v`, and one call for both, which leads to `t`, come
to the same. The clock shows the same as well if the session still runs after the first call. -/
structure Split (u v t : Session C E A) : Prop where
  same : v.timeless = t.timeless
  clock : u.status = .running → v.timers.now = t.timers.now

omit [BEq C] in
/-- Neither the time of day nor the clock makes a difference. -/
theorem timeless_congr (h : s.untimed = t.untimed) : s.timeless = t.timeless :=
  congrArg (fun r : Session C E A => { r with timers := { r.timers with now := 0 } }) h

omit [BEq C] in
theorem Parted.split (h : Parted u.untimed v.untimed t.untimed) : Split u v t where
  same := by
    by_cases hu : u.status = .running
    · exact timeless_congr (h.running hu)
    · obtain ⟨limit, ht⟩ := h.ended hu
      have hwaited : (v.waited limit).timeless = v.timeless := rfl
      exact hwaited.symm.trans (timeless_congr ht.symm)
  clock hu := by
    have htimers : v.untimed.timers.now = t.untimed.timers.now := by rw [h.running hu]
    exact htimers

/-- Splitting time does not matter: letting `a` and then `b` milliseconds pass comes to the
same as letting `a + b` pass, whatever the times of day are at which this is done. If the one call
succeeds the two calls succeed, and the other way round. -/
theorem advance_add (s : Session C E A) (a b : Nat) (time time' : Timestamp) :
    (∀ fuel t, s.worksOff fuel (.advance (a + b)) = some t → ∃ u v,
      { s with time }.worksOff fuel (.advance a) = some u ∧
      { u with time := time' }.worksOff fuel (.advance b) = some v ∧ Split u v t) ∧
    ∀ fuel more u v, { s with time }.worksOff fuel (.advance a) = some u →
      { u with time := time' }.worksOff more (.advance b) = some v →
      ∃ enough t, s.worksOff enough (.advance (a + b)) = some t ∧ Split u v t := by
  -- a session and the same session at another time of day are one session without times
  constructor
  · intro fuel t ht
    have ht' : s.untimed.worksOff fuel (.advance (a + b)) = some t.untimed := by
      rw [← untimed_worksOff, ht]; rfl
    obtain ⟨u₀, v₀, hu₀, hv₀, hparted⟩ := advance_split ht'
    obtain ⟨u, hu, rfl⟩ := Option.map_eq_some_iff.mp
      ((untimed_worksOff { s with time }).trans hu₀)
    obtain ⟨v, hv, rfl⟩ := Option.map_eq_some_iff.mp
      ((untimed_worksOff { u with time := time' }).trans hv₀)
    exact ⟨u, v, hu, hv, hparted.split⟩
  · intro fuel more u v hu hv
    have hu' : s.untimed.worksOff fuel (.advance a) = some u.untimed :=
      (untimed_worksOff { s with time }).symm.trans (congrArg (Option.map untimed) hu)
    have hv' : u.untimed.worksOff more (.advance b) = some v.untimed :=
      (untimed_worksOff { u with time := time' }).symm.trans (congrArg (Option.map untimed) hv)
    obtain ⟨t₀, ht₀, hparted⟩ := advance_join hu' hv'
    obtain ⟨t, ht, rfl⟩ := Option.map_eq_some_iff.mp ((untimed_worksOff s).trans ht₀)
    exact ⟨_, t, ht, hparted.split⟩

/-- A beacon that is lit for ten milliseconds at a time; its lens has to turn before it shines. -/
def beacon : Definition := {
  key := "beacon"
  initial := some "dark"
  states := [
    { key := "dark", after := [⟨10, [{ target := ["lit"] }]⟩] },
    { key := "lit"
      initial := some "warm"
      invoke := [{ id := some "lens", src := "motor" }]
      after := [⟨10, [{ target := ["dark"] }]⟩]
      states := [
        { key := "warm", on := [⟨"TURNS", [{ target := ["turning"] }]⟩] },
        { key := "turning", after := [⟨0, [{ target := ["shining"] }]⟩] },
        { key := "shining", after := [⟨10, [{ target := ["warm"] }]⟩] }] }] }

/-- A motor says when it turns. -/
def motors : Registry Unit Unit Unit where
  actors := [("motor", ⟨fun _ => (), fun _ _ => ⟨(), [{ type := "TURNS" }]⟩,
    fun _ _ _ => ⟨(), []⟩, fun _ _ => ⟨(), []⟩⟩)]

def beaconMachine : Machine Unit Unit Unit := Machine.buildD motors () 10 beacon

/-- The time is split where the beacon is lit and the lens begins to turn; later the time of the
light and that of shining are up at once. -/
theorem advance_add_beacon : ∃ s u v t : Session Unit Unit Unit,
    Run beaconMachine [.start, .subscribe] s ∧
    { s with time := ⟨1, 0⟩ }.worksOff 9 (.advance 10) = some u ∧ u.status = .running ∧
    { u with time := ⟨2, 0⟩ }.worksOff 9 (.advance 15) = some v ∧
    s.worksOff 9 (.advance 25) = some t ∧
    t.firings.map (fun x => (x.due, x.number)) = [(10, 0), (10, 2), (20, 1)] ∧ Split u v t := by
  have hrun : ((ofMachine beaconMachine "beacon" none).afterAll 9 [.start, .subscribe]).any
      (fun s =>
        ({ s with time := ⟨1, 0⟩ }.worksOff 9 (.advance 10)).any
          (fun u : Session Unit Unit Unit => u.status = Status.running) ∧
        (s.worksOff 9 (.advance 25)).any fun t =>
          t.firings.map (fun x => (x.due, x.number)) = [(10, 0), (10, 2), (20, 1)]) = true := by
    decide +kernel
  obtain ⟨s, hs, hall⟩ := (Option.any_eq_true _ _).mp hrun
  obtain ⟨hlit, hdark⟩ := of_decide_eq_true hall
  obtain ⟨t, ht, hfirings⟩ := (Option.any_eq_true _ _).mp hdark
  obtain ⟨u, v, hu, hv, hsplit⟩ := (advance_add s 10 15 ⟨1, 0⟩ ⟨2, 0⟩).1 9 t ht
  rw [hu, Option.any_some] at hlit
  exact ⟨s, u, v, t, (Run.initial "beacon" none).append hs, hu, of_decide_eq_true hlit, hv, ht,
    of_decide_eq_true hfirings, hsplit⟩

end Session

end Statechart
