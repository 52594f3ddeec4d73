import Statechart.Proofs.Chart.WellFormed
import Statechart.Proofs.Configuration.Independence
import Statechart.Proofs.Macrostep.Course

/-!
# History states bring back what was left

A history state takes a note when its parent is left, and any number of microsteps may follow
before the parent is entered again. The parent is not active in between, so it is not left, and
the note stays as it is (`Away.last`). When the history state is then a target, what it
remembers are the seeds inside its parent, and no other target has a say there
(`Turned.settled_history`). What is active afterwards follows from these seeds: for a deep
history state, the leaves that were active (`Legal.settled_leaves`), so all that was active; for
a shallow one, the children that were active, with their default entries below them.
-/
namespace Statechart.Chart

variable {c : Chart} {a b : NodeSet} {history later : Dict (List Nat)} {n p : Nat}

/-- What a history state brings back: all that was active inside its parent, or the active children
with their default entries. -/
def Recalled (c : Chart) (p : Nat) (before after : NodeSet) : HistoryMode → Prop
  | .deep => ∀ x, c.isDescendant x p = true → (x ∈ after ↔ x ∈ before)
  | .shallow => c.activeChildren p after = c.activeChildren p before ∧
      ∀ k ∈ c.activeChildren p before, ∀ x, c.Within x k → (x ∈ after ↔ c.ByDefault k x)

/-! ## The note stays -/

/-- A state is not active once the states of a microstep are left, and a history state remembers
certain states then. -/
structure Away (c : Chart) (p n : Nat) (states : List Nat) (hop : Hop) : Prop where
  out : p ∈ hop.before.1 → p ∈ hop.exits c
  note : (hop.noted c).get? (c.node n).id = some states

section Away

variable {names : Names} (h : c.Accepted names) (hp : (c.node n).parent = some p)
include h hp

theorem Away.of_exit {mode : HistoryMode} (hm : (c.node n).history = some mode) {hop : Hop}
    (hexit : p ∈ hop.exits c) :
    c.Away p n (Execution.remembered c hop.before.1 p mode) hop :=
  ⟨fun _ => hexit, get?_historyAfter_of_mem h hp hm hexit⟩

/-- The note stays from one microstep to the next if the state is not entered. -/
theorem Away.next {states : List Nat} {hop next : Hop} (ha : c.Away p n states hop)
    (hs : hop.Sound c) (hentries : p ∉ hop.entries c) (hnext : next.before = hop.after) :
    c.Away p n states next := by
  have hinactive : p ∉ next.before.1 := fun hpn => by
    rw [hnext, hs.mem_after] at hpn
    exact hpn.elim (fun ⟨hb, hx⟩ => hx (ha.out hb)) hentries
  have hexit : p ∉ next.exits c := fun hx => hinactive (mem_exitSet.mp hx).1
  refine ⟨fun hb => absurd hb hinactive, ?_⟩
  rw [Hop.noted, get?_historyAfter_of_not_mem h hp hexit, hnext, hs.history_after]
  exact ha.note

/-- The note stays for as long as the state is not entered. -/
theorem Away.last {states : List Nat} : ∀ {stretch : List Hop} {left back : Hop},
    stretch.head? = some left → stretch.getLast? = some back →
    (stretch.IsChain fun hop later => later.before = hop.after) →
    (∀ hop ∈ stretch, hop.Sound c) → (∀ hop ∈ stretch.dropLast, p ∉ hop.entries c) →
    c.Away p n states left → c.Away p n states back
  | [hop], left, back, hhead, hlast, _, _, _, ha => by
    cases hhead
    cases hlast
    exact ha
  | hop :: next :: rest, left, back, hhead, hlast, hchain, hs, hentries, ha => by
    cases hhead
    obtain ⟨hnext, hchain⟩ := List.isChain_cons_cons.mp hchain
    have hlast : (next :: rest).getLast? = some back := by simpa using hlast
    refine Away.last rfl hlast hchain (fun hop hhop => hs hop (List.mem_cons_of_mem _ hhop))
      (fun hop hhop => hentries hop (by simp [hhop])) ?_
    exact ha.next h hp (hs _ List.mem_cons_self) (hentries _ (by simp)) hnext

end Away

/-! ## What was active inside -/

section Legal

variable {names : Names} (h : c.Accepted names) (ha : c.Legal a)
include h ha

/-- What is active inside a state follows from the active leaves inside. -/
theorem Legal.settled_leaves (wf : c.WellFormed) (hpa : p ∈ a) :
    c.Settled a p (· ∈ Execution.remembered c a p .deep) where
  mem := hpa
  seed q hq := (List.mem_filter.mp (List.mem_filter.mp hq).1).1
  guided x hx hw hc := by
    obtain ⟨leaf, hleaf, hl, hlx⟩ := ha.exists_leaf h.toIsTree wf.enterable hx
    have hd : c.isDescendant leaf x = true := hlx.resolve_left fun e => by
      rw [← e, (Node.not_inner_of_leaf hl).1] at hc
      cases hc
    refine .inl ⟨leaf, List.mem_filter.mpr ⟨List.mem_filter.mpr ⟨hleaf, hl⟩, ?_⟩, hd⟩
    exact h.isDescendant_within hd hw

theorem Legal.activeChildren_eq (hb : c.Legal b) (hpa : p ∈ a)
    (hsub : ∀ k ∈ c.activeChildren p a, k ∈ b) : c.activeChildren p b = c.activeChildren p a := by
  refine List.filter_congr fun k hk => decide_eq_decide.mpr ?_
  have hkp := h.mem_children.mp hk
  refine ⟨fun hkb => ?_, fun hka => hsub k ((mem_activeChildren h.toIsTree).mpr ⟨hkp, hka⟩)⟩
  rcases inner_of_parent h hkp with hc | hpar
  · obtain ⟨l, hl⟩ := ha.child p hpa hc
    have hl := hl ▸ List.mem_singleton_self l
    obtain ⟨hlp, hla⟩ := (mem_activeChildren h.toIsTree).mp hl
    rwa [hb.child_unique h.toIsTree hc hkb (hsub l hl) hkp hlp]
  · exact ha.region p hpa hpar k ((mem_regions h.toIsTree).mpr ⟨hkp, hb.not_history k hkb⟩)

/-- Below an active state there is its default entry if compound states have their default
children. -/
theorem Legal.mem_iff_byDefault {k : Nat} (hk : k ∈ a)
    (hdefault : ∀ x ∈ a, c.Within x k → (c.node x).isCompound = true →
      ∃ l ∈ a, (c.node x).initial = some l) {x : Nat} (hw : c.Within x k) :
    x ∈ a ↔ c.ByDefault k x := by
  constructor
  · refine h.induct_within (P := fun x => x ∈ a → c.ByDefault k x) (fun _ => .self)
      (fun x y hy hyk ih hx => ?_) hw
    have hya := ha.parent_mem x hx y hy
    refine .child (ih hya) ?_
    rcases inner_of_parent h hy with hc | hpar
    · obtain ⟨l, hl, hi⟩ := hdefault y hya hyk hc
      rw [ha.child_unique h.toIsTree hc hx hl hy (h.parent_of_initial hi),
        defaultChildren_of_compound hc, hi]
      exact List.mem_singleton_self l
    · rw [defaultChildren_of_parallel hpar]
      exact (mem_regions h.toIsTree).mpr ⟨hy, ha.not_history x hx⟩
  · intro hx
    clear hw
    induction hx with
    | self => exact hk
    | @child y l hy hl ih =>
      rcases inner_of_parent h (parent_of_defaultChild h hl) with hc | hpar
      · obtain ⟨j, hj, hi⟩ := hdefault y ih (hy.within h) hc
        rw [defaultChildren_of_compound hc, hi] at hl
        rwa [List.mem_singleton.mp hl]
      · rw [defaultChildren_of_parallel hpar] at hl
        exact ha.region y ih hpar l hl

/-- A history state that remembers what was active inside its parent brings it back. -/
theorem Settled.recalled (wf : c.WellFormed) (hb : c.Legal b) (hpa : p ∈ a) {mode : HistoryMode}
    (hs : c.Settled b p (· ∈ Execution.remembered c a p mode)) : c.Recalled p a b mode := by
  cases mode with
  | deep => exact fun x hx => hs.agree h hb ha (ha.settled_leaves h wf hpa) (.inr hx)
  | shallow =>
    have hsub : ∀ k ∈ c.activeChildren p a, k ∈ b := hs.seed
    refine ⟨ha.activeChildren_eq h hb hpa hsub, fun k hk x hx =>
      hb.mem_iff_byDefault h (hsub k hk) (fun y hy hyk hc => ?_) hx⟩
    obtain ⟨hkp, -⟩ := (mem_activeChildren h.toIsTree).mp hk
    have hkd := h.isDescendant_of_parent hkp
    refine (hs.guided y hy (h.within_trans hyk (.inr hkd)) hc).resolve_left fun ⟨q, hq, hqy⟩ => ?_
    -- The seeds are children, so none is inside another.
    have hqp := ((mem_activeChildren h.toIsTree).mp hq).1
    have hqk := h.isDescendant_within hqy hyk
    obtain rfl := h.siblings hqp hkp (.inr hqk)
    exact not_isDescendant_self hqk

end Legal

/-! ## Targets that are history states -/

section Recall

variable {names : Names} (h : c.Accepted names) (wf : c.WellFormed)
  (hp : (c.node n).parent = some p) (hh : (c.node n).isHistory = true)
include h wf hp hh

/-- A seed inside the parent of a history state that is a target is one that this stands for. -/
theorem mem_restored_of_seed (hr : c.Confined history) {t q : Nat}
    (hn : n ∈ (c.transition t).targets) (hq : q ∈ c.seeds history t)
    (hqp : c.isDescendant q p = true) : q ∈ c.restored history n := by
  obtain ⟨m, hm, hqm⟩ := mem_seeds.mp hq
  obtain ⟨d, hd⟩ := exists_domain_of_seed hq
  have hbrings : c.Brings m q := by
    cases hmh : (c.node m).isHistory with
    | false =>
      rw [effectiveTargets_of_not_history hmh, List.mem_singleton] at hqm
      exact (brings_of_not_history hmh).mpr (.inl hqm)
    | true =>
      obtain ⟨e, he⟩ := h.exists_parent_of_history hmh
      rw [effectiveTargets_of_history hmh] at hqm
      exact (brings_of_history hmh he).mpr (hr m e hmh he q hqm)
  -- Orthogonal targets do not bring in the same state.
  have hdisjoint : (c.transition t).targets.Pairwise fun m n =>
      ¬ (c.Brings m q ∧ c.Brings n q) :=
    (wf.targets_orthogonal t (lt_of_domain hd)).imp fun ho ⟨hm, hn⟩ => ho.not_brings h hm hn
  have : Std.Symm fun m n => ¬ (c.Brings m q ∧ c.Brings n q) := ⟨fun _ _ hmn hnm => hmn hnm.symm⟩
  obtain rfl : m = n := by
    by_contra hne
    exact hdisjoint.forall hm hn hne ⟨hbrings, (brings_of_history hh hp).mpr hqp⟩
  rwa [effectiveTargets_of_history hh] at hqm

/-- What is active inside the parent of a history state that was a target follows from what the
history state stands for. -/
theorem Turned.settled_history {transitions : List Nat}
    (hturned : c.Turned a history transitions b later) (hr : c.Restorable later)
    (hsource : ∀ t ∈ transitions, (c.transition t).source < c.size) {t : Nat}
    (ht : t ∈ transitions) (hn : n ∈ (c.transition t).targets) :
    c.Settled b p (· ∈ c.restored later n) := by
  have hrest := hr n p hh hp
  have hseed : ∀ q ∈ c.restored later n, q ∈ c.seeds later t := fun q hq =>
    mem_seeds.mpr ⟨n, hn, by rwa [effectiveTargets_of_history hh]⟩
  obtain ⟨q, hq⟩ := List.exists_mem_of_ne_nil _ hrest.ne_nil
  obtain ⟨d, hd⟩ := exists_domain_of_seed (hseed q hq)
  have hpd : c.Within p d := by
    obtain ⟨-, -, htargets⟩ := domain_spec h.toIsTree hd (hsource t ht) fun n hn => h.target_lt hn
    rcases htargets n hn with hnd | ⟨rfl, -⟩
    · exact (h.isDescendant_iff_parent hp).mp hnd
    · rw [root_not_history h] at hh; cases hh
  obtain ⟨-, hmem, hguided⟩ := hturned.settled t ht d hd
  refine ⟨?_, fun q hq => hmem q (hseed q hq), fun x hx hw hc => ?_⟩
  · exact hturned.legal.mem_of_within h.toIsTree (hmem q (hseed q hq)) (.inr (hrest.inside q hq).2)
  · refine (hguided x hx (h.within_trans hw hpd) hc).imp_left fun ⟨q, hq, hqx⟩ => ⟨q, ?_, hqx⟩
    exact mem_restored_of_seed h wf hp hh hr.confined hn hq (h.isDescendant_within hqx hw)

end Recall

/-! ## From leaving to entering again -/

/-- A stretch of a course that begins where a state is left and ends where it is next entered, which
may be in the same microstep. -/
structure Returns (c : Chart) (p : Nat) (stretch : List Hop) (left back : Hop) : Prop where
  head : stretch.head? = some left
  last : stretch.getLast? = some back
  left : p ∈ left.exits c
  back : p ∈ back.entries c
  between : ∀ hop ∈ stretch.dropLast, p ∉ hop.entries c

section Hop

variable {names : Names} (h : c.Accepted names) (wf : c.WellFormed)
include h wf

theorem Hop.Sound.turned {hop : Hop} (hs : hop.Sound c) : c.Sound hop.after.1 hop.after.2 ∧
    c.Turned hop.before.1 hop.before.2 hop.transitions hop.after.1 hop.after.2 := by
  obtain ⟨b, later, htaken, hsound, hturned⟩ := hs.before.exists_taken h wf hs.selected
  have heq : hop.after = (b, later) := Option.some.inj (hs.taken.symm.trans htaken)
  rw [heq]
  exact ⟨hsound, hturned⟩

/-- What a history state noted when its parent was left is brought back by the first microstep
that enters the parent again, if that targets the history state. -/
theorem Returns.recalled {stretch : List Hop} {left back : Hop}
    (hret : c.Returns p stretch left back) (hs : ∀ hop ∈ stretch, hop.Sound c)
    (hchain : stretch.IsChain fun hop later => later.before = hop.after)
    (hp : (c.node n).parent = some p) {mode : HistoryMode} (hm : (c.node n).history = some mode)
    {t : Nat} (ht : t ∈ back.transitions) (hn : n ∈ (c.transition t).targets) :
    c.Recalled p left.before.1 back.after.1 mode := by
  have hh : (c.node n).isHistory = true := by rw [← h.history_isSome, hm]; rfl
  have hleft := hs left (List.mem_of_head? hret.head)
  have hback := hs back (List.mem_of_getLast? hret.last)
  have haway := Away.last h hp hret.head hret.last hchain hs hret.between
    (.of_exit h hp hm hret.left)
  obtain ⟨hsound, hturned⟩ := hback.turned h wf
  have hsettled := hturned.settled_history h wf hp hh (hsound.remembers.restorable h wf.enterable)
    (hback.selected.source_lt h hback.before.legal.lt_size) ht hn
  have hrestored : c.restored back.after.2 n = Execution.remembered c left.before.1 p mode := by
    rw [restored, hback.history_after, haway.note, Option.getD_some]
  rw [hrestored] at hsettled
  exact hsettled.recalled h hleft.before.legal wf hsound.legal (mem_exitSet.mp hret.left).1

end Hop

end Statechart.Chart

namespace Statechart.Machine

open Chart

variable {C E A : Type} {m : Machine C E A}

/-- History restores what was left. Take a stretch of a run of a well-formed machine from where
a state is left to where it is next entered, by a transition that targets a history state in it. In
the end all that was active inside the state is active again if the history state is deep; if it is
shallow, the same children are, with their default entries below them. -/
theorem history_restores {registry : Registry C E A} {initial : C} {maxMicrosteps : Nat}
    {d : Definition} (hb : build registry initial maxMicrosteps d = .ok m)
    (wf : m.chart.WellFormed) {hops stretch : List Hop} {mode : Mode} {current : Event}
    {x : Execution C E} (hx : m.Course hops mode current x) (hstretch : stretch <:+: hops)
    {left back : Hop} {p n : Nat} (hret : m.chart.Returns p stretch left back)
    (hp : (m.chart.node n).parent = some p) {kind : HistoryMode}
    (hm : (m.chart.node n).history = some kind) {t : Nat} (ht : t ∈ back.transitions)
    (hn : n ∈ (m.chart.transition t).targets) :
    m.chart.Recalled p left.before.1 back.after.1 kind := by
  have h := accepted_of_build hb
  have hsound := (hx.sound h wf).2
  have hchain := hx.linked.2
  obtain ⟨past, future, rfl⟩ := hstretch
  refine hret.recalled h wf (fun hop hhop => hsound hop ?_)
    hchain.left_of_append.right_of_append hp hm ht hn
  exact List.mem_append_left _ (List.mem_append_right _ hhop)

/-- The player after a microstep that has come to certain states. -/
def playerAt (states : List Nat) (history : Dict (List Nat)) : Execution Unit Unit :=
  { configuration := .ofList states, context := (), history, microsteps := 1 }

/-- The picture of the player is made large. -/
def zoomed : Hop :=
  ⟨[1], (.ofList [0, 1, 2, 3, 5, 6], []), (.ofList [0, 1, 2, 4, 5, 6], [])⟩

def turnedOff : Hop :=
  ⟨[0], (.ofList [0, 1, 2, 4, 5, 6], []), (.ofList [0, 9], [("player.on.last", [4, 6])])⟩

def turnedOn : Hop :=
  ⟨[2], (.ofList [0, 9], [("player.on.last", [4, 6])]),
    (.ofList [0, 1, 2, 4, 5, 6], [("player.on.last", [4, 6])])⟩

/-- The player comes back to its large picture. -/
theorem history_restores_player :
    playerMachine.Course [zoomed, turnedOff, turnedOn] .replay { type := "ON" }
      (playerAt [0, 1, 2, 4, 5, 6] [("player.on.last", [4, 6])]) ∧
    playerMachine.chart.Returns 1 [turnedOff, turnedOn] turnedOff turnedOn ∧
    playerMachine.chart.Recalled 1 turnedOff.before.1 turnedOn.after.1 .deep := by
  have hb := player_built
  have hstart : playerMachine.Course [] .replay .init (playerAt [0, 1, 2, 3, 5, 6] []) := .start rfl
  have hzoom : playerMachine.Course [zoomed] .replay { type := "ZOOM" }
      (playerAt [0, 1, 2, 4, 5, 6] []) :=
    hstart.first rfl rfl rfl (List.cons_ne_nil 1 []) rfl
  have hoff : playerMachine.Course [zoomed, turnedOff] .replay { type := "OFF" }
      (playerAt [0, 9] [("player.on.last", [4, 6])]) :=
    hzoom.first rfl rfl rfl (List.cons_ne_nil 0 []) rfl
  have hon : playerMachine.Course [zoomed, turnedOff, turnedOn] .replay { type := "ON" }
      (playerAt [0, 1, 2, 4, 5, 6] [("player.on.last", [4, 6])]) :=
    hoff.first rfl rfl rfl (List.cons_ne_nil 2 []) rfl
  have hret : playerMachine.chart.Returns 1 [turnedOff, turnedOn] turnedOff turnedOn :=
    ⟨rfl, rfl, by decide +kernel, by decide +kernel, by decide +kernel⟩
  have hparent : (playerMachine.chart.node 8).parent = some 1 := by decide +kernel
  refine ⟨hon, hret, ?_⟩
  exact history_restores hb (by decide +kernel) hon (List.suffix_cons zoomed _).isInfix hret hparent
    (by decide +kernel) (List.mem_singleton_self 2) (by decide +kernel)

end Statechart.Machine
