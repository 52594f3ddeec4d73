import Mathlib.Data.List.Forall2
import Statechart.Chart.Build

/-!
# Handlers of one event, delays of one length

The handlers of a state may name one event more than once, and its delays one time after entry. To
merge such entries is to put all their transitions into the first of them, in their order, and to
leave the later ones out (`Definition.merged`). The later entries of a delay can also be kept
without transitions (`Definition.gathered`). Where no state names a time twice the two are the same.

* `under_regroup`: regrouping keeps what is under each key, in its order.
* `merged_eq_gathered`: merging where no delay is named twice.
-/
namespace Statechart

/-! ## Lists without repetitions -/

/-- Where members are told apart alike, they are repeated at the same places. -/
theorem forall₂_eraseDups {α β : Type} [BEq α] [LawfulBEq α] [BEq β] [LawfulBEq β]
    {R : α → β → Prop} (hR : Relator.BiUnique R) : ∀ {l : List α} {l' : List β},
      List.Forall₂ R l l' → List.Forall₂ R l.eraseDups l'.eraseDups
  | [], _, h => by cases h; exact .nil
  | a :: l, _, h => by
    cases h with
    | @cons _ b _ l' hab h =>
      have hfilter : List.Forall₂ R (l.filter fun x => !x == a) (l'.filter fun y => !y == b) := by
        refine List.rel_filter (p := fun x => !x == a) (q := fun y => !y == b) ?_ h
        intro x y hxy
        simp only [Bool.not_eq_true', beq_eq_false_iff_ne, ne_eq]
        exact not_congr (Relator.rel_eq hR hxy hab)
      have : (l.filter fun x => !x == a).length < l.length + 1 :=
        Nat.lt_succ_of_le (List.length_filter_le _ _)
      rw [List.eraseDups_cons, List.eraseDups_cons]
      exact .cons hab (forall₂_eraseDups hR hfilter)
  termination_by l => l.length

theorem eraseDups_map {α β : Type} [BEq α] [LawfulBEq α] [BEq β] [LawfulBEq β] {f : α → β}
    (hf : Function.Injective f) (l : List α) : (l.map f).eraseDups = l.eraseDups.map f := by
  have hunique : Relator.BiUnique fun a b => f a = b :=
    ⟨fun _ _ _ ha hb => hf (ha.trans hb.symm), fun _ _ _ ha hb => ha.symm.trans hb⟩
  have hsame : List.Forall₂ (fun a b => f a = b) l (l.map f) :=
    List.forall₂_map_right_iff.mpr (List.forall₂_same.mpr fun _ _ => rfl)
  have heq := List.forall₂_map_left_iff.mpr (forall₂_eraseDups hunique hsame)
  rw [List.forall₂_eq_eq_eq] at heq
  exact heq.symm

/-! ## Lists by keys -/

section Keyed

variable {κ α : Type} [DecidableEq κ]

/-- All that is under a key, in its order. -/
def under (key : κ) (groups : List (κ × List α)) : List α :=
  (groups.filter fun g => g.1 = key).flatMap Prod.snd

/-- Puts all that is under a key into the first entry of the key. The later entries are left out,
or kept without content. `seen` are the keys of the entries before. -/
def regroup (keep : Bool) (seen : List κ) : List (κ × List α) → List (κ × List α)
  | [] => []
  | g :: rest =>
    if g.1 ∈ seen then (if keep then [(g.1, [])] else []) ++ regroup keep seen rest
    else (g.1, g.2 ++ under g.1 rest) :: regroup keep (g.1 :: seen) rest

theorem under_nil (key : κ) : under key ([] : List (κ × List α)) = [] := rfl

theorem under_cons (key : κ) (g : κ × List α) (rest : List (κ × List α)) :
    under key (g :: rest) = (if g.1 = key then g.2 else []) ++ under key rest := by
  unfold under
  rw [List.filter_cons]
  by_cases h : g.1 = key <;> simp [h]

theorem under_append (key : κ) (groups more : List (κ × List α)) :
    under key (groups ++ more) = under key groups ++ under key more := by
  simp [under]

theorem mem_under {key : κ} {a : α} {groups : List (κ × List α)} :
    a ∈ under key groups ↔ ∃ as, (key, as) ∈ groups ∧ a ∈ as := by
  simp only [under, List.mem_flatMap, List.mem_filter, decide_eq_true_eq]
  constructor
  · rintro ⟨⟨k, as⟩, ⟨hg, rfl⟩, ha⟩
    exact ⟨as, hg, ha⟩
  · rintro ⟨as, hg, ha⟩
    exact ⟨(key, as), ⟨hg, rfl⟩, ha⟩

/-- With other keys, what is under a key is what was under the key it comes from. -/
theorem under_map {ι : Type} [DecidableEq ι] {f : κ → ι} (hf : Function.Injective f) (key : κ)
    (groups : List (κ × List α)) :
    under (f key) (groups.map fun g => (f g.1, g.2)) = under key groups := by
  induction groups with
  | nil => rfl
  | cons g rest ih => simp only [List.map_cons, under_cons, hf.eq_iff, ih]

omit [DecidableEq κ] in
theorem under_map_of_forall_ne {ι : Type} [DecidableEq ι] {f : κ → ι} {key : ι}
    (hf : ∀ k, f k ≠ key) (groups : List (κ × List α)) :
    under key (groups.map fun g => (f g.1, g.2)) = [] := by
  induction groups with
  | nil => rfl
  | cons g rest ih => simp [under_cons, hf, ih]

/-- Regrouping keeps what is under each key, in its order. -/
theorem under_regroup (keep : Bool) (key : κ) (groups : List (κ × List α)) : ∀ seen : List κ,
    under key (regroup keep seen groups) = if key ∈ seen then [] else under key groups := by
  induction groups with
  | nil => exact fun seen => (ite_self _).symm
  | cons g rest ih =>
    intro seen
    rw [regroup]
    by_cases hg : g.1 ∈ seen
    · have hkept : under key (if keep then [(g.1, ([] : List α))] else []) = [] := by
        cases keep <;> simp [under_cons, under_nil]
      rw [if_pos hg, under_append, hkept, ih, under_cons]
      by_cases hk : g.1 = key
      · simp [← hk, hg]
      · simp [hk]
    · rw [if_neg hg, under_cons, ih, under_cons]
      by_cases hk : g.1 = key
      · simp [← hk, hg]
      · simp [hk, Ne.symm hk]

/-- With the later entries kept the keys are as before, else each is there once. -/
theorem keys_regroup (keep : Bool) (groups : List (κ × List α)) : ∀ seen : List κ,
    (regroup keep seen groups).map Prod.fst = if keep then groups.map Prod.fst
      else ((groups.map Prod.fst).filter fun key => !decide (key ∈ seen)).eraseDups := by
  induction groups with
  | nil => intro seen; cases keep <;> rfl
  | cons g rest ih =>
    intro seen
    rw [regroup]
    by_cases hg : g.1 ∈ seen
    · rw [if_pos hg, List.map_append, ih]
      cases keep <;> simp [hg]
    · rw [if_neg hg, List.map_cons, ih]
      cases keep with
      | true => rfl
      | false =>
        have hcons : ∀ key, (!decide (key ∈ g.1 :: seen)) =
            (!key == g.1 && !decide (key ∈ seen)) := fun key => by
          by_cases h : key = g.1 <;> simp [h]
        have hfilter : ((g :: rest).map Prod.fst).filter (fun key => !decide (key ∈ seen)) =
            g.1 :: (rest.map Prod.fst).filter fun key => !decide (key ∈ seen) := by simp [hg]
        simp only [Bool.false_eq_true, if_false]
        rw [hfilter, List.eraseDups_cons, List.filter_filter]
        simp only [hcons]

theorem under_eq_nil {key : κ} {groups : List (κ × List α)} (h : key ∉ groups.map Prod.fst) :
    under key groups = [] :=
  List.eq_nil_iff_forall_not_mem.mpr fun _ ha => by
    obtain ⟨as, hg, -⟩ := mem_under.mp ha
    exact h (List.mem_map_of_mem hg)

/-- Where no key stands twice there is nothing to put together. -/
theorem regroup_of_nodup (keep : Bool) {groups : List (κ × List α)} :
    ∀ {seen : List κ}, (groups.map Prod.fst).Nodup → (∀ g ∈ groups, g.1 ∉ seen) →
      regroup keep seen groups = groups := by
  induction groups with
  | nil => exact fun _ _ => rfl
  | cons g rest ih =>
    intro seen hnodup hseen
    obtain ⟨hg, hrest⟩ := List.nodup_cons.mp hnodup
    rw [regroup, if_neg (hseen g List.mem_cons_self), under_eq_nil hg, List.append_nil,
      ih hrest fun e he => ?_]
    rw [List.mem_cons, not_or]
    exact ⟨fun e' => hg (e' ▸ List.mem_map_of_mem he), hseen e (List.mem_cons_of_mem _ he)⟩

end Keyed

/-! ## Definitions -/

/-- One handler for each event, with the transitions of all handlers of the event. -/
def mergedHandlers (handlers : List Handler) : List Handler :=
  (regroup false [] (handlers.map fun h => (h.event, h.transitions))).map fun g => ⟨g.1, g.2⟩

/-- The transitions of all delays of one length in the first of them; the others are left out, or
kept without transitions. -/
def regroupedDelays (keep : Bool) (delays : List Delay) : List Delay :=
  (regroup keep [] (delays.map fun d => (d.delayMs, d.transitions))).map fun g => ⟨g.1, g.2⟩

namespace Definition

mutual

/-- The handlers and the delays of every state put together. -/
def regrouped (keep : Bool) : Definition → Definition
  | ⟨key, id, kind, initial, history, target, states, on, always, after, onDone, entry, exit,
      invoke⟩ =>
    ⟨key, id, kind, initial, history, target, regroupedAll keep states, mergedHandlers on, always,
      regroupedDelays keep after, onDone, entry, exit, invoke⟩

def regroupedAll (keep : Bool) : List Definition → List Definition
  | [] => []
  | d :: rest => regrouped keep d :: regroupedAll keep rest

end

/-- In every state one handler for each event, and one entry for each delay. -/
def merged (d : Definition) : Definition := d.regrouped false

/-- In every state one handler for each event, and the transitions of each delay in its first
entry. -/
def gathered (d : Definition) : Definition := d.regrouped true

mutual

/-- No state names a delay twice. -/
def NoDelayTwice : Definition → Prop
  | ⟨_, _, _, _, _, _, states, _, _, after, _, _, _, _⟩ =>
    (after.map Delay.delayMs).Nodup ∧ NoDelayTwiceAll states

def NoDelayTwiceAll : List Definition → Prop
  | [] => True
  | d :: rest => NoDelayTwice d ∧ NoDelayTwiceAll rest

end

end Definition

theorem regroupedDelays_map_delayMs (keep : Bool) (delays : List Delay) :
    (regroupedDelays keep delays).map Delay.delayMs = if keep then delays.map Delay.delayMs
      else (delays.map Delay.delayMs).eraseDups := by
  have h := keys_regroup keep (delays.map fun d => (d.delayMs, d.transitions)) []
  simp only [List.not_mem_nil, decide_false, Bool.not_false, List.filter_true, List.map_map] at h
  rw [regroupedDelays, List.map_map]
  exact h

theorem regroupedDelays_of_nodup (keep : Bool) {delays : List Delay}
    (h : (delays.map Delay.delayMs).Nodup) : regroupedDelays keep delays = delays := by
  have hkeys : (delays.map fun d => (d.delayMs, d.transitions)).map Prod.fst =
      delays.map Delay.delayMs := by simp [Function.comp_def]
  rw [regroupedDelays, regroup_of_nodup keep (hkeys ▸ h) fun _ _ => List.not_mem_nil]
  simp [Function.comp_def]

namespace Definition

mutual

/-- Where no state names a delay twice it makes no difference whether later entries are kept. -/
theorem merged_eq_gathered : ∀ {d : Definition}, d.NoDelayTwice → d.merged = d.gathered
  | ⟨key, id, kind, initial, history, target, states, on, always, after, onDone, entry, exit,
      invoke⟩, h => by
    rw [NoDelayTwice] at h
    rw [merged, gathered, regrouped, regrouped, regroupedDelays_of_nodup _ h.1,
      regroupedDelays_of_nodup _ h.1, mergedAll_eq_gatheredAll h.2]

theorem mergedAll_eq_gatheredAll : ∀ {ds : List Definition}, NoDelayTwiceAll ds →
    regroupedAll false ds = regroupedAll true ds
  | [], _ => rfl
  | d :: rest, h => by
    rw [NoDelayTwiceAll] at h
    have hd : d.regrouped false = d.regrouped true := merged_eq_gathered h.1
    rw [regroupedAll, regroupedAll, hd, mergedAll_eq_gatheredAll h.2]

end

end Definition

end Statechart
