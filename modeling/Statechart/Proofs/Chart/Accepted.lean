import Mathlib.Data.List.Nodup
import Statechart.Proofs.Chart.Layout

/-!
# Charts of accepted definitions

What the rest of the library may rely on once `Chart.build` has accepted a definition: a
structure of facts about the chart alone, so that nothing later looks at slots, target texts
or problems again.

* `accepted_of_build`: a chart that was built has them all.
* `regions_eq_nil_of_build`: a compound state of it without a default child.
-/
namespace Statechart

/-- The chart is a tree whose names, targets and transitions are in order. -/
structure Chart.Accepted (names : Names) (c : Chart) : Prop extends c.IsTree where
  /-- Only compound and parallel states have children. -/
  children_eq_nil : ∀ {n}, (c.node n).isCompound = false → (c.node n).isParallel = false →
    (c.node n).children = []
  parent_of_initial : ∀ {n k}, (c.node n).initial = some k → (c.node k).parent = some n
  exists_parent_of_history : ∀ {n}, (c.node n).isHistory = true → ∃ p, (c.node n).parent = some p
  history_isSome : ∀ n, (c.node n).history.isSome = (c.node n).isHistory
  historyTarget_lt : ∀ {n t}, t ∈ (c.node n).historyTarget → t < c.size
  /-- Two states of one id are one state. -/
  id_injective : ∀ {n m}, n < c.size → m < c.size → (c.node n).id = (c.node m).id → n = m
  source_of_on : ∀ {n e t}, t ∈ (c.node n).transitionsFor e → (c.transition t).source = n
  source_of_always : ∀ {n t}, t ∈ (c.node n).always → (c.transition t).source = n
  target_lt : ∀ {t n}, n ∈ (c.transition t).targets → n < c.size
  /-- Two invocations of one id are one invocation of one state. -/
  invoke_unique : ∀ {n m i j}, i ∈ (c.node n).invoke → j ∈ (c.node m).invoke → i.id = j.id →
    n = m ∧ i = j
  invoke_nodup : ∀ n, ((c.node n).invoke.map Invocation.id).Nodup
  actor_known : ∀ {n i}, i ∈ (c.node n).invoke → names.actor i.src = true

/-! ## Slots -/

mutual

theorem children_slotsFrom (parent : Option Nat) (path : String) (depth start : Nat) :
    ∀ d : Definition, ∀ s ∈ slotsFrom parent path depth start d,
      s.definition.states = [] → s.children = []
  | ⟨_, _, _, _, _, _, states, _, _, _, _, _, _, _⟩, s, hs, he => by
    rw [slotsFrom, List.mem_cons] at hs
    rcases hs with rfl | hs
    · simp only at he ⊢; subst he; rfl
    · exact children_slotsFromAll start path (depth + 1) (start + 1) states s hs he

theorem children_slotsFromAll (parent : Nat) (path : String) (depth start : Nat) :
    ∀ ds : List Definition, ∀ s ∈ slotsFromAll parent path depth start ds,
      s.definition.states = [] → s.children = []
  | [], s, hs, _ => by rw [slotsFromAll] at hs; exact absurd hs List.not_mem_nil
  | d :: rest, s, hs, he => by
    rw [slotsFromAll, List.mem_append] at hs
    rcases hs with hs | hs
    · exact children_slotsFrom (some parent) _ depth start d s hs he
    · exact children_slotsFromAll parent path depth (start + d.size) rest s hs he

end

theorem Slot.id_mem_names (s : Slot) : s.id ∈ s.names := by
  unfold Slot.id Slot.names
  cases hid : s.definition.id with
  | none => simp
  | some id => by_cases hp : id = s.path <;> simp [hp]

/-- A list in which nothing stands twice has no member twice, and none from before. -/
theorem nodup_of_repeated {seen names : List String} (h : repeated seen names = []) :
    names.Nodup ∧ ∀ x ∈ names, x ∉ seen := by
  induction names generalizing seen with
  | nil => simp
  | cons x rest ih =>
    rw [repeated] at h
    split at h
    · cases h
    · rename_i hx
      obtain ⟨h1, h2⟩ := ih h
      refine ⟨List.nodup_cons.mpr ⟨fun hm => h2 x hm (by simp), h1⟩, fun y hy => ?_⟩
      rcases List.mem_cons.mp hy with rfl | hy
      · exact hx
      · exact fun hm => h2 y hy (List.mem_cons_of_mem _ hm)

namespace Layout

/-! ## Transitions of a state -/

theorem mem_of_numbered {groups : List (String × List TransitionDef)} :
    ∀ {first : Nat} {g : String × List Nat} {t : Nat}, g ∈ numbered first groups → t ∈ g.2 →
      first ≤ t ∧ t < first + (groups.flatMap Prod.snd).length := by
  induction groups with
  | nil => intro first g t hg; simp [numbered] at hg
  | cons d rest ih =>
    intro first g t hg ht
    rw [numbered, List.mem_cons] at hg
    simp only [List.flatMap_cons, List.length_append]
    rcases hg with rfl | hg
    · have := List.mem_range'_1.mp ht; omega
    · have := ih hg ht; omega

theorem mem_of_join {event : String} {ts : List Nat} {e : String × List Nat} {t : Nat} :
    ∀ {table : List (String × List Nat)}, e ∈ join event ts table → t ∈ e.2 →
      t ∈ ts ∨ ∃ e' ∈ table, t ∈ e'.2
  | [], he, ht => by simp only [join, List.mem_singleton] at he; subst he; exact .inl ht
  | f :: rest, he, ht => by
    rw [join] at he
    split at he
    · rcases List.mem_cons.mp he with rfl | he
      · rcases List.mem_append.mp ht with ht | ht
        · exact .inr ⟨f, by simp, ht⟩
        · exact .inl ht
      · exact .inr ⟨e, by simp [he], ht⟩
    · rcases List.mem_cons.mp he with rfl | he
      · exact .inr ⟨e, by simp, ht⟩
      · rcases mem_of_join he ht with ht | ⟨e', he', ht⟩
        · exact .inl ht
        · exact .inr ⟨e', by simp [he'], ht⟩

theorem mem_of_table {groups : List (String × List Nat)} {e : String × List Nat} {t : Nat}
    (he : e ∈ table groups) (ht : t ∈ e.2) : ∃ g ∈ groups, t ∈ g.2 := by
  have go : ∀ (groups acc : List (String × List Nat)) (e : String × List Nat),
      e ∈ groups.foldl (fun t g => join g.1 g.2 t) acc → t ∈ e.2 →
        (∃ e' ∈ acc, t ∈ e'.2) ∨ ∃ g ∈ groups, t ∈ g.2 := by
    intro groups
    induction groups with
    | nil => intro acc e he ht; exact .inl ⟨e, he, ht⟩
    | cons g rest ih =>
      intro acc e he ht
      rcases ih (join g.1 g.2 acc) e he ht with ⟨e', he', ht'⟩ | ⟨g', hg', ht'⟩
      · rcases mem_of_join he' ht' with ht' | ⟨e'', he'', ht'⟩
        · exact .inr ⟨g, by simp, ht'⟩
        · exact .inl ⟨e'', he'', ht'⟩
      · exact .inr ⟨g', by simp [hg'], ht'⟩
  rcases go groups [] e he ht with ⟨e', he', -⟩ | hg
  · exact absurd he' List.not_mem_nil
  · exact hg

theorem mem_of_lookup {table : List (String × List Nat)} {event : String} {ts : List Nat}
    (h : table.lookup event = some ts) : (event, ts) ∈ table := by
  induction table with
  | nil => cases h
  | cons e rest ih =>
    obtain ⟨k, v⟩ := e
    rw [List.lookup_cons] at h
    split at h
    · rename_i hk
      rw [beq_iff_eq.mp hk]
      cases h
      simp
    · exact List.mem_cons_of_mem _ (ih h)

theorem length_declared (s : Slot) :
    s.declared.length = (s.groups.flatMap Prod.snd).length + s.definition.always.length := by
  unfold Slot.declared
  simp [List.length_flatMap]

variable (l : Layout)

/-- The transitions that a state offers are numbered within its own range. -/
theorem range_of_offered {n first t : Nat}
    (ht : (∃ e, t ∈ (l.node n first).transitionsFor e) ∨ t ∈ (l.node n first).always) :
    first ≤ t ∧ t < first + (l.slot n).declared.length := by
  rw [length_declared]
  rcases ht with ⟨e, ht⟩ | ht
  · unfold Node.transitionsFor at ht
    cases hl : (l.node n first).on.lookup e with
    | none => rw [hl] at ht; exact absurd ht List.not_mem_nil
    | some ts =>
      rw [hl] at ht
      obtain ⟨g, hg, htg⟩ := mem_of_table (mem_of_lookup hl) ht
      have := mem_of_numbered hg htg
      omega
  · have := List.mem_range'_1.mp ht
    omega

theorem transition_chart {n j : Nat} {t : Option String × TransitionDef}
    (hn : n < l.slots.size) (ht : (l.slot n).declared[j]? = some t) :
    l.chart.transition (firstTransition 0 l.slots.toList n + j) = l.transition n t.1 t.2 := by
  have hs : l.slots.toList[n]? = some (l.slot n) := by simp [slot, hn]
  have h := getElem?_transitionsFrom l l.slots.toList 0 0 n _ hs j t ht
  rw [Nat.zero_add, Nat.sub_zero] at h
  simp [chart, Chart.transition, Array.getD_eq_getD_getElem?, h]

theorem source_of_offered {n t : Nat}
    (ht : (∃ e, t ∈ (l.chart.node n).transitionsFor e) ∨ t ∈ (l.chart.node n).always) :
    (l.chart.transition t).source = n := by
  by_cases hn : n < l.slots.size
  · rw [node_chart l hn] at ht
    obtain ⟨h1, h2⟩ := range_of_offered l ht
    obtain ⟨j, rfl⟩ := Nat.exists_eq_add_of_le h1
    have hj : j < (l.slot n).declared.length := by omega
    rw [transition_chart l hn (List.getElem?_eq_getElem hj)]
    rfl
  · rw [Chart.node_of_size_le (by rw [size_chart]; omega)] at ht
    rcases ht with ⟨e, ht⟩ | ht <;> exact absurd ht List.not_mem_nil

/-! ## Targets -/

theorem mem_of_get?_register {names : List (String × Nat)} {name : String} {n : Nat}
    (h : (register names).get? name = some n) : (name, n) ∈ names := by
  have go : ∀ (names : List (String × Nat)) (ids : Dict Nat),
      Dict.get? (names.foldl (fun ids e => if ids.contains e.1 then ids else ids.insert e.1 e.2) ids)
        name = some n → ids.get? name = some n ∨ (name, n) ∈ names := by
    intro names
    induction names with
    | nil => intro ids h; exact .inl h
    | cons e rest ih =>
      intro ids h
      rcases ih _ h with h | h
      · dsimp only at h
        split at h
        · exact .inl h
        · by_cases hk : name = e.1
          · subst hk
            rw [Dict.get?_insert_self] at h
            cases h
            exact .inr (by simp)
          · rw [Dict.get?_insert_of_ne hk] at h
            exact .inl h
      · exact .inr (List.mem_cons_of_mem _ h)
  rcases go names [] h with h | h
  · cases h
  · exact h

theorem lt_of_mem_namesFrom {slots : List Slot} :
    ∀ {start : Nat} {e : String × Nat}, e ∈ namesFrom start slots → e.2 < start + slots.length := by
  induction slots with
  | nil => intro start e he; exact absurd he List.not_mem_nil
  | cons s rest ih =>
    intro start e he
    rw [namesFrom, List.mem_append] at he
    rw [List.length_cons]
    rcases he with he | he
    · obtain ⟨name, -, rfl⟩ := List.mem_map.mp he
      show start < _
      omega
    · have := ih he; omega

section Bounds

variable (d : Definition)

theorem ids_lt {name : String} {n : Nat} (h : (ofDefinition d).ids.get? name = some n) :
    n < (ofDefinition d).slots.size := by
  have := lt_of_mem_namesFrom (mem_of_get?_register h)
  simpa [ofDefinition] using this

theorem child?_lt {n k : Nat} {key : String} (hn : n < (ofDefinition d).slots.size)
    (h : (ofDefinition d).child? n key = some k) : k < (ofDefinition d).slots.size :=
  (((forest_ofDefinition d).children n (Nat.zero_le _) hn k).mp (List.mem_of_find?_eq_some h)).2.1

theorem descend_lt {keys : List String} :
    ∀ {n m : Nat}, n < (ofDefinition d).slots.size → (ofDefinition d).descend n keys = some m →
      m < (ofDefinition d).slots.size := by
  induction keys with
  | nil => intro n m hn h; cases h; exact hn
  | cons key keys ih =>
    intro n m hn h
    simp only [descend, Option.bind_eq_bind, Option.bind_eq_some_iff] at h
    obtain ⟨k, hk, h⟩ := h
    exact ih (child?_lt d hn hk) h

theorem absolute?_lt {target : List Char} {n : Nat}
    (h : (ofDefinition d).absolute? target = some n) : n < (ofDefinition d).slots.size := by
  unfold absolute? at h
  split at h
  · rename_i m hm
    cases h
    exact ids_lt d hm
  · simp only [Option.bind_eq_bind, Option.bind_eq_some_iff] at h
    obtain ⟨⟨name, path⟩, -, m, hm, h⟩ := h
    exact descend_lt d (ids_lt d hm) h

theorem target?_lt {source n : Nat} {target : String} (hs : source < (ofDefinition d).slots.size)
    (h : (ofDefinition d).target? source target = some n) : n < (ofDefinition d).slots.size := by
  unfold target? at h
  split at h
  · exact absolute?_lt d h
  · exact descend_lt d hs h
  · refine descend_lt d ?_ h
    cases hp : ((ofDefinition d).slot source).parent with
    | none => exact hs
    | some p =>
      have hr : source ∉ [0] := fun hr => by
        rw [((forest_ofDefinition d).roots_parent source hr).2.2.1] at hp; cases hp
      obtain ⟨q, -, hq, hp', -⟩ := (forest_ofDefinition d).inner_parent source (Nat.zero_le _) hs hr
      rw [hp] at hp'
      cases hp'
      exact Nat.lt_trans hq hs

theorem targets_lt {source n : Nat} {targets : List String}
    (hs : source < (ofDefinition d).slots.size) (h : n ∈ (ofDefinition d).targets source targets) :
    n < (ofDefinition d).slots.size := by
  obtain ⟨target, -, ht⟩ := List.mem_filterMap.mp h
  exact target?_lt d hs ht

end Bounds

theorem exists_of_mem_transitionsFrom {slots : List Slot} :
    ∀ {n : Nat} {t : Transition}, t ∈ l.transitionsFrom n slots →
      ∃ i s td, slots[i]? = some s ∧ td ∈ s.declared ∧ t = l.transition (n + i) td.1 td.2 := by
  induction slots with
  | nil => intro n t ht; exact absurd ht List.not_mem_nil
  | cons s rest ih =>
    intro n t ht
    rw [transitionsFrom, List.mem_append] at ht
    rcases ht with ht | ht
    · obtain ⟨td, htd, rfl⟩ := List.mem_map.mp ht
      exact ⟨0, s, td, rfl, htd, rfl⟩
    · obtain ⟨i, s', td, hs, htd, rfl⟩ := ih ht
      exact ⟨i + 1, s', td, hs, htd, by rw [show n + 1 + i = n + (i + 1) by omega]⟩

theorem transition_cases (t : Nat) :
    l.chart.transition t = .absent ∨ ∃ n td, n < l.slots.size ∧ td ∈ (l.slot n).declared ∧
      l.chart.transition t = l.transition n td.1 td.2 := by
  by_cases ht : t < (l.transitionsFrom 0 l.slots.toList).length
  · obtain ⟨i, s, td, hs, htd, e⟩ := exists_of_mem_transitionsFrom l (List.getElem_mem ht)
    obtain ⟨hi, rfl⟩ := List.getElem?_eq_some_iff.mp hs
    have hi : i < l.slots.size := by simpa using hi
    refine .inr ⟨i, td, hi, by simpa [slot, hi] using htd, ?_⟩
    rw [Nat.zero_add] at e
    rw [← e]
    simp [chart, Chart.transition, ht]
  · left
    simp [chart, Chart.transition, ht]

/-! ## Names and invocations -/

/-- Where nothing that the slots have stands twice, two slots that have the same are one slot. -/
theorem slot_unique {f : Slot → List String} (h : (l.slots.toList.flatMap f).Nodup) {n m : Nat}
    {name : String} (hn : n < l.slots.size) (hm : m < l.slots.size) (h1 : name ∈ f (l.slot n))
    (h2 : name ∈ f (l.slot m)) : n = m := by
  have hp := (List.nodup_flatMap.mp h).2
  have apart : ∀ {i j}, i < j → j < l.slots.size → name ∈ f (l.slot i) →
      name ∉ f (l.slot j) := by
    intro i j hij hj h1 h2
    have hi : i < l.slots.size := Nat.lt_trans hij hj
    have hd := List.pairwise_iff_getElem.mp hp i j (by simpa using hi) (by simpa using hj) hij
    simp only [slot, Array.getD_eq_getD_getElem?, hi, hj, Array.getElem?_eq_getElem,
      Option.getD_some] at h1 h2
    exact hd (by simpa using h1) (by simpa using h2)
  rcases Nat.lt_trichotomy n m with hlt | rfl | hlt
  · exact absurd h2 (apart hlt hm h1)
  · rfl
  · exact absurd h1 (apart hlt hn h2)

theorem slot_id_injective (h : (l.slots.toList.flatMap Slot.names).Nodup) {n m : Nat}
    (hn : n < l.slots.size) (hm : m < l.slots.size) (he : (l.slot n).id = (l.slot m).id) :
    n = m :=
  l.slot_unique h hn hm (l.slot n).id_mem_names (he ▸ (l.slot m).id_mem_names)

theorem of_invocationProblems {names : Names} {state : String} {invs : List Invocation} :
    ∀ {seen : List String}, invocationProblems names state seen invs = [] →
      (invs.map Invocation.id).Nodup ∧
        ∀ i ∈ invs, i.id ∉ seen ∧ names.actor i.src = true := by
  induction invs with
  | nil => intro seen _; simp
  | cons i rest ih =>
    intro seen h
    simp only [invocationProblems, List.append_eq_nil_iff, ite_eq_left_iff, ite_eq_right_iff,
      reduceCtorEq, imp_false, Bool.not_eq_true] at h
    obtain ⟨⟨h1, h2⟩, h3⟩ := h
    obtain ⟨h4, h5⟩ := ih h3
    refine ⟨List.nodup_cons.mpr ⟨fun hm => ?_, h4⟩, fun j hj => ?_⟩
    · obtain ⟨j, hj, e⟩ := List.mem_map.mp hm
      exact (h5 j hj).1 (by simp [e])
    · rcases List.mem_cons.mp hj with rfl | hj
      · exact ⟨h1, by simpa using h2⟩
      · exact ⟨fun hm => (h5 j hj).1 (List.mem_cons_of_mem _ hm), (h5 j hj).2⟩

theorem of_behaviourProblemsFrom {names : Names} {slots : List Slot} :
    ∀ {seen : List String} {n : Nat}, Occupies l.slot n slots →
      l.behaviourProblemsFrom names seen n slots = [] →
      (slots.flatMap fun s => s.invocations.map Invocation.id).Nodup ∧
        ∀ s ∈ slots, ∀ i ∈ s.invocations, i.id ∉ seen ∧ names.actor i.src = true := by
  induction slots with
  | nil => intro seen n _ _; simp
  | cons s rest ih =>
    intro seen n ho h
    obtain ⟨hs, hrest⟩ := occupies_cons ho
    simp only [behaviourProblemsFrom, List.append_eq_nil_iff] at h
    obtain ⟨h1, h2⟩ := h
    simp only [behaviourProblems, List.append_eq_nil_iff, hs] at h1
    obtain ⟨h3, h4⟩ := of_invocationProblems h1.2
    obtain ⟨h5, h6⟩ := ih hrest h2
    refine ⟨?_, fun t ht i hi => ?_⟩
    · rw [List.flatMap_cons, List.nodup_append]
      refine ⟨h3, h5, fun a ha b hb e => ?_⟩
      obtain ⟨t, ht, hb⟩ := List.mem_flatMap.mp hb
      obtain ⟨i, hi, rfl⟩ := List.mem_map.mp hb
      exact (h6 t ht i hi).1 (List.mem_append_left _ (e ▸ ha))
    · rcases List.mem_cons.mp ht with rfl | ht
      · exact h4 i hi
      · exact ⟨fun hm => (h6 t ht i hi).1 (List.mem_append_right _ hm), (h6 t ht i hi).2⟩

/-! ## The structure of an accepted layout -/

theorem slot_mem {n : Nat} (hn : n < l.slots.size) : l.slot n ∈ l.slots.toList := by
  simp [slot, hn]

theorem child?_mem {n k : Nat} {key : String} (h : l.child? n key = some k) :
    k ∈ (l.slot n).children := List.mem_of_find?_eq_some h

theorem initial_mem {n k : Nat} (h : l.initial n = some k) : k ∈ (l.slot n).children := by
  unfold initial at h
  cases hk : (l.slot n).kind <;> simp only [hk] at h <;> try cases h
  cases hi : (l.slot n).definition.initial with
  | none => rw [hi] at h; exact List.mem_of_find?_eq_some h
  | some key => rw [hi] at h; exact child?_mem l h

/-- A state without problems that is neither compound nor parallel has no children declared. -/
theorem states_eq_nil {n : Nat} (h : l.structureProblems n = [])
    (hc : (l.slot n).kind ≠ .compound) (hp : (l.slot n).kind ≠ .parallel) :
    (l.slot n).definition.states = [] := by
  unfold structureProblems at h
  cases hk : (l.slot n).kind <;> simp only [hk, List.append_eq_nil_iff] at h
  all_goals first | exact absurd hk hc | exact absurd hk hp | skip
  all_goals by_cases he : (l.slot n).definition.states.isEmpty = true
  all_goals first | exact List.isEmpty_iff.mp he | simp [he] at h

theorem parent_of_history {n : Nat} (h : l.structureProblems n = [])
    (hk : (l.slot n).kind = .history) : ∃ p, (l.slot n).parent = some p := by
  simp only [structureProblems, hk, historyProblems, List.append_eq_nil_iff] at h
  cases hp : (l.slot n).parent with
  | none => rw [hp] at h; simp at h
  | some p => exact ⟨p, rfl⟩

end Layout

namespace Chart

variable {names : Names} {d : Definition} {c : Chart}

/-- What is built is the chart of a layout without problems. -/
theorem build_ok : Chart.build names d = .ok c ↔
    (Layout.ofDefinition d).problems names = [] ∧ (Layout.ofDefinition d).chart = c := by
  unfold Chart.build
  dsimp only
  split
  case isTrue hp => simp [List.isEmpty_iff.mp hp]
  case isFalse hp => simp [List.isEmpty_iff.not.mp hp]

/-- The chart of an accepted definition is in order. -/
theorem accepted_of_build (h : Chart.build names d = .ok c) : c.Accepted names := by
  obtain ⟨hp, rfl⟩ := build_ok.mp h
  generalize hl : Layout.ofDefinition d = l at hp ⊢
  have htree : l.chart.IsTree := hl ▸ Layout.isTree_chart d
  have hsize := l.size_chart
  simp only [Layout.problems, List.append_eq_nil_iff, List.map_eq_nil_iff,
    List.flatMap_eq_nil_iff, List.mem_range] at hp
  obtain ⟨⟨hnames, hstruct⟩, hbehave⟩ := hp
  have hids := (nodup_of_repeated hnames).1
  obtain ⟨hinv, hknown⟩ := l.of_behaviourProblemsFrom
    (fun i s hs => by
      obtain ⟨hi, rfl⟩ := List.getElem?_eq_some_iff.mp hs
      have hi : i < l.slots.size := by simpa using hi
      simp [Layout.slot, hi]) hbehave
  have hinvoke : ∀ {n i}, i ∈ (l.chart.node n).invoke →
      n < l.slots.size ∧ i ∈ (l.slot n).invocations := by
    intro n i hi
    rcases l.node_cases n with e | ⟨hn, e⟩ <;> rw [e] at hi
    · exact absurd hi List.not_mem_nil
    · exact ⟨hn, hi⟩
  exact {
    htree with
    children_eq_nil := by
      intro n hc hpar
      rcases l.node_cases n with e | ⟨hn, e⟩ <;> rw [e] at hc hpar ⊢
      · rfl
      · have hstates := l.states_eq_nil (hstruct n hn)
          (by simpa [Node.isCompound, Layout.node] using hc)
          (by simpa [Node.isParallel, Layout.node] using hpar)
        have hs := l.slot_mem hn
        rw [← hl] at hs hstates ⊢
        exact children_slotsFrom none d.key 0 0 d _ (by simpa [Layout.ofDefinition] using hs) hstates
    parent_of_initial := by
      intro n k hk
      rw [← htree.mem_children]
      rcases l.node_cases n with e | ⟨hn, e⟩ <;> rw [e] at hk ⊢
      · cases hk
      · exact l.initial_mem hk
    exists_parent_of_history := by
      intro n hk
      rcases l.node_cases n with e | ⟨hn, e⟩ <;> rw [e] at hk ⊢
      · cases hk
      · exact l.parent_of_history (hstruct n hn) (by simpa [Node.isHistory, Layout.node] using hk)
    history_isSome := by
      intro n
      rcases l.node_cases n with e | ⟨hn, e⟩ <;> rw [e]
      · rfl
      · simp only [Layout.node, Node.isHistory]
        split <;> simp_all
    historyTarget_lt := by
      intro n t ht
      rcases l.node_cases n with e | ⟨hn, e⟩ <;> rw [e] at ht
      · exact absurd ht List.not_mem_nil
      · simp only [Layout.node] at ht
        split at ht
        · rw [hsize]; rw [← hl] at ht hn ⊢; exact Layout.targets_lt d hn ht
        · exact absurd ht List.not_mem_nil
    id_injective := by
      intro n m hn hm e
      rw [hsize] at hn hm
      rw [l.node_chart hn, l.node_chart hm] at e
      exact l.slot_id_injective hids hn hm e
    source_of_on := fun ht => l.source_of_offered (.inl ⟨_, ht⟩)
    source_of_always := fun ht => l.source_of_offered (.inr ht)
    target_lt := by
      intro t n hn
      rcases l.transition_cases t with e | ⟨m, td, hm, -, e⟩ <;> rw [e] at hn
      · exact absurd hn List.not_mem_nil
      · rw [hsize]; rw [← hl] at hn hm ⊢; exact Layout.targets_lt d hm hn
    invoke_unique := by
      intro n m i j hi hj e
      obtain ⟨hn, hi⟩ := hinvoke hi
      obtain ⟨hm, hj⟩ := hinvoke hj
      obtain rfl := l.slot_unique hinv hn hm (List.mem_map_of_mem hi) (e ▸ List.mem_map_of_mem hj)
      exact ⟨rfl, List.inj_on_of_nodup_map
        ((List.nodup_flatMap.mp hinv).1 _ (l.slot_mem hn)) hi hj e⟩
    invoke_nodup := by
      intro n
      rcases l.node_cases n with e | ⟨hn, e⟩ <;> rw [e]
      · exact .nil
      · exact (List.nodup_flatMap.mp hinv).1 _ (l.slot_mem hn)
    actor_known := by
      intro n i hi
      obtain ⟨hn, hi⟩ := hinvoke hi
      exact (hknown _ (l.slot_mem hn) i hi).2 }

/-- A compound state of an accepted definition without a default child has history states as
children, if any. -/
theorem regions_eq_nil_of_build (h : Chart.build names d = .ok c) {n : Nat}
    (hn : (c.node n).isCompound = true) (hi : (c.node n).initial = none) : c.regions n = [] := by
  have hc := (accepted_of_build h).toIsTree
  obtain ⟨hp, rfl⟩ := build_ok.mp h
  generalize Layout.ofDefinition d = l at hp hn hi hc ⊢
  simp only [Layout.problems, List.append_eq_nil_iff, List.flatMap_eq_nil_iff, List.mem_range] at hp
  rcases l.node_cases n with e | ⟨hns, e⟩ <;> rw [e] at hn hi
  · cases hn
  have hkind : (l.slot n).kind = .compound := by simpa [Node.isCompound, Layout.node] using hn
  have hproblems := hp.1.2 n hns
  simp only [Layout.structureProblems, hkind, Layout.initialProblems, List.append_eq_nil_iff]
    at hproblems
  simp only [Layout.node, Layout.initial, hkind] at hi
  cases hkey : (l.slot n).definition.initial with
  | some key =>
    rw [hkey] at hi
    simp [hkey, hi] at hproblems
  | none =>
    rw [hkey] at hi
    refine List.filter_eq_nil_iff.mpr fun k hk => ?_
    have hks := l.size_chart ▸ lt_size_of_parent (hc.mem_children.mp hk)
    rw [e] at hk
    have := List.find?_eq_none.mp hi k hk
    rw [l.node_chart hks]
    simpa [Node.isHistory, Layout.node] using this

end Chart

end Statechart
