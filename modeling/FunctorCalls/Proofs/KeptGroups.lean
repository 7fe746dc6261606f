import FunctorCalls.Proofs.StoreAnswers

namespace FunctorCalls

namespace CallGraph

variable {g : CallGraph} {points : List Name}

theorem Reaches.mem_nodes_trim {a b : Key} (h : g.Reaches a b)
    (ha : a ∈ (g.trim points).nodes) : b ∈ (g.trim points).nodes :=
  ((reaches_trim_iff ha).2 h).callee_mem

theorem circle_trim {k : Key} (hk : k ∈ (g.trim points).nodes) :
    (g.trim points).circle k = g.circle k := by
  apply OrdSet.ext
  intro m
  rw [mem_circle_iff, mem_circle_iff, reaches_trim_iff hk]
  exact and_congr_right fun hkm ↦ reaches_trim_iff (hkm.mem_nodes_trim hk)

/-- The members of a group lead to each other, so that a trim keeps all of them or none. -/
theorem mem_nodes_trim_of_mem_groups {c : List Key} (hc : c ∈ g.groups g.components) {k m : Key}
    (hk : k ∈ c) (hm : m ∈ c) (hkept : k ∈ (g.trim points).nodes) :
    m ∈ (g.trim points).nodes :=
  (exists_mem_groups_iff.1 ⟨c, hc, hk, hm⟩).1.mem_nodes_trim hkept

theorem mem_groups_trim_iff {c : List Key} :
    c ∈ (g.trim points).groups (g.trim points).components ↔
      c ∈ g.groups g.components ∧ ∀ k ∈ c, k ∈ (g.trim points).nodes := by
  rw [(g.trim points).isComponents_components.mem_groups_iff,
    g.isComponents_components.mem_groups_iff]
  constructor
  · rintro ⟨k, hr, rfl⟩
    have hk : k ∈ (g.trim points).nodes := hr.caller_mem
    refine ⟨⟨k, (reaches_trim_iff hk).1 hr, by rw [circle_trim hk]⟩, fun m hm ↦ ?_⟩
    exact (mem_circle_iff.1 hm).1.callee_mem
  · rintro ⟨⟨k, hr, rfl⟩, hkept⟩
    have hk : k ∈ (g.trim points).nodes := hkept k (mem_circle_iff.2 ⟨hr, hr⟩)
    exact ⟨k, (reaches_trim_iff hk).2 hr, by rw [circle_trim hk]⟩

theorem groups_trim (g : CallGraph) (points : List Name) :
    (g.trim points).groups (g.trim points).components =
      (g.groups g.components).filter (·.all (· ∈ (g.trim points).nodes)) := by
  -- Both lists are in the order of first members, so that it is enough to compare what they hold.
  refine eq_of_pairwise_lt (g.trim points).isComponents_components.pairwise_groups
    (g.isComponents_components.pairwise_groups.filter _) fun c ↦ ?_
  simp only [mem_groups_trim_iff, List.mem_filter, List.all_eq_true, decide_eq_true_iff]

theorem contains_trim_instanceOf {k : Key} (hk : k ∈ g.nodes) :
    (g.trim points).contains (g.instanceOf k) = decide (k ∈ (g.trim points).nodes) := by
  rw [contains, key_instanceOf hk]

theorem callCycles_trim (g : CallGraph) (points : List Name) :
    (g.trim points).callCycles = .ok (((g.groups g.components).map (·.map g.instanceOf)).filter
      (·.all (g.trim points).contains)) := by
  have hkept : ∀ c ∈ g.groups g.components, c.all (· ∈ (g.trim points).nodes) =
      (c.map g.instanceOf).all (g.trim points).contains := by
    intro c hc
    rw [List.all_map, Bool.eq_iff_iff, List.all_eq_true, List.all_eq_true]
    refine forall₂_congr fun k hk ↦ ?_
    rw [Function.comp_apply, contains_trim_instanceOf (mem_nodes_of_mem_groups hc hk)]
  rw [callCycles_eq_ok, groups_trim, instanceOf_trim, List.filter_map, List.filter_congr hkept]
  rfl

theorem contains_trim_group {c : List Key} (hc : c ∈ g.groups g.components) :
    (∀ i ∈ c.map g.instanceOf, (g.trim points).contains i = true) ∨
      ∀ i ∈ c.map g.instanceOf, (g.trim points).contains i = false := by
  have hn {k : Key} (hk : k ∈ c) : k ∈ g.nodes := mem_nodes_of_mem_groups hc hk
  simp only [List.forall_mem_map]
  by_cases h : ∃ k ∈ c, k ∈ (g.trim points).nodes
  · obtain ⟨k, hk, hkept⟩ := h
    left
    intro m hm
    rw [contains_trim_instanceOf (hn hm), decide_eq_true_iff]
    exact mem_nodes_trim_of_mem_groups hc hk hm hkept
  · right
    intro m hm
    rw [contains_trim_instanceOf (hn hm), decide_eq_false_iff_not]
    exact fun hkept ↦ h ⟨m, hm, hkept⟩

end CallGraph

namespace Store

/-- A trim keeps each recursive group whole or drops it whole, and the groups of what is left are
those that it keeps: the same members in the same order, and the groups in the same order. In which
order the components are found before and after the trim plays no part. -/
theorem trim_keeps_groups_whole (cs : List Change) (points : List Name) :
    let g := CallGraph.after cs
    let s := after cs
    let t := s.trim points
    ∃ groups, g.callCycles = .ok groups ∧
      (∀ c ∈ groups, (∀ i ∈ c, t.contains i = true) ∨ ∀ i ∈ c, t.contains i = false) ∧
      (g.trim points).callCycles = .ok (groups.filter (·.all t.contains)) ∧
      (∀ components, s.IsComponents components → s.callCycles components = .ok groups) ∧
      ∀ components, t.IsComponents components →
        t.callCycles components = .ok (groups.filter (·.all t.contains)) := by
  intro g s t
  have h : s.Represents g := represents_after cs
  have ht : t.Represents (g.trim points) := h.trim points
  have hcontains : t.contains = (g.trim points).contains := funext ht.contains_eq
  simp only [hcontains]
  refine ⟨_, g.callCycles_eq_ok, ?_, g.callCycles_trim points, ?_, ?_⟩
  · intro c hc
    obtain ⟨keys, hk, rfl⟩ := List.mem_map.1 hc
    exact CallGraph.contains_trim_group hk
  · intro components hc
    rw [h.callCycles_eq hc, g.callCycles_eq_ok]
  · intro components hc
    rw [ht.callCycles_eq hc, g.callCycles_trim points]

end Store

end FunctorCalls
