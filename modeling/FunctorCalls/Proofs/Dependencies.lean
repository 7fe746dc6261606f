import FunctorCalls.Proofs.StoreAnswers

namespace FunctorCalls

open Relation

/-- An answer that lists what a key leads to by one or more edges. -/
structure ListsReached (nodes : Key → Prop) (links : Key → Key → Prop) (k : Key)
    (is : List Instance) : Prop where
  sorted : (is.map Instance.key).Pairwise fun a b ↦ compare a b = .lt
  nodup : (is.map Instance.key).Nodup
  mem_iff : ∀ m, m ∈ is.map Instance.key ↔ nodes m ∧ TransGen links k m
  self_iff : k ∈ is.map Instance.key ↔ TransGen links k k
  of_loop : links k k → k ∈ is.map Instance.key
  of_unknown : ¬ nodes k → is = []

/-- Groups of keys that depend on each other, with every key that depends on itself in one of
them. -/
structure ListsGroups (links : Key → Key → Prop) (dependsOn : Instance → Key → Prop)
    (groups : List (List Key)) : Prop where
  mem_iff : ∀ i : Instance, (∃ c ∈ groups, i.key ∈ c) ↔ dependsOn i i.key
  nodup : groups.flatten.Nodup
  same_iff : ∀ i j : Instance, (∃ c ∈ groups, i.key ∈ c ∧ j.key ∈ c) ↔
    dependsOn i j.key ∧ dependsOn j i.key
  sorted : ∀ c ∈ groups, c ≠ [] ∧ c.Pairwise fun a b ↦ compare a b = .lt
  heads : groups.Pairwise fun c d ↦ ∀ a ∈ c.head?, ∀ b ∈ d.head?, compare a b = .lt
  alone_iff : ∀ k, (∀ m, TransGen links k m → TransGen links m k → m = k) →
    ([k] ∈ groups ↔ links k k)

namespace CallGraph

variable {g : CallGraph}

theorem mem_map_key_iff_reaches {i : Instance} {k : Key} :
    k ∈ ((g.closure i.key).toList.map g.instanceOf).map Instance.key ↔ g.Reaches i.key k := by
  rw [map_key_allDependencies, OrdSet.mem_toList, mem_closure_iff]

theorem listsReached (g : CallGraph) (i : Instance) : ListsReached (· ∈ g.nodes) g.Links i.key
    ((g.closure i.key).toList.map g.instanceOf) where
  sorted := by
    rw [map_key_allDependencies]
    exact (g.closure i.key).sorted
  nodup := by
    rw [map_key_allDependencies]
    exact (g.closure i.key).nodup
  mem_iff k := by
    rw [mem_map_key_iff_reaches]
    exact (and_iff_right_of_imp Reaches.callee_mem).symm
  self_iff := mem_map_key_iff_reaches
  of_loop h := mem_map_key_iff_reaches.2 (.single h)
  of_unknown h := by
    rw [List.map_eq_nil_iff, List.eq_nil_iff_forall_not_mem]
    intro k hk
    exact h (mem_closure_iff.1 hk).caller_mem

theorem listsGroups (g : CallGraph) :
    ListsGroups g.Links g.DependsOn (g.groups g.components) where
  mem_iff i := by
    have h : (∃ c ∈ g.groups g.components, i.key ∈ c ∧ i.key ∈ c) ↔ _ := exists_mem_groups_iff
    rw [dependsOn_iff]
    simpa only [and_self] using h
  nodup := g.isComponents_components.nodup_flatten_groups
  same_iff i j := by
    rw [dependsOn_iff, dependsOn_iff, exists_mem_groups_iff]
  sorted c hc := by
    obtain ⟨k, hk, rfl⟩ := g.isComponents_components.mem_groups_iff.1 hc
    exact ⟨List.ne_nil_of_mem (mem_circle_iff.2 ⟨hk, hk⟩), (g.circle k).sorted⟩
  heads := by
    refine g.isComponents_components.pairwise_groups.imp ?_
    intro c d hcd a ha b hb
    rw [ha, hb] at hcd
    exact hcd
  alone_iff _ := singleton_mem_groups_iff

end CallGraph

namespace Store

/-- The answer lists the nodes at the end of a path of one or more edges, each once and in the order
of keys: in any graph, and in a store with any history. The search may come upon the ends of edges
in any order. -/
theorem allDependencies_lists_reached :
    (∀ (g : CallGraph) (i : Instance), ∃ is, g.allDependencies i = .ok is ∧
      ListsReached (· ∈ g.nodes) g.Links i.key is ∧
      ∀ next : Key → List Key, (∀ a b, b ∈ next a ↔ g.Links a b) →
        g.resolveAll (.ofList (search next g.nodes.toList (next i.key))) = .ok is) ∧
    ∀ (cs : List Change) {α : Type} [Identity α] (x : α),
      let s := after cs
      ∃ is, s.allDependencies x = .ok is ∧
        ListsReached (· ∈ s.keys) s.Links (Identity.key x) is ∧
        ∀ next : Nat → List Nat, (∀ m n, n ∈ next m ↔ n ∈ s.targets m) →
          ∀ n, s.number? x = some n →
            s.resolveAll (search next s.numbers (next n)) = .ok is := by
  constructor
  · intro g i
    refine ⟨_, g.allDependencies_eq_ok i, g.listsReached i, fun next hn ↦ ?_⟩
    rw [CallGraph.closure_eq_search hn]
    exact g.allDependencies_eq_ok i
  · intro cs α _ x s
    have h : s.Represents (CallGraph.after cs) := represents_after cs
    have hx := CallGraph.allDependencies_eq_ok (CallGraph.after cs) (Identity.toInstance x)
    refine ⟨_, (h.allDependencies_eq x).trans hx, ?_, fun next hn n hnum ↦ ?_⟩
    · simp only [h.mem_keys_iff, h.links_eq]
      exact CallGraph.listsReached _ _
    · rw [h.resolveAll_search hn ((h.number?_eq_some_iff x).1 hnum)]
      exact hx

/-- Trimming keeps the specializations of the entry points, what these depend on, and the edges
between them. What a kept node depends on is the same as before, and who calls it as well, as far
as the callers are kept. -/
theorem trim_keeps_dependencies (points : List Name) :
    (∀ g : CallGraph,
      let t := g.trim points
      (∀ k, k ∈ t.nodes ↔ (k ∈ g.nodes ∧ k.callable ∈ points) ∨
        ∃ i : Instance, i.key ∈ g.nodes ∧ i.callable ∈ points ∧ g.DependsOn i k) ∧
      (∀ a b, t.Links a b ↔ a ∈ t.nodes ∧ b ∈ t.nodes ∧ g.Links a b) ∧
      (∀ i : Instance, i.key ∈ t.nodes →
        (∃ is, g.directDependencies i = .ok is ∧ t.directDependencies i = .ok is) ∧
        (∃ is, g.allDependencies i = .ok is ∧ t.allDependencies i = .ok is) ∧
        ∃ is, g.callersOf i = .ok is ∧
          t.callersOf i = .ok (is.filter fun j ↦ j.key ∈ t.nodes)) ∧
      t.nodeCount ≤ g.nodeCount) ∧
    ∀ cs : List Change,
      let s := after cs
      let t := s.trim points
      (∀ k, k ∈ t.keys ↔ (k ∈ s.keys ∧ k.callable ∈ points) ∨
        ∃ i : Instance, i.key ∈ s.keys ∧ i.callable ∈ points ∧ s.DependsOn i k) ∧
      (∀ a b, t.Links a b ↔ a ∈ t.keys ∧ b ∈ t.keys ∧ s.Links a b) ∧
      (∀ {α : Type} [Identity α] (x : α), Identity.key x ∈ t.keys →
        (∃ is, s.directDependencies x = .ok is ∧ t.directDependencies x = .ok is) ∧
        (∃ is, s.allDependencies x = .ok is ∧ t.allDependencies x = .ok is) ∧
        ∃ is, s.callersOf x = .ok is ∧
          t.callersOf x = .ok (is.filter fun j ↦ j.key ∈ t.keys)) ∧
      t.nodeCount ≤ s.nodeCount := by
  constructor
  · intro g t
    refine ⟨fun k ↦ CallGraph.mem_nodes_trim_iff_dependsOn,
      fun a b ↦ CallGraph.links_trim_iff_of_ends, fun i hi ↦ ?_, CallGraph.nodeCount_trim_le⟩
    refine ⟨⟨_, g.directDependencies_eq_ok i, ?_⟩, ⟨_, g.allDependencies_eq_ok i, ?_⟩,
      ⟨_, g.callersOf_eq_ok i, CallGraph.callersOf_trim i⟩⟩
    · rw [CallGraph.directDependencies_trim hi, g.directDependencies_eq_ok]
    · rw [CallGraph.allDependencies_trim hi, g.allDependencies_eq_ok]
  · intro cs s t
    let g := CallGraph.after cs
    have h : s.Represents g := represents_after cs
    have ht : t.Represents (g.trim points) := h.trim points
    simp only [ht.mem_keys_iff, h.mem_keys_iff, ht.links_eq, h.links_eq, h.dependsOn_iff]
    refine ⟨fun k ↦ CallGraph.mem_nodes_trim_iff_dependsOn,
      fun a b ↦ CallGraph.links_trim_iff_of_ends, fun x hx ↦ ⟨?_, ?_, ?_⟩, ?_⟩
    · rw [h.directDependencies_eq x, ht.directDependencies_eq x,
        CallGraph.directDependencies_trim hx]
      exact ⟨_, g.directDependencies_eq_ok _, g.directDependencies_eq_ok _⟩
    · rw [h.allDependencies_eq x, ht.allDependencies_eq x, CallGraph.allDependencies_trim hx]
      exact ⟨_, g.allDependencies_eq_ok _, g.allDependencies_eq_ok _⟩
    · rw [h.callersOf_eq x, ht.callersOf_eq x]
      exact ⟨_, g.callersOf_eq_ok _, CallGraph.callersOf_trim _⟩
    · rw [ht.nodeCount_eq, h.nodeCount_eq]
      exact CallGraph.nodeCount_trim_le

/-- The groups are the sets of instances that depend on each other, and each instance that depends
on itself is in exactly one of them, whichever way the strongly connected components are found. -/
theorem callCycles_lists_mutual_dependencies :
    (∀ g : CallGraph, ∃ groups, g.callCycles = .ok groups ∧
      ListsGroups g.Links g.DependsOn (groups.map (·.map Instance.key)) ∧
      ∀ components, g.IsComponents components →
        g.groups components = groups.map (·.map Instance.key)) ∧
    ∀ cs : List Change,
      let s := after cs
      ∃ groups, ListsGroups s.Links s.DependsOn (groups.map (·.map Instance.key)) ∧
        (∃ components, s.IsComponents components) ∧
        ∀ components, s.IsComponents components → s.callCycles components = .ok groups := by
  constructor
  · intro g
    refine ⟨_, g.callCycles_eq_ok, ?_, fun components hc ↦ ?_⟩
    · rw [g.map_key_callCycles]
      exact g.listsGroups
    · rw [g.map_key_callCycles]
      exact hc.groups_eq g.isComponents_components
  · intro cs s
    let g := CallGraph.after cs
    have h : s.Represents g := represents_after cs
    have hd : s.DependsOn = g.DependsOn := by
      funext i k
      exact propext h.dependsOn_iff
    refine ⟨(g.groups g.components).map (·.map g.instanceOf), ?_, h.exists_isComponents,
      fun components hc ↦ ?_⟩
    · rw [g.map_key_callCycles, h.links_eq, hd]
      exact g.listsGroups
    · rw [h.callCycles_eq hc]
      exact g.callCycles_eq_ok

end Store

end FunctorCalls
