import FunctorCalls.CallGraph.Trim
import FunctorCalls.Proofs.Closure

namespace FunctorCalls.CallGraph

open Relation

variable {g : CallGraph} {points : List Name}

theorem mem_entries_iff {k : Key} : k ∈ g.entries points ↔ k ∈ g.nodes ∧ k.callable ∈ points := by
  rw [entries, OrdSet.mem_filter, decide_eq_true_iff]

theorem mem_reached_entries_iff {k : Key} : k ∈ g.reached (g.entries points).toList ↔
    ∃ s ∈ g.entries points, ReflTransGen g.Links s k :=
  mem_reached_iff fun _ hs ↦ (mem_entries_iff.1 hs).1

theorem mem_nodes_trim_iff {k : Key} : k ∈ (g.trim points).nodes ↔
    ∃ s ∈ g.entries points, ReflTransGen g.Links s k := by
  rw [← mem_reached_entries_iff]
  simp only [trim, rebuild, OrdSet.mem_ofList, List.mem_append]
  -- The ends of the edges are reached as well, and add no node.
  apply or_iff_left_of_imp
  intro h
  obtain ⟨e, he, rfl⟩ := List.mem_map.1 h
  obtain ⟨hk, he⟩ := mem_edgesFrom.1 he
  obtain ⟨s, hs, hp⟩ := mem_reached_entries_iff.1 hk
  exact mem_reached_entries_iff.2 ⟨s, hs, hp.tail he⟩

theorem entry_mem_nodes_trim {k : Key} (h : k ∈ g.entries points) : k ∈ (g.trim points).nodes :=
  mem_nodes_trim_iff.2 ⟨k, h, .refl⟩

theorem mem_nodes_of_mem_nodes_trim {k : Key} (hk : k ∈ (g.trim points).nodes) : k ∈ g.nodes := by
  obtain ⟨s, hs, hp⟩ := mem_nodes_trim_iff.1 hk
  rcases hp.cases_tail with rfl | ⟨m, -, hm⟩
  · exact (mem_entries_iff.1 hs).1
  · exact (g.ends_mem _ hm).2

theorem callee_mem_nodes_trim {a b : Key} (ha : a ∈ (g.trim points).nodes) (h : g.Links a b) :
    b ∈ (g.trim points).nodes := by
  obtain ⟨s, hs, hp⟩ := mem_nodes_trim_iff.1 ha
  exact mem_nodes_trim_iff.2 ⟨s, hs, hp.tail h⟩

theorem links_trim_iff {a b : Key} :
    (g.trim points).Links a b ↔ a ∈ (g.trim points).nodes ∧ g.Links a b := by
  rw [mem_nodes_trim_iff, ← mem_reached_entries_iff]
  exact OrdSet.mem_ofList.trans mem_edgesFrom

theorem reaches_trim_iff {a b : Key} (ha : a ∈ (g.trim points).nodes) :
    (g.trim points).Reaches a b ↔ g.Reaches a b := by
  constructor
  · have hl : ∀ a b, (g.trim points).Links a b → g.Links a b := by
      intro a b h
      exact (links_trim_iff.1 h).2
    exact TransGen.mono hl a b
  · intro h
    induction h with
    | single h => exact .single (links_trim_iff.2 ⟨ha, h⟩)
    | tail _ h ih => exact ih.tail (links_trim_iff.2 ⟨ih.callee_mem, h⟩)

theorem successors_trim {k : Key} (hk : k ∈ (g.trim points).nodes) :
    (g.trim points).successors k = g.successors k := by
  apply OrdSet.ext
  intro m
  rw [mem_successors, mem_successors]
  exact links_trim_iff.trans (and_iff_right hk)

theorem closure_trim {k : Key} (hk : k ∈ (g.trim points).nodes) :
    (g.trim points).closure k = g.closure k := by
  apply OrdSet.ext
  intro m
  rw [mem_closure_iff, mem_closure_iff, reaches_trim_iff hk]

theorem predecessors_trim {k : Key} :
    (g.trim points).predecessors k = (g.predecessors k).filter (· ∈ (g.trim points).nodes) := by
  apply OrdSet.ext
  intro m
  rw [OrdSet.mem_filter, decide_eq_true_iff, mem_predecessors, mem_predecessors]
  exact links_trim_iff.trans and_comm

theorem instanceOf_trim : (g.trim points).instanceOf = g.instanceOf := rfl

theorem nodeCount_trim_le : (g.trim points).nodeCount ≤ g.nodeCount :=
  (g.trim points).nodes.nodup.length_le_of_subset fun _ ↦ mem_nodes_of_mem_nodes_trim

theorem callersOf_trim (i : Instance) :
    (g.trim points).callersOf i = .ok (((g.predecessors i.key).toList.map g.instanceOf).filter
      fun j ↦ j.key ∈ (g.trim points).nodes) := by
  rw [callersOf_eq_ok, predecessors_trim, instanceOf_trim, List.filter_map, OrdSet.filter]
  congr 2
  apply List.filter_congr
  intro m hm
  have hk : (g.instanceOf m).key = m := key_instanceOf (g.ends_mem _ (mem_predecessors.1 hm)).1
  rw [Function.comp_apply, hk]

theorem directDependencies_trim {i : Instance} (hi : i.key ∈ (g.trim points).nodes) :
    (g.trim points).directDependencies i = g.directDependencies i := by
  rw [directDependencies_eq_ok, directDependencies_eq_ok, successors_trim hi, instanceOf_trim]

theorem allDependencies_trim {i : Instance} (hi : i.key ∈ (g.trim points).nodes) :
    (g.trim points).allDependencies i = g.allDependencies i := by
  rw [allDependencies_eq_ok, allDependencies_eq_ok, closure_trim hi, instanceOf_trim]

theorem mem_nodes_trim_iff_dependsOn {k : Key} : k ∈ (g.trim points).nodes ↔
    (k ∈ g.nodes ∧ k.callable ∈ points) ∨
      ∃ i : Instance, i.key ∈ g.nodes ∧ i.callable ∈ points ∧ g.DependsOn i k := by
  rw [mem_nodes_trim_iff]
  constructor
  · intro ⟨s, hs, hp⟩
    obtain ⟨hs, hc⟩ := mem_entries_iff.1 hs
    rcases reflTransGen_iff_eq_or_transGen.1 hp with rfl | hp
    · exact .inl ⟨hs, hc⟩
    · have hk := key_instanceOf hs
      exact .inr ⟨g.instanceOf s, hk.symm ▸ hs, hc, dependsOn_iff.2 (hk.symm ▸ hp)⟩
  · rintro (⟨hk, hc⟩ | ⟨i, hi, hc, hd⟩)
    · exact ⟨k, mem_entries_iff.2 ⟨hk, hc⟩, .refl⟩
    · exact ⟨i.key, mem_entries_iff.2 ⟨hi, hc⟩, (dependsOn_iff.1 hd).to_reflTransGen⟩

theorem links_trim_iff_of_ends {a b : Key} : (g.trim points).Links a b ↔
    a ∈ (g.trim points).nodes ∧ b ∈ (g.trim points).nodes ∧ g.Links a b := by
  rw [links_trim_iff]
  exact ⟨fun ⟨ha, h⟩ ↦ ⟨ha, callee_mem_nodes_trim ha h, h⟩, fun ⟨ha, _, h⟩ ↦ ⟨ha, h⟩⟩

end FunctorCalls.CallGraph
