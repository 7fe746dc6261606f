import FunctorCalls.CallGraph.Trim
import FunctorCalls.Proofs.Cycles

namespace FunctorCalls

open Relation

structure Answers.SameLinks (a b : Answers) : Prop where
  directDependencies : a.directDependencies = b.directDependencies
  allDependencies : a.allDependencies = b.allDependencies
  callersOf : a.callersOf = b.callersOf
  callCycles : a.callCycles = b.callCycles
  render : a.render = b.render
  edgeCount : a.edgeCount = b.edgeCount

namespace CallGraph

variable {g g' : CallGraph}

theorem compare_edge_eq_lt_iff {e f : Edge} : compare e f = .lt ↔
    compare e.caller f.caller = .lt ∨
      e.caller = f.caller ∧ compare e.callee f.callee = .lt := by
  have h : compare e f = (compare e.caller f.caller).then (compare e.callee f.callee) := rfl
  rw [h, Ordering.then_eq_lt, Std.LawfulEqCmp.compare_eq_iff_eq]

theorem edgesFrom_nodes (g : CallGraph) : g.edgesFrom g.nodes.toList = g.edges.toList := by
  refine OrdSet.eq_of_sorted ?_ g.edges.sorted fun e ↦ ?_
  · refine List.pairwise_flatMap.2 ⟨fun k _ ↦ ?_, g.nodes.sorted.imp fun {k m} hkm ↦ ?_⟩
    · refine List.pairwise_map.2 ((g.successors k).sorted.imp fun {a b} hab ↦ ?_)
      exact compare_edge_eq_lt_iff.2 (.inr ⟨rfl, hab⟩)
    · intro e he f hf
      obtain ⟨a, -, rfl⟩ := List.mem_map.1 he
      obtain ⟨b, -, rfl⟩ := List.mem_map.1 hf
      exact compare_edge_eq_lt_iff.2 (.inl hkm)
  · exact mem_edgesFrom.trans (and_iff_right_of_imp fun he ↦ (g.ends_mem e he).1)

def lineOf (g : CallGraph) (e : Edge) : String :=
  line (g.instanceOf e.caller) (g.instanceOf e.callee)

theorem render_eq_lines (g : CallGraph) :
    g.render = .ok (String.join (g.edges.toList.map g.lineOf)) := by
  have h : ∀ k ∈ g.nodes.toList, (g.linesOf ∘ g.instanceOf) k =
      ((g.successors k).toList.map fun m ↦ Edge.mk k m).map g.lineOf := by
    intro k hk
    rw [Function.comp_apply, linesOf, key_instanceOf hk, List.map_map, List.map_map]
    rfl
  rw [render_eq_ok, ← edgesFrom_nodes, edgesFrom, List.map_flatMap, List.flatMap_def, List.map_map,
    List.map_congr_left h]

/-- Graphs of the same edges, that turn the ends of edges into the same instances. -/
structure SameLinks (g g' : CallGraph) : Prop where
  edges : g.edges = g'.edges
  caller : ∀ a b, g.Links a b → g.instanceOf a = g'.instanceOf a
  callee : ∀ a b, g.Links a b → g.instanceOf b = g'.instanceOf b

namespace SameLinks

theorem links (h : g.SameLinks g') : g.Links = g'.Links := by
  funext a b
  rw [Links, Links, h.edges]

theorem callee_of_reaches (h : g.SameLinks g') {a b : Key} (hab : g.Reaches a b) :
    g.instanceOf b = g'.instanceOf b := by
  obtain ⟨c, -, hcb⟩ := TransGen.tail'_iff.1 hab
  exact h.callee c b hcb

theorem successors (h : g.SameLinks g') (k : Key) : g.successors k = g'.successors k := by
  rw [CallGraph.successors, CallGraph.successors, h.edges]

theorem predecessors (h : g.SameLinks g') (k : Key) : g.predecessors k = g'.predecessors k := by
  rw [CallGraph.predecessors, CallGraph.predecessors, h.edges]

theorem closure (h : g.SameLinks g') (k : Key) : g.closure k = g'.closure k := by
  apply OrdSet.ext
  intro m
  rw [mem_closure_iff, mem_closure_iff, Reaches, Reaches, h.links]

theorem directDependencies (h : g.SameLinks g') (i : Instance) :
    g.directDependencies i = g'.directDependencies i := by
  rw [directDependencies_eq_ok, directDependencies_eq_ok, ← h.successors]
  exact congrArg Except.ok (List.map_congr_left fun k hk ↦ h.callee _ k (mem_successors.1 hk))

theorem allDependencies (h : g.SameLinks g') (i : Instance) :
    g.allDependencies i = g'.allDependencies i := by
  rw [allDependencies_eq_ok, allDependencies_eq_ok, ← h.closure]
  exact congrArg Except.ok
    (List.map_congr_left fun k hk ↦ h.callee_of_reaches (mem_closure_iff.1 hk))

theorem callersOf (h : g.SameLinks g') (i : Instance) : g.callersOf i = g'.callersOf i := by
  rw [callersOf_eq_ok, callersOf_eq_ok, ← h.predecessors]
  exact congrArg Except.ok (List.map_congr_left fun k hk ↦ h.caller k _ (mem_predecessors.1 hk))

theorem callCycles (h : g.SameLinks g') : g.callCycles = g'.callCycles := by
  have hg : g.groups g.components = g'.groups g'.components :=
    g.isComponents_components.groups_eq_of_links g'.isComponents_components h.links
  rw [callCycles_eq_ok, callCycles_eq_ok, ← hg]
  refine congrArg Except.ok (List.map_congr_left fun c hc ↦ List.map_congr_left fun k hk ↦ ?_)
  obtain ⟨a, -, rfl⟩ := g.isComponents_components.mem_groups_iff.1 hc
  exact h.callee_of_reaches (mem_circle_iff.1 hk).1

theorem render (h : g.SameLinks g') : g.render = g'.render := by
  rw [render_eq_lines, render_eq_lines, ← h.edges]
  have hl : ∀ e ∈ g.edges.toList, g.lineOf e = g'.lineOf e := fun e he ↦ by
    rw [lineOf, lineOf, h.caller _ _ he, h.callee _ _ he]
  rw [List.map_congr_left hl]

theorem answers (h : g.SameLinks g') : g.answers.SameLinks g'.answers where
  directDependencies := funext h.directDependencies
  allDependencies := funext h.allDependencies
  callersOf := funext h.callersOf
  callCycles := h.callCycles
  render := h.render
  edgeCount := congrArg OrdSet.size h.edges

end SameLinks

end CallGraph

end FunctorCalls
