import FunctorCalls.Proofs.Links
import FunctorCalls.Proofs.Returned
import FunctorCalls.Proofs.Visits

namespace FunctorCalls.CallGraph

open Change

variable {cs cs' : List Change}

theorem instances_subset (h : ∀ r ∈ cs'.flatMap recorded, r ∈ cs.flatMap recorded) :
    ∀ i ∈ Change.instances cs', i ∈ Change.instances cs := by
  intro i hi
  obtain ⟨r, hr, hi⟩ := List.mem_flatMap.1 hi
  exact List.mem_flatMap.2 ⟨r, h r hr, hi⟩

theorem types_subset (h : ∀ i ∈ Change.instances cs', i ∈ Change.instances cs) {t : Ty}
    (ht : t ∈ Change.types cs') : t ∈ Change.types cs := by
  obtain ⟨i, hi, ht⟩ := List.mem_flatMap.1 ht
  exact mem_types (h i hi) ht

theorem instanceOf_eq (hs : Separate cs)
    (h : ∀ i ∈ Change.instances cs', i ∈ Change.instances cs) {k : Key}
    (hk : k ∈ (after cs).nodes) (hk' : k ∈ (after cs').nodes) :
    (after cs').instanceOf k = (after cs).instanceOf k := by
  obtain ⟨i, hi, rfl⟩ := (comesFrom_after cs').nodes k hk'
  have hs' : Separate cs' := fun t ht u hu ↦ hs t (types_subset h ht) u (types_subset h hu)
  rw [instanceOf_key hs' hi hk', instanceOf_key hs (h i hi) hk]

variable {g g' : CallGraph}

structure Agrees (g g' : CallGraph) : Prop where
  nodes : g.nodes = g'.nodes
  edges : g.edges = g'.edges
  instanceOf : ∀ k ∈ g.nodes, g.instanceOf k = g'.instanceOf k

namespace Agrees

theorem sameLinks (h : g.Agrees g') : g.SameLinks g' where
  edges := h.edges
  caller _ _ hab := h.instanceOf _ (g.ends_mem _ hab).1
  callee _ _ hab := h.instanceOf _ (g.ends_mem _ hab).2

theorem reached (h : g.Agrees g') (stack : List Key) : g.reached stack = g'.reached stack := by
  rw [CallGraph.reached, CallGraph.reached, h.nodes, funext h.sameLinks.successors]

theorem instances (h : g.Agrees g') : g.instances = g'.instances := by
  rw [instances_eq_ok, instances_eq_ok, ← h.nodes]
  exact congrArg Except.ok (List.map_congr_left h.instanceOf)

theorem answers (h : g.Agrees g') : g.answers = g'.answers := by
  have hl := h.sameLinks
  rw [CallGraph.answers, CallGraph.answers, funext hl.directDependencies,
    funext hl.allDependencies, funext hl.callersOf, h.instances, hl.callCycles, hl.render,
    nodeCount, nodeCount, edgeCount, edgeCount, h.nodes, h.edges]

theorem trim (h : g.Agrees g') {points points' : List Name}
    (hp : ∀ n, n ∈ points ↔ n ∈ points') : (g.trim points).Agrees (g'.trim points') := by
  have he : g.entries points = g'.entries points' := by
    simp only [CallGraph.entries, h.nodes, hp]
  have hr : g.reached (g.entries points).toList = g'.reached (g'.entries points').toList := by
    rw [he, h.reached]
  have hf : ∀ keys, g.edgesFrom keys = g'.edgesFrom keys := fun keys ↦ by
    rw [edgesFrom, edgesFrom, funext h.sameLinks.successors]
  refine ⟨?_, ?_, fun k hk ↦ ?_⟩
  · simp only [CallGraph.trim, rebuild, hr, hf]
  · simp only [CallGraph.trim, rebuild, hr, hf]
  · exact h.instanceOf k (mem_nodes_of_mem_nodes_trim hk)

end Agrees

theorem agrees_after (hcs : ∀ c ∈ cs, c.isTrim = false) (hcs' : ∀ c ∈ cs', c.isTrim = false)
    (hr : ∀ r, r ∈ cs.flatMap recorded ↔ r ∈ cs'.flatMap recorded) (hs : Separate cs) :
    (after cs).Agrees (after cs') := by
  have hedges : ∀ e, e ∈ (after cs).edges ↔ e ∈ (after cs').edges := by
    intro e
    rw [after_eq_recordEach hcs, after_eq_recordEach hcs', mem_edges_recordEach_empty,
      mem_edges_recordEach_empty]
    exact exists_congr fun r ↦ and_congr_left fun _ ↦ hr r
  have hnodes : ∀ k, k ∈ (after cs).nodes ↔ k ∈ (after cs').nodes := by
    intro k
    have h := hedges
    rw [after_eq_recordEach hcs, after_eq_recordEach hcs'] at h ⊢
    rw [mem_nodes_recordEach_empty, mem_nodes_recordEach_empty]
    exact exists_congr fun e ↦ and_congr_left fun _ ↦ h e
  have hi := instances_subset fun r hm ↦ (hr r).2 hm
  refine ⟨OrdSet.ext hnodes, OrdSet.ext hedges, fun k hk ↦ ?_⟩
  exact (instanceOf_eq hs hi hk ((hnodes k).1 hk)).symm

end FunctorCalls.CallGraph
