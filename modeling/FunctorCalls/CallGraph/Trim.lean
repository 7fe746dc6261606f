import FunctorCalls.CallGraph.Closure

namespace FunctorCalls.CallGraph

def entries (g : CallGraph) (points : List Name) : OrdSet Key :=
  g.nodes.filter (·.callable ∈ points)

def edgesFrom (g : CallGraph) (keys : List Key) : List Edge :=
  keys.flatMap fun k ↦ (g.successors k).toList.map fun m ↦ ⟨k, m⟩

theorem mem_edgesFrom {g : CallGraph} {keys : List Key} {e : Edge} :
    e ∈ g.edgesFrom keys ↔ e.caller ∈ keys ∧ e ∈ g.edges := by
  rw [edgesFrom, List.mem_flatMap]
  constructor
  · intro ⟨k, hk, he⟩
    obtain ⟨m, hm, rfl⟩ := List.mem_map.1 he
    exact ⟨hk, mem_successors.1 hm⟩
  · intro ⟨hk, he⟩
    exact ⟨e.caller, hk, List.mem_map.2 ⟨e.callee, mem_successors.2 he, rfl⟩⟩

/-- A new graph of some of the nodes, and of the edges that start at them with their ends. It
keeps the whole table of types. -/
def rebuild (g : CallGraph) (keys : List Key) (h : ∀ k ∈ keys, k ∈ g.nodes) : CallGraph where
  nodes := .ofList (keys ++ (g.edgesFrom keys).map Edge.callee)
  edges := .ofList (g.edgesFrom keys)
  types := g.types
  ends_mem := by
    intro e he
    rw [OrdSet.mem_ofList] at he
    simp only [OrdSet.mem_ofList, List.mem_append]
    exact ⟨.inl (mem_edgesFrom.1 he).1, .inr (List.mem_map_of_mem he)⟩
  digests_mem := by
    intro k hk
    rw [OrdSet.mem_ofList, List.mem_append] at hk
    rcases hk with hk | hk
    · exact g.digests_mem k (h k hk)
    · obtain ⟨e, he, rfl⟩ := List.mem_map.1 hk
      exact g.digests_mem _ (g.ends_mem e (mem_edgesFrom.1 he).2).2

def trim (g : CallGraph) (points : List Name) : CallGraph :=
  g.rebuild (g.reached (g.entries points).toList) fun _ ↦ mem_of_mem_search

end FunctorCalls.CallGraph
