import FunctorCalls.CallGraph

namespace FunctorCalls

section

variable {α : Type} [DecidableEq α]

/-- The unseen elements that a stack leads to, in the order in which they are taken from it. An
element that was seen before is dropped; any other makes way for everything one step away. -/
def search (next : α → List α) (unseen : List α) : List α → List α
  | [] => []
  | a :: stack =>
    if a ∈ unseen then a :: search next (unseen.erase a) (next a ++ stack)
    else search next unseen stack
termination_by stack => (unseen.length, stack.length)
decreasing_by
  · next h =>
    rw [List.length_erase_of_mem h]
    exact .left _ _ (Nat.sub_one_lt (Nat.ne_of_gt (List.length_pos_of_mem h)))
  · exact .right _ (Nat.lt_succ_self _)

theorem mem_of_mem_search {next : α → List α} {unseen stack : List α} {a : α}
    (h : a ∈ search next unseen stack) : a ∈ unseen := by
  fun_induction search next unseen stack with
  | case1 => simp at h
  | case2 unseen b stack hb ih =>
    rcases List.mem_cons.1 h with rfl | h
    · exact hb
    · exact List.mem_of_mem_erase (ih h)
  | case3 unseen b stack hb ih => exact ih h

end

namespace CallGraph

def successors (g : CallGraph) (k : Key) : OrdSet Key :=
  .ofList ((g.edges.toList.filter (·.caller = k)).map Edge.callee)

@[simp]
theorem mem_successors {g : CallGraph} {k m : Key} : m ∈ g.successors k ↔ ⟨k, m⟩ ∈ g.edges := by
  simp only [successors, OrdSet.mem_ofList_map_filter, decide_eq_true_eq]
  constructor
  · rintro ⟨e, he, rfl, rfl⟩
    exact he
  · intro h
    exact ⟨⟨k, m⟩, h, rfl, rfl⟩

def predecessors (g : CallGraph) (k : Key) : OrdSet Key :=
  .ofList ((g.edges.toList.filter (·.callee = k)).map Edge.caller)

@[simp]
theorem mem_predecessors {g : CallGraph} {k m : Key} :
    m ∈ g.predecessors k ↔ ⟨m, k⟩ ∈ g.edges := by
  simp only [predecessors, OrdSet.mem_ofList_map_filter, decide_eq_true_eq]
  constructor
  · rintro ⟨e, he, rfl, rfl⟩
    exact he
  · intro h
    exact ⟨⟨m, k⟩, h, rfl, rfl⟩

def reached (g : CallGraph) (stack : List Key) : List Key :=
  search (fun k ↦ (g.successors k).toList) g.nodes.toList stack

/-- The nodes at the end of a path of at least one edge from a key. The search begins one step
away, so that it comes upon the key itself only where a path leads back to it. -/
def closure (g : CallGraph) (k : Key) : OrdSet Key := .ofList (g.reached (g.successors k).toList)

end CallGraph

end FunctorCalls
