import FunctorCalls.Key
import FunctorCalls.OrdSet
import FunctorCalls.References
import FunctorCalls.TypeTable

namespace FunctorCalls

structure Edge where
  caller : Key
  callee : Key
  deriving DecidableEq

namespace Edge

instance : Ord Edge where
  compare := compareLex (compareOn caller) (compareOn callee)

instance : Std.TransOrd Edge :=
  inferInstanceAs (Std.TransCmp (compareLex (compareOn caller) (compareOn callee)))

instance : Std.LawfulEqOrd Edge where
  eq_of_compare {a b} h := by
    obtain ⟨hr, he⟩ := Ordering.then_eq_eq.1 h
    have hr : a.caller = b.caller := Std.LawfulEqOrd.eq_of_compare hr
    have he : a.callee = b.callee := Std.LawfulEqOrd.eq_of_compare he
    cases a
    cases b
    simp_all

end Edge

/-- Which instances refer to which. The table turns the keys of the nodes back into instances. -/
structure CallGraph where
  nodes : OrdSet Key
  edges : OrdSet Edge
  types : TypeTable
  ends_mem : ∀ e ∈ edges, e.caller ∈ nodes ∧ e.callee ∈ nodes
  digests_mem : ∀ k ∈ nodes, ∀ d ∈ k.digests, d ∈ types.digests

namespace CallGraph

def empty : CallGraph where
  nodes := .empty
  edges := .empty
  types := .empty
  ends_mem := by simp
  digests_mem := by simp

def nodeCount (g : CallGraph) : Nat := g.nodes.size

def edgeCount (g : CallGraph) : Nat := g.edges.size

def isEmpty (g : CallGraph) : Bool := g.nodes.isEmpty

def contains (g : CallGraph) (i : Instance) : Bool := i.key ∈ g.nodes

def calls (g : CallGraph) (caller callee : Instance) : Bool := ⟨caller.key, callee.key⟩ ∈ g.edges

def typesWith (T : TypeTable) (i : Instance) : TypeTable := (T.internOptional i.typeArgs).1

theorem mem_digests_typesWith {T : TypeTable} {i : Instance} {d : Digest} :
    d ∈ (typesWith T i).digests ↔ d ∈ T.digests ∨ d ∈ i.key.digests := by
  rcases i with ⟨c, v, _ | ts⟩
  · simp [typesWith, TypeTable.internOptional, Instance.key, Key.digests]
  · simp [typesWith, TypeTable.internOptional, Instance.key, Key.digests,
      TypeTable.mem_digests_internAll]

def record (g : CallGraph) (caller callee : Instance) : CallGraph where
  nodes := (g.nodes.insert caller.key).insert callee.key
  edges := g.edges.insert ⟨caller.key, callee.key⟩
  types := typesWith (typesWith g.types caller) callee
  ends_mem := by
    intro e he
    rcases OrdSet.mem_insert.1 he with rfl | he
    · simp
    · have := g.ends_mem e he
      simp [this]
  digests_mem := by
    intro k hk d hd
    simp only [OrdSet.mem_insert] at hk
    simp only [mem_digests_typesWith]
    rcases hk with rfl | rfl | hk
    · exact .inr hd
    · exact .inl (.inr hd)
    · exact .inl (.inl (g.digests_mem k hk d hd))

/-- The graph with an edge, and whether the edge is new. -/
def add (g : CallGraph) (caller callee : Instance) : CallGraph × Bool :=
  (g.record caller callee, !g.calls caller callee)

def recordAll (g : CallGraph) (caller : Instance) (callees : List Instance) : CallGraph :=
  callees.foldl (·.record caller) g

theorem mem_edges_record {g : CallGraph} {caller callee : Instance} {e : Edge} :
    e ∈ (g.record caller callee).edges ↔ e = ⟨caller.key, callee.key⟩ ∨ e ∈ g.edges :=
  OrdSet.mem_insert

theorem mem_edges_recordAll {g : CallGraph} {caller : Instance} {callees : List Instance}
    {e : Edge} : e ∈ (g.recordAll caller callees).edges ↔
      e ∈ g.edges ∨ ∃ i ∈ callees, e = ⟨caller.key, i.key⟩ := by
  induction callees generalizing g with
  | nil => simp [recordAll]
  | cons i is ih =>
    rw [recordAll, List.foldl_cons, ← recordAll, ih, mem_edges_record]
    simp only [List.mem_cons, exists_eq_or_imp]
    rw [or_comm (a := e = _), or_assoc]

def walk (g : CallGraph) (caller : Instance) (f : Fragment) : CallGraph :=
  g.recordAll caller f.references

theorem mem_edges_walk_empty {caller : Instance} {f : Fragment} {e : Edge} :
    e ∈ (empty.walk caller f).edges ↔ ∃ i ∈ f.references, e = ⟨caller.key, i.key⟩ :=
  mem_edges_recordAll.trans (or_iff_right OrdSet.not_mem_empty)

def recordCallable (g : CallGraph) (caller : Instance) (callable : Name)
    (typeArgs : Option (List Ty)) (c : Context) : CallGraph :=
  g.recordAll caller (c.references callable typeArgs)

end CallGraph

end FunctorCalls
