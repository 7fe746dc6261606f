import FunctorCalls.Proofs.Links
import FunctorCalls.Proofs.Trims

namespace FunctorCalls

namespace CallGraph

variable {g g' : CallGraph}

theorem toList_successors (g : CallGraph) (k : Key) :
    (g.successors k).toList = (g.edges.toList.filter (·.caller = k)).map Edge.callee := by
  refine OrdSet.eq_of_sorted (g.successors k).sorted (List.pairwise_map.2 ?_) fun m ↦ ?_
  · refine (g.edges.sorted.filter _).imp_of_mem fun {e f} he hf hef ↦ ?_
    have hk : e.caller = f.caller :=
      (of_decide_eq_true (List.mem_filter.1 he).2).trans
        (of_decide_eq_true (List.mem_filter.1 hf).2).symm
    refine ((compare_edge_eq_lt_iff.1 hef).resolve_left ?_).2
    simp [hk, Std.ReflCmp.compare_self]
  · exact OrdSet.mem_ofList

theorem sameLinks_of_find? (he : g.edges = g'.edges)
    (ht : ∀ e ∈ g.edges, ∀ d ∈ e.caller.digests ++ e.callee.digests,
      g.types.find? d = g'.types.find? d) : g.SameLinks g' where
  edges := he
  caller a b hab := instanceOf_congr fun d hd ↦ by
    rw [TypeTable.typeOf, TypeTable.typeOf, ht _ hab d (List.mem_append_left _ hd)]
  callee a b hab := instanceOf_congr fun d hd ↦ by
    rw [TypeTable.typeOf, TypeTable.typeOf, ht _ hab d (List.mem_append_right _ hd)]

end CallGraph

namespace Store

variable {s s' : Store} {g g' : CallGraph}

theorem Represents.render_eq_of_edges (h : s.Represents g) (h' : s'.Represents g')
    (he : ∀ e, e ∈ s'.edges ↔ e ∈ s.edges)
    (ht : ∀ e ∈ s.edges, ∀ d ∈ e.caller.digests ++ e.callee.digests,
      s'.types.find? d = s.types.find? d) : s'.render = s.render := by
  have hedges : g.edges = g'.edges := by
    apply OrdSet.ext
    intro e
    rw [← h.mem_edges_iff, ← h'.mem_edges_iff, he]
  have hl : g.SameLinks g' := CallGraph.sameLinks_of_find? hedges fun e hm d hd ↦ by
    rw [← h.types, ← h'.types, ht e (h.mem_edges_iff.2 hm) d hd]
  rw [h'.render_eq, h.render_eq, hl.render]

theorem Represents.directDependencies_eq_filter (h : s.Represents g) {α : Type} [Identity α]
    (x : α) : s.directDependencies x =
      .ok ((g.edges.toList.filter (·.caller = Identity.key x)).map (g.instanceOf ·.callee)) := by
  rw [h.directDependencies_eq, CallGraph.directDependencies_eq_ok, CallGraph.toList_successors,
    List.map_map]
  rfl

/-- The text lists every edge once, in the order of callers and then of callees, each end by what
its key turns back into. The lines of a caller are its direct dependencies, in their order, so that
a node without any has no line. Edges alone and the types of their ends decide the text, however
they came about. -/
theorem render_lists_edges (cs : List Change) :
    let s := after cs
    (∃ (edges : List Edge) (instanceOf : Key → Instance),
      edges.Perm s.edges ∧ edges.length = s.edgeCount ∧
      (edges.Pairwise fun e f ↦ compare e.caller f.caller = .lt ∨
        e.caller = f.caller ∧ compare e.callee f.callee = .lt) ∧
      (∀ k ∈ s.keys, s.resolve k = .ok (instanceOf k)) ∧
      s.render = .ok (String.join (edges.map fun e ↦
        (instanceOf e.caller).display ++ " -> " ++ (instanceOf e.callee).display ++ "\n")) ∧
      ∀ {α : Type} [Identity α] (x : α), s.directDependencies x =
        .ok ((edges.filter (·.caller = Identity.key x)).map (instanceOf ·.callee))) ∧
    (CallGraph.after cs).render = s.render ∧
    ∀ cs', (∀ e, e ∈ (after cs').edges ↔ e ∈ s.edges) →
      (∀ e ∈ s.edges, ∀ d ∈ e.caller.digests ++ e.callee.digests,
        (after cs').types.find? d = s.types.find? d) →
      (after cs').render = s.render := by
  intro s
  have h : s.Represents (CallGraph.after cs) := represents_after cs
  refine ⟨⟨(CallGraph.after cs).edges.toList, (CallGraph.after cs).instanceOf, h.edges.symm,
    h.edgeCount_eq.symm, ?_, ?_, ?_, h.directDependencies_eq_filter⟩, h.render_eq.symm, ?_⟩
  · exact (CallGraph.after cs).edges.sorted.imp CallGraph.compare_edge_eq_lt_iff.1
  · intro k hk
    rw [h.resolve_eq]
    exact CallGraph.resolve_eq_ok (h.mem_keys_iff.1 hk)
  · exact h.render_eq.trans (CallGraph.render_eq_lines _)
  · intro cs' he ht
    exact h.render_eq_of_edges (represents_after cs') he ht

namespace Sample

def flip : Instance := ⟨⟨"Coins", "Flip"⟩, .body, none⟩

def retry : Instance := ⟨⟨"Coins", "Retry"⟩, .adjoint, some [.base .result, .base .int]⟩

def play : Instance := ⟨⟨"Games", "Play"⟩, .body, some [.base .qubit]⟩

def direct : List Change := [.add flip retry, .add retry flip]

/-- The same edges in another order, behind one that is trimmed away and leaves its type. -/
def roundabout : List Change := [.add play flip, .trim [], .add retry flip, .add flip retry]

theorem after_roundabout : after roundabout =
    [Change.add retry flip, .add flip retry].foldl apply
      (ofTypes (after [.add play flip]).types) := by
  rw [← trim_nil]
  rfl

end Sample

theorem render_lists_edges_roundabout :
    (∀ e, e ∈ (after Sample.roundabout).edges ↔ e ∈ (after Sample.direct).edges) ∧
    (∀ e ∈ (after Sample.direct).edges, ∀ d ∈ e.caller.digests ++ e.callee.digests,
      (after Sample.roundabout).types.find? d = (after Sample.direct).types.find? d) ∧
    (after Sample.direct).types.size < (after Sample.roundabout).types.size ∧
    (after Sample.roundabout).render = (after Sample.direct).render := by
  have hp : (after Sample.roundabout).edges.Perm (after Sample.direct).edges := by
    rw [Sample.after_roundabout]
    decide +kernel
  have ht : ∀ e ∈ (after Sample.direct).edges, ∀ d ∈ e.caller.digests ++ e.callee.digests,
      (after Sample.roundabout).types.find? d = (after Sample.direct).types.find? d := by
    rw [Sample.after_roundabout]
    decide +kernel
  have hsize : (after Sample.direct).types.size < (after Sample.roundabout).types.size := by
    rw [Sample.after_roundabout]
    decide +kernel
  obtain ⟨-, -, h⟩ := render_lists_edges Sample.direct
  exact ⟨fun _ ↦ hp.mem_iff, ht, hsize, h Sample.roundabout (fun _ ↦ hp.mem_iff) ht⟩

end Store

end FunctorCalls
