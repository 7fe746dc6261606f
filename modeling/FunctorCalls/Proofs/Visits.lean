import FunctorCalls.Build.Visits
import FunctorCalls.Proofs.Store

namespace FunctorCalls

open Change Visit

namespace CallGraph

variable {g : CallGraph} {pairs : List (Instance × Instance)}

def recordEach (g : CallGraph) (pairs : List (Instance × Instance)) : CallGraph :=
  pairs.foldl (fun g p ↦ g.record p.1 p.2) g

theorem recordEach_append (g : CallGraph) (pairs pairs' : List (Instance × Instance)) :
    g.recordEach (pairs ++ pairs') = (g.recordEach pairs).recordEach pairs' :=
  List.foldl_append

theorem mem_edges_recordEach {e : Edge} : e ∈ (g.recordEach pairs).edges ↔
    e ∈ g.edges ∨ ∃ p ∈ pairs, e = ⟨p.1.key, p.2.key⟩ := by
  induction pairs generalizing g with
  | nil => simp [recordEach]
  | cons p pairs ih =>
    rw [recordEach, List.foldl_cons, ← recordEach, ih, mem_edges_record]
    simp only [List.mem_cons, exists_eq_or_imp]
    rw [or_comm (a := e = _), or_assoc]

theorem mem_nodes_recordEach {k : Key} : k ∈ (g.recordEach pairs).nodes ↔
    k ∈ g.nodes ∨ ∃ p ∈ pairs, k = p.1.key ∨ k = p.2.key := by
  induction pairs generalizing g with
  | nil => simp [recordEach]
  | cons p pairs ih =>
    rw [recordEach, List.foldl_cons, ← recordEach, ih]
    simp only [record, OrdSet.mem_insert, List.mem_cons, exists_eq_or_imp]
    grind

theorem mem_edges_recordEach_empty {e : Edge} :
    e ∈ (empty.recordEach pairs).edges ↔ ∃ p ∈ pairs, e = ⟨p.1.key, p.2.key⟩ :=
  mem_edges_recordEach.trans (or_iff_right OrdSet.not_mem_empty)

theorem mem_nodes_recordEach_empty {k : Key} : k ∈ (empty.recordEach pairs).nodes ↔
    ∃ e ∈ (empty.recordEach pairs).edges, k = e.caller ∨ k = e.callee := by
  refine (mem_nodes_recordEach.trans (or_iff_right OrdSet.not_mem_empty)).trans ?_
  constructor
  · intro ⟨p, hp, hk⟩
    exact ⟨⟨p.1.key, p.2.key⟩, mem_edges_recordEach_empty.2 ⟨p, hp, rfl⟩, hk⟩
  · intro ⟨e, he, hk⟩
    obtain ⟨p, hp, rfl⟩ := mem_edges_recordEach_empty.1 he
    exact ⟨p, hp, hk⟩

theorem after_eq_recordEach {cs : List Change} (h : ∀ c ∈ cs, c.isTrim = false) :
    after cs = empty.recordEach (cs.flatMap recorded) := by
  have hrun (g : CallGraph) : cs.foldl apply g = g.recordEach (cs.flatMap recorded) := by
    induction cs generalizing g with
    | nil => rfl
    | cons c cs ih =>
      rw [List.foldl_cons, ih fun d hd ↦ h d (List.mem_cons_of_mem c hd),
        apply_eq_foldl g (h c List.mem_cons_self), ← recordEach, ← recordEach_append,
        List.flatMap_cons]
  exact hrun empty

theorem mem_bodyReferences_iff {s : Specialization} {p : Instance × Instance} :
    p ∈ bodyReferences s ↔ ∃ argument body, s.implementation = .provided argument body ∧
      p.1 = s.id ∧ p.2 ∈ body.references := by
  obtain ⟨i, j⟩ := p
  rw [bodyReferences]
  cases s.implementation with
  | provided argument body =>
    simp only [Implementation.body?, List.mem_map, Prod.mk.injEq, Implementation.provided.injEq]
    constructor
    · rintro ⟨_, hj, rfl, rfl⟩
      exact ⟨argument, body, ⟨rfl, rfl⟩, rfl, hj⟩
    · rintro ⟨_, _, ⟨rfl, rfl⟩, rfl, hj⟩
      exact ⟨j, hj, rfl, rfl⟩
  | _ => simp [Implementation.body?]

theorem caller_of_mem_bodyReferences {s : Specialization} {r : Instance × Instance}
    (h : r ∈ bodyReferences s) : r.1 = s.id := by
  obtain ⟨_, _, -, h, -⟩ := mem_bodyReferences_iff.1 h
  exact h

end CallGraph

namespace Builder

variable {b : Builder}

def hasBody (s : Specialization) : Bool := s.implementation.body?.isSome

theorem visitSpecialization_eq (hb : b.current = none) (s : Specialization) :
    b.visitSpecialization s =
      ⟨b.graph.recordEach (bodyReferences s), none, b.walked + [s].countP hasBody⟩ := by
  obtain ⟨graph, current, walked⟩ := b
  obtain rfl : current = none := hb
  rw [visitSpecialization, bodyReferences, List.countP_singleton, hasBody]
  cases s.implementation.body? with
  | none => rfl
  | some body =>
    simp only [CallGraph.recordEach, List.foldl_map]
    rfl

theorem foldl_visitSpecialization (hb : b.current = none) (ss : List Specialization) :
    ss.foldl visitSpecialization b =
      ⟨b.graph.recordEach (ss.flatMap bodyReferences), none, b.walked + ss.countP hasBody⟩ := by
  induction ss generalizing b with
  | nil =>
    obtain ⟨graph, current, walked⟩ := b
    obtain rfl : current = none := hb
    rfl
  | cons s ss ih =>
    -- Between two visits there is no current instance.
    rw [List.foldl_cons, visitSpecialization_eq hb, ih rfl, List.flatMap_cons,
      CallGraph.recordEach_append, Nat.add_assoc, ← List.countP_append, List.singleton_append]

theorem visit_eq_foldl (hb : b.current = none) (v : Visit) :
    b.visit v = v.specializations.foldl visitSpecialization b := by
  cases v with
  | program p => rfl
  | specialization s => rfl
  | scope s => rw [visit, visitScope, hb, specializations, List.foldl_nil]

theorem after_eq (vs : List Visit) : after vs =
    ⟨CallGraph.empty.recordEach ((visited vs).flatMap bodyReferences), none,
      (visited vs).countP hasBody⟩ := by
  have hrun (b : Builder) (hb : b.current = none) :
      vs.foldl visit b = (visited vs).foldl visitSpecialization b := by
    induction vs generalizing b with
    | nil => rfl
    | cons v vs ih =>
      have hv : (b.visit v).current = none := by
        rw [visit_eq_foldl hb, foldl_visitSpecialization hb]
      rw [List.foldl_cons, ih _ hv, visit_eq_foldl hb, ← List.foldl_append, visited, visited,
        List.flatMap_cons]
  rw [after, hrun empty rfl, foldl_visitSpecialization rfl, empty, Nat.zero_add]

theorem recorded_change (v : Visit) :
    v.change.recorded = v.specializations.flatMap bodyReferences := by
  cases v with
  | specialization s => exact (List.flatMap_singleton bodyReferences s).symm
  | _ => rfl

theorem graph_after (vs : List Visit) :
    (after vs).graph = CallGraph.after (vs.map Visit.change) := by
  have ht : ∀ c ∈ vs.map Visit.change, c.isTrim = false := by
    intro c hc
    obtain ⟨v, -, rfl⟩ := List.mem_map.1 hc
    cases v <;> rfl
  rw [after_eq, CallGraph.after_eq_recordEach ht, List.flatMap_map, visited, List.flatMap_assoc]
  simp only [recorded_change]

theorem mem_edges_after_iff {vs : List Visit} {e : Edge} : e ∈ (after vs).graph.edges ↔
    ∃ s ∈ visited vs, ∃ argument body, s.implementation = .provided argument body ∧
      e.caller = s.id.key ∧ e ∈ (CallGraph.empty.walk s.id (.scope body)).edges := by
  rw [after_eq, CallGraph.mem_edges_recordEach_empty]
  simp only [List.mem_flatMap, CallGraph.mem_edges_walk_empty, Fragment.references]
  constructor
  · rintro ⟨⟨_, i⟩, ⟨s, hs, hp⟩, rfl⟩
    obtain ⟨argument, body, hb, rfl, hi⟩ := CallGraph.mem_bodyReferences_iff.1 hp
    exact ⟨s, hs, argument, body, hb, rfl, i, hi, rfl⟩
  · intro ⟨s, hs, argument, body, hb, _, i, hi, he⟩
    exact ⟨(s.id, i), ⟨s, hs, CallGraph.mem_bodyReferences_iff.2 ⟨argument, body, hb, rfl, hi⟩⟩, he⟩

theorem mem_nodes_after_iff {vs : List Visit} {k : Key} : k ∈ (after vs).graph.nodes ↔
    ∃ e ∈ (after vs).graph.edges, k = e.caller ∨ k = e.callee := by
  rw [after_eq]
  exact CallGraph.mem_nodes_recordEach_empty

theorem visitSpecialization_eq_self {s : Specialization}
    (h : ∀ argument body, s.implementation ≠ .provided argument body) :
    b.visitSpecialization s = b := by
  rw [visitSpecialization]
  cases hi : s.implementation with
  | provided argument body => exact absurd hi (h argument body)
  | _ => rfl

/-- After any run the edges are those that the visited bodies record, each read by itself for its
own specialization, and the nodes are the ends of these edges. Every visit to a body counts. A scope
that is visited by itself, and a specialization without a body, change nothing. A store with the
same history holds the graph. -/
theorem after_unites_bodies (vs : List Visit) :
    (∀ e, e ∈ (after vs).graph.edges ↔
      ∃ s ∈ visited vs, ∃ argument body, s.implementation = .provided argument body ∧
        e.caller = Identity.key s ∧ e ∈ (CallGraph.empty.walk s.id (.scope body)).edges) ∧
    (∀ k, k ∈ (after vs).graph.nodes ↔
      ∃ e ∈ (after vs).graph.edges, k = e.caller ∨ k = e.callee) ∧
    (after vs).walked = (visited vs).countP hasBody ∧
    (∀ s, (after vs).visitScope s = after vs) ∧
    (∀ s : Specialization, (∀ argument body, s.implementation ≠ .provided argument body) →
      (after vs).visitSpecialization s = after vs) ∧
    (∀ p : Program, p.callGraph = (after (p.specializations.map .specialization)).graph) ∧
    (Store.after (vs.map Visit.change)).Represents (after vs).graph := by
  refine ⟨fun _ ↦ mem_edges_after_iff, fun _ ↦ mem_nodes_after_iff, ?_, ?_,
    fun s ↦ visitSpecialization_eq_self, ?_, ?_⟩
  · rw [after_eq]
  · intro s
    exact visit_eq_foldl (by rw [after_eq]) (.scope s)
  · intro p
    rw [after, List.foldl_map]
    rfl
  · rw [graph_after]
    exact Store.represents_after _

end Builder

namespace Program

variable {p : Program}

theorem callGraph_eq_recordEach (p : Program) :
    p.callGraph = CallGraph.empty.recordEach (visitProgram p).recorded := by
  rw [callGraph, Builder.visitProgram, Builder.foldl_visitSpecialization rfl]
  rfl

theorem mem_edges_callGraph_iff {e : Edge} : e ∈ p.callGraph.edges ↔
    ∃ s ∈ p.specializations, ∃ r ∈ bodyReferences s, e = ⟨r.1.key, r.2.key⟩ := by
  rw [callGraph_eq_recordEach, CallGraph.mem_edges_recordEach_empty]
  simp only [recorded, List.mem_flatMap]
  constructor
  · rintro ⟨r, ⟨s, hs, hr⟩, he⟩
    exact ⟨s, hs, r, hr, he⟩
  · rintro ⟨s, hs, r, hr, he⟩
    exact ⟨r, ⟨s, hs, hr⟩, he⟩

theorem mem_nodes_callGraph_iff {k : Key} : k ∈ p.callGraph.nodes ↔
    ∃ e ∈ p.callGraph.edges, k = e.caller ∨ k = e.callee := by
  rw [callGraph_eq_recordEach]
  exact CallGraph.mem_nodes_recordEach_empty

end Program

end FunctorCalls
