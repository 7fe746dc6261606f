import FunctorCalls.Proofs.Store
import Mathlib.Data.Finset.Card
import Mathlib.Data.Finset.Insert

namespace FunctorCalls

open Relation

structure Sketch where
  nodes : Finset Key
  edges : Finset (Key × Key)

namespace Sketch

def empty : Sketch := ⟨∅, ∅⟩

def add (S : Sketch) (a b : Key) : Sketch := ⟨S.nodes ∪ {a, b}, insert (a, b) S.edges⟩

open Classical in
noncomputable def trim (S : Sketch) (points : List Name) : Sketch :=
  let kept := S.nodes.filter fun k ↦
    ∃ s ∈ S.nodes, s.callable ∈ points ∧ ReflTransGen (fun a b ↦ (a, b) ∈ S.edges) s k
  ⟨kept, S.edges.filter fun e ↦ e.1 ∈ kept ∧ e.2 ∈ kept⟩

noncomputable def apply (S : Sketch) : Change → Sketch
  | .trim points => S.trim points
  | c => c.recorded.foldl (fun S (caller, callee) ↦ S.add caller.key callee.key) S

noncomputable def after (cs : List Change) : Sketch := cs.foldl apply empty

def ofGraph (g : CallGraph) : Sketch :=
  ⟨g.nodes.toList.toFinset, (g.edges.toList.map fun e ↦ (e.caller, e.callee)).toFinset⟩

@[simp]
theorem mem_nodes_ofGraph {g : CallGraph} {k : Key} : k ∈ (ofGraph g).nodes ↔ k ∈ g.nodes :=
  List.mem_toFinset

@[simp]
theorem mem_edges_ofGraph {g : CallGraph} {a b : Key} :
    (a, b) ∈ (ofGraph g).edges ↔ ⟨a, b⟩ ∈ g.edges := by
  rw [ofGraph, List.mem_toFinset, List.mem_map]
  constructor
  · rintro ⟨e, he, hab⟩
    cases hab
    exact he
  · intro h
    exact ⟨⟨a, b⟩, h, rfl⟩

theorem ext {S S' : Sketch} (hn : ∀ k, k ∈ S.nodes ↔ k ∈ S'.nodes)
    (he : ∀ a b, (a, b) ∈ S.edges ↔ (a, b) ∈ S'.edges) : S = S' := by
  obtain ⟨nodes, edges⟩ := S
  obtain ⟨nodes', edges'⟩ := S'
  obtain rfl : nodes = nodes' := Finset.ext hn
  obtain rfl : edges = edges' := Finset.ext fun e ↦ he e.1 e.2
  rfl

theorem ofGraph_record (g : CallGraph) (caller callee : Instance) :
    ofGraph (g.record caller callee) = (ofGraph g).add caller.key callee.key := by
  apply ext
  · intro k
    simp only [CallGraph.record, add, mem_nodes_ofGraph, OrdSet.mem_insert, Finset.mem_union,
      Finset.mem_insert, Finset.mem_singleton]
    tauto
  · intro a b
    simp [CallGraph.record, add]

theorem mem_nodes_trim_iff {g : CallGraph} {points : List Name} {k : Key} :
    k ∈ ((ofGraph g).trim points).nodes ↔ k ∈ (g.trim points).nodes := by
  have hl : (fun a b ↦ (a, b) ∈ (ofGraph g).edges) = g.Links := by
    funext a b
    exact propext mem_edges_ofGraph
  simp only [trim, Finset.mem_filter, hl, mem_nodes_ofGraph]
  constructor
  · intro ⟨_, s, hs, hc, hp⟩
    exact CallGraph.mem_nodes_trim_iff.2 ⟨s, CallGraph.mem_entries_iff.2 ⟨hs, hc⟩, hp⟩
  · intro hk
    obtain ⟨s, hs, hp⟩ := CallGraph.mem_nodes_trim_iff.1 hk
    obtain ⟨hs, hc⟩ := CallGraph.mem_entries_iff.1 hs
    exact ⟨CallGraph.mem_nodes_of_mem_nodes_trim hk, s, hs, hc, hp⟩

theorem ofGraph_trim (g : CallGraph) (points : List Name) :
    ofGraph (g.trim points) = (ofGraph g).trim points := by
  apply ext
  · intro k
    rw [mem_nodes_ofGraph, mem_nodes_trim_iff]
  · intro a b
    have he : (a, b) ∈ ((ofGraph g).trim points).edges ↔ g.Links a b ∧
        a ∈ ((ofGraph g).trim points).nodes ∧ b ∈ ((ofGraph g).trim points).nodes :=
      Finset.mem_filter.trans (and_congr_left fun _ ↦ mem_edges_ofGraph)
    rw [he, mem_nodes_trim_iff, mem_nodes_trim_iff, mem_edges_ofGraph]
    refine CallGraph.links_trim_iff.trans ⟨?_, ?_⟩
    · intro ⟨ha, h⟩
      exact ⟨h, ha, CallGraph.callee_mem_nodes_trim ha h⟩
    · intro ⟨h, ha, _⟩
      exact ⟨ha, h⟩

theorem ofGraph_apply (g : CallGraph) (c : Change) : ofGraph (g.apply c) = (ofGraph g).apply c := by
  have hfold (pairs : List (Instance × Instance)) (g : CallGraph) :
      ofGraph (pairs.foldl (fun g p ↦ g.record p.1 p.2) g) =
        pairs.foldl (fun S p ↦ S.add p.1.key p.2.key) (ofGraph g) := by
    induction pairs generalizing g with
    | nil => rfl
    | cons p pairs ih => rw [List.foldl_cons, ih, ofGraph_record, List.foldl_cons]
  cases hc : c.isTrim with
  | false =>
    rw [g.apply_eq_foldl hc, hfold]
    cases c with
    | trim points => cases hc
    | _ => rfl
  | true =>
    cases c with
    | trim points => exact ofGraph_trim g points
    | _ => cases hc

theorem ofGraph_after (cs : List Change) : ofGraph (CallGraph.after cs) = after cs := by
  have hrun (g : CallGraph) :
      ofGraph (cs.foldl CallGraph.apply g) = cs.foldl apply (ofGraph g) := by
    induction cs generalizing g with
    | nil => rfl
    | cons c cs ih => rw [List.foldl_cons, ih, ofGraph_apply, List.foldl_cons]
  exact hrun .empty

theorem card_nodes_ofGraph (g : CallGraph) : (ofGraph g).nodes.card = g.nodeCount :=
  List.toFinset_card_of_nodup g.nodes.nodup

theorem card_edges_ofGraph (g : CallGraph) : (ofGraph g).edges.card = g.edgeCount := by
  have hinj : Function.Injective fun e : Edge ↦ (e.caller, e.callee) := by
    rintro ⟨a, b⟩ ⟨a', b'⟩ h
    cases h
    rfl
  exact (List.toFinset_card_of_nodup (g.edges.nodup.map hinj)).trans (List.length_map _)

end Sketch

/-- An answer that lists the nodes with a property, each once and in the order of keys. -/
def Lists (answer : Except UnknownDigest (List Instance)) (p : Key → Prop) : Prop :=
  ∃ is, answer = .ok is ∧ (is.map Instance.key).Pairwise (fun a b ↦ compare a b = .lt) ∧
    is.Nodup ∧ ∀ k, k ∈ is.map Instance.key ↔ p k

theorem CallGraph.lists_resolveAll {g : CallGraph} {keys : OrdSet Key} {p : Key → Prop}
    (h : ∀ k ∈ keys, k ∈ g.nodes) (hp : ∀ k, k ∈ keys ↔ p k) : Lists (g.resolveAll keys) p := by
  have hm : (keys.toList.map g.instanceOf).map Instance.key = keys.toList := map_key_instanceOf h
  refine ⟨_, resolveAll_eq_ok h, ?_, ?_, ?_⟩
  · rw [hm]
    exact keys.sorted
  · apply List.Nodup.of_map Instance.key
    rw [hm]
    exact keys.nodup
  · rw [hm]
    exact hp

namespace Store

structure Shows (s : Store) (S : Sketch) : Prop where
  ends_mem : ∀ e ∈ S.edges, e.1 ∈ S.nodes ∧ e.2 ∈ S.nodes
  nodeCount : s.nodeCount = S.nodes.card
  edgeCount : s.edgeCount = S.edges.card
  isEmpty : s.isEmpty = true ↔ S.nodes = ∅
  instances : Lists s.instances (· ∈ S.nodes)
  contains : ∀ {α : Type} [Identity α] (x : α), s.contains x = true ↔ Identity.key x ∈ S.nodes
  directDependencies : ∀ {α : Type} [Identity α] (x : α),
    Lists (s.directDependencies x) fun k ↦ (Identity.key x, k) ∈ S.edges
  callersOf : ∀ {α : Type} [Identity α] (x : α),
    Lists (s.callersOf x) fun k ↦ (k, Identity.key x) ∈ S.edges
  unknown : ∀ {α : Type} [Identity α] (x : α), Identity.key x ∉ S.nodes →
    s.directDependencies x = .ok [] ∧ s.callersOf x = .ok []

variable {s : Store} {g : CallGraph}

theorem Represents.shows (h : s.Represents g) : s.Shows (.ofGraph g) where
  ends_mem := by
    intro ⟨a, b⟩ he
    have hab := g.ends_mem _ (Sketch.mem_edges_ofGraph.1 he)
    exact ⟨Sketch.mem_nodes_ofGraph.2 hab.1, Sketch.mem_nodes_ofGraph.2 hab.2⟩
  nodeCount := h.nodeCount_eq.trans (Sketch.card_nodes_ofGraph g).symm
  edgeCount := h.edgeCount_eq.trans (Sketch.card_edges_ofGraph g).symm
  isEmpty := by
    rw [h.isEmpty_eq, Sketch.ofGraph, List.toFinset_eq_empty_iff]
    exact List.isEmpty_iff
  instances := by
    rw [h.instances_eq]
    exact CallGraph.lists_resolveAll (fun _ ↦ id) fun k ↦ Sketch.mem_nodes_ofGraph.symm
  contains x := by
    rw [h.contains_eq, Sketch.mem_nodes_ofGraph]
    exact decide_eq_true_iff
  directDependencies x := by
    rw [h.directDependencies_eq]
    refine CallGraph.lists_resolveAll (fun k hk ↦ ?_) fun k ↦ ?_
    · exact (g.ends_mem _ (CallGraph.mem_successors.1 hk)).2
    · exact CallGraph.mem_successors.trans Sketch.mem_edges_ofGraph.symm
  callersOf x := by
    rw [h.callersOf_eq]
    refine CallGraph.lists_resolveAll (fun k hk ↦ ?_) fun k ↦ ?_
    · exact (g.ends_mem _ (CallGraph.mem_predecessors.1 hk)).1
    · exact CallGraph.mem_predecessors.trans Sketch.mem_edges_ofGraph.symm
  unknown x hx := by
    rw [Sketch.mem_nodes_ofGraph, ← h.number?_eq_none_iff] at hx
    rw [Store.directDependencies, Store.callersOf, hx]
    exact ⟨rfl, rfl⟩

/-- A store with any history holds the graph with that history and behaves as two sets: an edge that
is added, in either way, joins the sets with its ends, and it is new if it was not in the set. -/
theorem after_shows_sets (cs : List Change) :
    (after cs).Represents (CallGraph.after cs) ∧ (after cs).Shows (Sketch.after cs) ∧
    (∀ {α : Type} [Identity α] (caller : α) (callee : Instance),
      let added := (after cs).add caller callee.variant callee.callable callee.typeArgs
      added.1.Shows ((Sketch.after cs).add (Identity.key caller) callee.key) ∧
        (added.2 = true ↔ (Identity.key caller, callee.key) ∉ (Sketch.after cs).edges)) ∧
    (∀ caller callee : Instance,
      let added := (after cs).addBetween caller callee
      added.1.Shows ((Sketch.after cs).add caller.key callee.key) ∧
        (added.2 = true ↔ (caller.key, callee.key) ∉ (Sketch.after cs).edges)) ∧
    (∀ points, ((after cs).trim points).Shows ((Sketch.after cs).trim points)) ∧
    ∀ (T : TypeTable) (i : Instance), (T.internKey i).2 = i.key := by
  have h := represents_after cs
  have hadd (caller callee : Instance) :
      ((after cs).addBetween caller callee).1.Shows
          ((Sketch.after cs).add caller.key callee.key) ∧
        (((after cs).addBetween caller callee).2 = true ↔
          (caller.key, callee.key) ∉ (Sketch.after cs).edges) := by
    obtain ⟨hr, hb⟩ := h.addBetween caller callee
    rw [← Sketch.ofGraph_after, ← Sketch.ofGraph_record]
    refine ⟨hr.shows, ?_⟩
    rw [hb, Sketch.mem_edges_ofGraph]
    simp [CallGraph.add, CallGraph.calls]
  refine ⟨h, Sketch.ofGraph_after cs ▸ h.shows, ?_, hadd, ?_, ?_⟩
  · intro α _ caller callee
    exact hadd (Identity.toInstance caller) callee
  · intro points
    rw [← Sketch.ofGraph_after, ← Sketch.ofGraph_trim]
    exact (h.trim points).shows
  · intro T i
    rw [TypeTable.internKey_eq]

end Store

end FunctorCalls
