import FunctorCalls.Proofs.Cycles
import FunctorCalls.Proofs.Store
import Mathlib.Data.Finset.Card

namespace FunctorCalls

theorem TypeTable.digest_of_mem_entries {T : TypeTable} {d : Digest} {t : Ty}
    (h : (d, t) ∈ T.entries) : t.digest = d := (T.hashed (d, t) h).symm

theorem TypeTable.size_eq_card (T : TypeTable) : T.size = T.digests.toFinset.card := by
  have hd : T.digests.toFinset.card = T.digests.length := List.toFinset_card_of_nodup T.nodup
  rw [hd, digests, List.length_map, size]

theorem Store.Represents.exists_listed {s : Store} {g : CallGraph} (h : s.Represents g)
    (ns : List Nat) : ∃ is, s.resolveAll ns = .ok is ∧
      is.map Instance.key = (OrdSet.ofList (s.keysAt ns)).toList := by
  have hk (k : Key) : k ∈ s.keysAt ns ↔ k ∈ OrdSet.ofList (s.keysAt ns) := OrdSet.mem_ofList.symm
  have hg : ∀ k ∈ OrdSet.ofList (s.keysAt ns), k ∈ g.nodes := by
    intro k hks
    obtain ⟨n, -, hn⟩ := Store.mem_keysAt.1 ((hk k).2 hks)
    exact h.holds.mem_nodes_iff.2 ⟨n, hn⟩
  rw [h.resolveAll hk]
  exact ⟨_, CallGraph.resolveAll_eq_ok hg, CallGraph.map_key_instanceOf hg⟩

theorem Store.Represents.exists_resolveAll_eq_ok {s : Store} {g : CallGraph}
    (h : s.Represents g) (ns : List Nat) : ∃ is, s.resolveAll ns = .ok is := by
  obtain ⟨is, his, -⟩ := h.exists_listed ns
  exact ⟨is, his⟩

namespace CallGraph

variable {g : CallGraph}

/-- The table knows no digest but those in the nodes. -/
def IsTight (g : CallGraph) : Prop := ∀ d ∈ g.types.digests, ∃ k ∈ g.nodes, d ∈ k.digests

theorem IsTight.record (h : g.IsTight) (caller callee : Instance) :
    (g.record caller callee).IsTight := by
  have hn (k : Key) : k ∈ (g.record caller callee).nodes ↔
      k = callee.key ∨ k = caller.key ∨ k ∈ g.nodes := by
    rw [CallGraph.record, OrdSet.mem_insert, OrdSet.mem_insert]
  intro d hd
  simp only [CallGraph.record, mem_digests_typesWith] at hd
  rcases hd with (hd | hd) | hd
  · obtain ⟨k, hk, hd⟩ := h d hd
    exact ⟨k, (hn k).2 (.inr (.inr hk)), hd⟩
  · exact ⟨caller.key, (hn _).2 (.inr (.inl rfl)), hd⟩
  · exact ⟨callee.key, (hn _).2 (.inl rfl), hd⟩

theorem IsTight.mem_digests_iff (h : g.IsTight) {d : Digest} :
    d ∈ g.types.digests ↔ ∃ k ∈ g.nodes, d ∈ k.digests := by
  constructor
  · exact h d
  · intro ⟨k, hk, hd⟩
    exact g.digests_mem k hk d hd

theorem IsTight.size_eq (h : g.IsTight) :
    g.types.size = (g.nodes.toList.flatMap Key.digests).toFinset.card := by
  have hd : g.types.digests.toFinset = (g.nodes.toList.flatMap Key.digests).toFinset := by
    ext d
    rw [List.mem_toFinset, List.mem_toFinset, List.mem_flatMap]
    exact h.mem_digests_iff
  rw [TypeTable.size_eq_card, hd]

theorem isTight_after {cs : List Change} (h : ∀ c ∈ cs, c.isTrim = false) :
    (after cs).IsTight := by
  apply after_induction
  · intro d hd
    cases hd
  · intro g p _ hg
    exact hg.record p.1 p.2
  · intro ⟨c, hc, ht⟩
    rw [h c hc] at ht
    cases ht

theorem exists_find?_eq_some {k : Key} (hk : k ∈ g.nodes) {d : Digest} (hd : d ∈ k.digests) :
    ∃ t, g.types.find? d = some t :=
  ⟨_, TypeTable.find?_eq_some_typeOf (g.digests_mem k hk d hd)⟩

/-- A graph with any history knows the types in its nodes, and so does a store. Each digest in the
table is that of its own type. The table of a graph that was never trimmed holds as many types as
there are digests in the nodes. -/
theorem after_knows_types (cs : List Change) :
    (∀ k ∈ (after cs).nodes, ∀ d ∈ k.digests, ∃ t, (after cs).types.find? d = some t) ∧
    (∀ d t, (d, t) ∈ (after cs).types.entries → t.digest = d) ∧
    (∀ i : Instance, (∃ is, (after cs).directDependencies i = .ok is) ∧
      (∃ is, (after cs).allDependencies i = .ok is) ∧ ∃ is, (after cs).callersOf i = .ok is) ∧
    (∃ is, (after cs).instances = .ok is) ∧
    (∃ groups, (after cs).callCycles = .ok groups) ∧
    (∃ text, (after cs).render = .ok text) ∧
    (∀ k ∈ (Store.after cs).keys, ∀ d ∈ k.digests, ∃ t, (Store.after cs).types.find? d = some t) ∧
    (∀ ns, ∃ is, (Store.after cs).resolveAll ns = .ok is) ∧
    ((∀ c ∈ cs, c.isTrim = false) →
      (∀ d, d ∈ (after cs).types.digests ↔ ∃ k ∈ (after cs).nodes, d ∈ k.digests) ∧
      (after cs).types.size = ((after cs).nodes.toList.flatMap Key.digests).toFinset.card) := by
  have hs := Store.represents_after cs
  refine ⟨fun _ ↦ exists_find?_eq_some, fun _ _ ↦ TypeTable.digest_of_mem_entries, ?_,
    ⟨_, instances_eq_ok _⟩, ⟨_, callCycles_eq_ok _⟩, ⟨_, render_eq_ok _⟩, ?_,
    hs.exists_resolveAll_eq_ok, ?_⟩
  · intro i
    exact ⟨⟨_, directDependencies_eq_ok _ i⟩, ⟨_, allDependencies_eq_ok _ i⟩,
      ⟨_, callersOf_eq_ok _ i⟩⟩
  · intro k hk d hd
    have hn : k ∈ (after cs).nodes := hs.holds.keys.mem_iff.1 hk
    rw [hs.types]
    exact exists_find?_eq_some hn hd
  · intro h
    have ht : (after cs).IsTight := isTight_after h
    exact ⟨fun _ ↦ ht.mem_digests_iff, ht.size_eq⟩

end CallGraph

end FunctorCalls
