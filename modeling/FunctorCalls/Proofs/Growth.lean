import FunctorCalls.Proofs.Store

namespace FunctorCalls

namespace TypeTable

variable {T T' : TypeTable}

theorem prefix_insert (T : TypeTable) (t : Ty) : T.entries <+: (T.insert t).entries := by
  rw [insert]
  split
  · exact List.prefix_rfl
  · exact List.prefix_append _ _

theorem prefix_internAll (T : TypeTable) (ts : List Ty) :
    T.entries <+: (T.internAll ts).1.entries := by
  induction ts generalizing T with
  | nil => exact List.prefix_rfl
  | cons t ts ih => exact (T.prefix_insert t).trans (ih (T.insert t))

theorem prefix_typesWith (T : TypeTable) (i : Instance) :
    T.entries <+: (CallGraph.typesWith T i).entries := by
  obtain ⟨callable, variant, _ | ts⟩ := i
  · exact List.prefix_rfl
  · exact T.prefix_internAll ts

/-- A digest that is known keeps its type, even if another type with this digest comes later. -/
theorem typeOf_eq_of_prefix (h : T.entries <+: T'.entries) {d : Digest} (hd : d ∈ T.digests) :
    T'.typeOf d = T.typeOf d := by
  obtain ⟨entries, he⟩ := h
  have hf : T.entries.lookup d = some (T.typeOf d) := find?_eq_some_typeOf hd
  rw [typeOf, find?, ← he, List.lookup_append, hf]
  rfl

end TypeTable

namespace CallGraph

variable {g : CallGraph} {caller : Instance} {callees : List Instance} {k : Key}

theorem prefix_types_recordAll (g : CallGraph) (caller : Instance) (callees : List Instance) :
    g.types.entries <+: (g.recordAll caller callees).types.entries := by
  induction callees generalizing g with
  | nil => exact List.prefix_rfl
  | cons i is ih =>
    have hcaller := g.types.prefix_typesWith caller
    have hcallee := (typesWith g.types caller).prefix_typesWith i
    exact (hcaller.trans hcallee).trans (ih (g.record caller i))

theorem instanceOf_recordAll (hk : k ∈ g.nodes) :
    (g.recordAll caller callees).instanceOf k = g.instanceOf k :=
  instanceOf_congr fun d hd ↦ TypeTable.typeOf_eq_of_prefix
    (g.prefix_types_recordAll caller callees) (g.digests_mem k hk d hd)

theorem map_instanceOf_recordAll {keys : List Key} (h : ∀ k ∈ keys, k ∈ g.nodes) :
    keys.map (g.recordAll caller callees).instanceOf = keys.map g.instanceOf :=
  List.map_congr_left fun k hk ↦ instanceOf_recordAll (h k hk)

theorem mem_successors_recordAll {m : Key} :
    m ∈ (g.recordAll caller callees).successors k ↔
      m ∈ g.successors k ∨ k = caller.key ∧ m ∈ callees.map Instance.key := by
  rw [mem_successors, mem_successors, mem_edges_recordAll, List.mem_map]
  refine or_congr_right ?_
  constructor
  · rintro ⟨i, hi, he⟩
    cases he
    exact ⟨rfl, i, hi, rfl⟩
  · rintro ⟨rfl, i, hi, rfl⟩
    exact ⟨i, hi, rfl⟩

theorem mem_predecessors_recordAll {m : Key} :
    m ∈ (g.recordAll caller callees).predecessors k ↔
      m ∈ g.predecessors k ∨ m = caller.key ∧ k ∈ callees.map Instance.key := by
  rw [mem_predecessors, mem_predecessors, ← mem_successors, mem_successors_recordAll,
    mem_successors]

theorem mem_successors_walk_caller {f : Fragment} {m : Key} :
    m ∈ (g.walk caller f).successors caller.key ↔
      m ∈ g.successors caller.key ∨ m ∈ (empty.walk caller f).successors caller.key := by
  have he : m ∉ empty.successors caller.key := fun h ↦ OrdSet.not_mem_empty (mem_successors.1 h)
  rw [walk, walk, mem_successors_recordAll, mem_successors_recordAll, or_iff_right he]

theorem directDependencies_recordAll_of_ne {i : Instance} (h : i.key ≠ caller.key) :
    (g.recordAll caller callees).directDependencies i = g.directDependencies i := by
  have hs : (g.recordAll caller callees).successors i.key = g.successors i.key := by
    apply OrdSet.ext
    intro m
    rw [mem_successors_recordAll]
    exact or_iff_left fun hm ↦ h hm.1
  rw [directDependencies_eq_ok, directDependencies_eq_ok, hs,
    map_instanceOf_recordAll fun m hm ↦ (g.ends_mem _ (mem_successors.1 hm)).2]

theorem mem_callers_recordAll {i : Instance}
    (hi : i ∈ (g.predecessors k).toList.map g.instanceOf) :
    i ∈ ((g.recordAll caller callees).predecessors k).toList.map
      (g.recordAll caller callees).instanceOf := by
  obtain ⟨m, hm, rfl⟩ := List.mem_map.1 hi
  rw [← instanceOf_recordAll (g.ends_mem _ (mem_predecessors.1 hm)).1]
  exact List.mem_map_of_mem (mem_predecessors_recordAll.2 (.inl hm))

end CallGraph

namespace Store

/-- All that one store has is in the other one, in the same place. -/
structure Extends (s s' : Store) : Prop where
  keys : s.keys <+: s'.keys
  index : ∀ k n, s.index.lookup k = some n → s'.index.lookup k = some n
  arcs : s.arcs <:+ s'.arcs
  types : s.types.entries <+: s'.types.entries

theorem Extends.refl (s : Store) : s.Extends s :=
  ⟨List.prefix_rfl, fun _ _ ↦ id, List.suffix_rfl, List.prefix_rfl⟩

theorem Extends.trans {s s' s'' : Store} (h : s.Extends s') (h' : s'.Extends s'') :
    s.Extends s'' where
  keys := h.keys.trans h'.keys
  index k n hn := h'.index k n (h.index k n hn)
  arcs := h.arcs.trans h'.arcs
  types := h.types.trans h'.types

theorem extends_node (s : Store) (k : Key) : s.Extends (s.node k).1 := by
  rw [node]
  cases hk : s.index.lookup k with
  | some n => exact .refl s
  | none =>
    refine ⟨List.prefix_append _ _, fun a n hn ↦ ?_, List.suffix_rfl, List.prefix_rfl⟩
    have ha : (a == k) = false := by
      refine beq_false_of_ne fun ha ↦ ?_
      rw [ha, hk] at hn
      cases hn
    rw [List.lookup_cons, ha]
    exact hn

theorem extends_connect (s : Store) (a b : Key) : s.Extends (s.connect a b).1 := by
  have h := (s.extends_node a).trans ((s.node a).1.extends_node b)
  simp only [connect]
  split
  · exact h
  · exact h.trans ⟨List.prefix_rfl, fun _ _ ↦ id, List.suffix_cons _ _, List.prefix_rfl⟩

theorem extends_addBetween (s : Store) (caller callee : Instance) :
    s.Extends (s.addBetween caller callee).1 := by
  rw [addBetween, TypeTable.internKey_eq]
  simp only [TypeTable.internKey_eq]
  have ht := (s.types.prefix_typesWith caller).trans
    ((CallGraph.typesWith s.types caller).prefix_typesWith callee)
  refine Extends.trans ?_ (extends_connect _ caller.key callee.key)
  exact ⟨List.prefix_rfl, fun _ _ ↦ id, List.suffix_rfl, ht⟩

theorem extends_addAll (s : Store) (pairs : List (Instance × Instance)) :
    s.Extends (s.addAll pairs) := by
  induction pairs generalizing s with
  | nil => exact .refl s
  | cons p pairs ih => exact (s.extends_addBetween p.1 p.2).trans (ih _)

theorem Extends.getElem?_keys {s s' : Store} (h : s.Extends s') {k : Key} {n : Nat}
    (hn : s.keys[n]? = some k) : s'.keys[n]? = some k := by
  obtain ⟨keys, hk⟩ := h.keys
  rwa [← hk, List.getElem?_append_left (List.getElem?_eq_some_iff.1 hn).1]

theorem Extends.edgeAt? {s s' : Store} (h : s.Extends s') {a : Nat × Nat} {e : Edge}
    (ha : s.edgeAt? a = some e) : s'.edgeAt? a = some e := by
  obtain ⟨hm, hn⟩ := edgeAt?_eq_some_iff.1 ha
  exact edgeAt?_eq_some_iff.2 ⟨h.getElem?_keys hm, h.getElem?_keys hn⟩

section

variable {s : Store} {g : CallGraph} {caller : Instance} {f : Fragment}

theorem Represents.walk (h : s.Represents g) (caller : Instance) (f : Fragment) :
    (s.apply (.walk caller f)).Represents (g.walk caller f) :=
  h.apply (.walk caller f)

theorem Represents.directDependencies_eq_ok {α : Type} [Identity α] (h : s.Represents g) (x : α) :
    s.directDependencies x =
      .ok ((g.successors (Identity.key x)).toList.map g.instanceOf) :=
  (h.directDependencies_eq x).trans (g.directDependencies_eq_ok _)

theorem Represents.callersOf_eq_ok {α : Type} [Identity α] (h : s.Represents g) (x : α) :
    s.callersOf x = .ok ((g.predecessors (Identity.key x)).toList.map g.instanceOf) :=
  (h.callersOf_eq x).trans (g.callersOf_eq_ok _)

/-- An edge between the same nodes has the same numbers, so that one with new numbers is a new
one. -/
theorem Represents.caller_of_new_arc (h : s.Represents g) {a : Nat × Nat}
    (ha : a ∈ (s.apply (.walk caller f)).arcs) (hn : a ∉ s.arcs) :
    (s.apply (.walk caller f)).keys[a.1]? = some caller.key := by
  have hs : s.Extends (s.apply (.walk caller f)) := s.extends_addAll _
  have h' := h.walk caller f
  obtain ⟨e, he⟩ := h'.holds.exists_edgeAt? ha
  obtain ⟨hr, hc⟩ := edgeAt?_eq_some_iff.1 he
  have hm : e ∈ (g.walk caller f).edges := h'.holds.mem_edges_iff.2 ⟨a, ha, he⟩
  rcases CallGraph.mem_edges_recordAll.1 hm with hm | ⟨i, -, rfl⟩
  · obtain ⟨b, hb, he'⟩ := h.holds.mem_edges_iff.1 hm
    obtain ⟨hr', hc'⟩ := edgeAt?_eq_some_iff.1 (hs.edgeAt? he')
    have hab : a = b :=
      Prod.ext (h'.holds.number_unique hr hr') (h'.holds.number_unique hc hc')
    exact absurd (hab ▸ hb) hn
  · exact hr

end

/-- A walk for a caller leaves every node, every edge and every type where it was, and all new edges
start at the caller. Direct dependencies of others are listed as before, even if new types have the
digests of old ones; to those of the caller come the nodes that the same walk gives it in an empty
store. The callers of a node stay, and the walked one joins them if the code refers to the node. -/
theorem walk_leaves_the_rest (cs : List Change) {α : Type} [Identity α] (caller : α)
    (f : Fragment) :
    let s := after cs
    let s' := s.apply (.walk (Identity.toInstance caller) f)
    let alone := empty.apply (.walk (Identity.toInstance caller) f)
    s.Extends s' ∧
    (∀ a ∈ s'.arcs, a ∉ s.arcs → s'.keys[a.1]? = some (Identity.key caller)) ∧
    (∀ {β : Type} [Identity β] (x : β), Identity.key x ≠ Identity.key caller →
      ∃ is, s.directDependencies x = .ok is ∧ s'.directDependencies x = .ok is) ∧
    (∃ is js ks, s.directDependencies caller = .ok is ∧ alone.directDependencies caller = .ok js ∧
      s'.directDependencies caller = .ok ks ∧
      ∀ k, k ∈ ks.map Instance.key ↔ k ∈ is.map Instance.key ∨ k ∈ js.map Instance.key) ∧
    ∀ {β : Type} [Identity β] (y : β), ∃ is js, s.callersOf y = .ok is ∧ s'.callersOf y = .ok js ∧
      (∀ i ∈ is, i ∈ js) ∧ ∀ k, k ∈ js.map Instance.key ↔ k ∈ is.map Instance.key ∨
        k = Identity.key caller ∧ Identity.key y ∈ f.references.map Instance.key := by
  intro s s' alone
  have h : s.Represents (CallGraph.after cs) := represents_after cs
  have h' := h.walk (Identity.toInstance caller) f
  have halone : alone.Represents (CallGraph.empty.walk (Identity.toInstance caller) f) :=
    (represents_after []).walk (Identity.toInstance caller) f
  refine ⟨s.extends_addAll _, fun a ↦ h.caller_of_new_arc, ?_, ?_, ?_⟩
  · intro β _ x hx
    refine ⟨_, h.directDependencies_eq_ok x, ?_⟩
    rw [h'.directDependencies_eq x, CallGraph.walk, CallGraph.directDependencies_recordAll_of_ne hx]
    exact CallGraph.directDependencies_eq_ok _ _
  · refine ⟨_, _, _, h.directDependencies_eq_ok caller, halone.directDependencies_eq_ok caller,
      h'.directDependencies_eq_ok caller, fun k ↦ ?_⟩
    rw [CallGraph.map_key_successors, CallGraph.map_key_successors, CallGraph.map_key_successors]
    exact CallGraph.mem_successors_walk_caller
  · intro β _ y
    refine ⟨_, _, h.callersOf_eq_ok y, h'.callersOf_eq_ok y,
      fun i ↦ CallGraph.mem_callers_recordAll, fun k ↦ ?_⟩
    rw [CallGraph.map_key_predecessors, CallGraph.map_key_predecessors]
    exact CallGraph.mem_predecessors_recordAll

end Store

end FunctorCalls
