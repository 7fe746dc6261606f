import FunctorCalls.CallGraph.Store
import FunctorCalls.Proofs.History
import FunctorCalls.Proofs.Sorting
import FunctorCalls.Proofs.Trim

namespace FunctorCalls

namespace OrdSet

variable {α : Type} [Ord α] [Std.TransOrd α] [Std.LawfulEqOrd α] {s : OrdSet α} {a : α}

theorem insert_eq_self (h : a ∈ s) : s.insert a = s := by
  apply ext
  intro x
  rw [mem_insert]
  exact or_iff_right_of_imp fun hx ↦ hx ▸ h

theorem perm_insert (h : a ∉ s) : (a :: s.toList).Perm (s.insert a).toList := by
  refine (List.perm_ext_iff_of_nodup (List.nodup_cons.2 ⟨h, s.nodup⟩) (s.insert a).nodup).2 ?_
  intro x
  rw [List.mem_cons]
  exact mem_insert.symm

end OrdSet

namespace Store

variable {s : Store} {nodes : OrdSet Key} {edges : OrdSet Edge}

structure Holds (s : Store) (nodes : OrdSet Key) (edges : OrdSet Edge) : Prop where
  keys : s.keys.Perm nodes.toList
  index : ∀ k n, s.index.lookup k = some n ↔ s.keys[n]? = some k
  arcs : (s.arcs.map s.edgeAt?).Perm (edges.toList.map some)

theorem edgeAt?_eq_some_iff {m n : Nat} {e : Edge} :
    s.edgeAt? (m, n) = some e ↔ s.keys[m]? = some e.caller ∧ s.keys[n]? = some e.callee := by
  cases e
  cases hm : s.keys[m]? <;> cases hn : s.keys[n]? <;> simp [edgeAt?, hm, hn]

namespace Holds

theorem mem_nodes_iff (h : s.Holds nodes edges) {k : Key} :
    k ∈ nodes ↔ ∃ n : Nat, s.keys[n]? = some k := by
  rw [← OrdSet.mem_toList, ← h.keys.mem_iff, List.mem_iff_getElem?]

theorem mem_edges_iff (h : s.Holds nodes edges) {e : Edge} :
    e ∈ edges ↔ ∃ a ∈ s.arcs, s.edgeAt? a = some e := by
  rw [← List.mem_map, h.arcs.mem_iff, List.mem_map]
  simp [OrdSet.mem_toList]

theorem exists_edgeAt? (h : s.Holds nodes edges) {a : Nat × Nat} (ha : a ∈ s.arcs) :
    ∃ e, s.edgeAt? a = some e := by
  obtain ⟨e, -, he⟩ := List.mem_map.1 (h.arcs.mem_iff.1 (List.mem_map_of_mem ha))
  exact ⟨e, he.symm⟩

theorem number_unique (h : s.Holds nodes edges) {k : Key} {m n : Nat} (hm : s.keys[m]? = some k)
    (hn : s.keys[n]? = some k) : m = n :=
  Option.some.inj (((h.index k m).2 hm).symm.trans ((h.index k n).2 hn))

theorem mem_arcs_iff (h : s.Holds nodes edges) {m n : Nat} {a b : Key} (hm : s.keys[m]? = some a)
    (hn : s.keys[n]? = some b) : (m, n) ∈ s.arcs ↔ ⟨a, b⟩ ∈ edges := by
  rw [h.mem_edges_iff]
  constructor
  · intro ha
    exact ⟨(m, n), ha, edgeAt?_eq_some_iff.2 ⟨hm, hn⟩⟩
  · intro ⟨⟨m', n'⟩, ha, he⟩
    obtain ⟨hm', hn'⟩ := edgeAt?_eq_some_iff.1 he
    rwa [h.number_unique hm hm', h.number_unique hn hn']

end Holds

theorem holds_ofTypes (T : TypeTable) : (ofTypes T).Holds .empty .empty where
  keys := .nil
  index := by simp [ofTypes]
  arcs := .nil

theorem types_node (s : Store) (k : Key) : (s.node k).1.types = s.types := by
  rw [node]
  split <;> rfl

theorem arcs_node (s : Store) (k : Key) : (s.node k).1.arcs = s.arcs := by
  rw [node]
  split <;> rfl

theorem getElem?_keys_node {k a : Key} {n : Nat} (ha : s.keys[n]? = some a) :
    (s.node k).1.keys[n]? = some a := by
  rw [node]
  split
  · exact ha
  · rw [List.getElem?_append_left (List.getElem?_eq_some_iff.1 ha).1]
    exact ha

theorem edgeAt?_node {k : Key} {a : Nat × Nat} {e : Edge} (ha : s.edgeAt? a = some e) :
    (s.node k).1.edgeAt? a = some e := by
  obtain ⟨hm, hn⟩ := edgeAt?_eq_some_iff.1 ha
  exact edgeAt?_eq_some_iff.2 ⟨getElem?_keys_node hm, getElem?_keys_node hn⟩

namespace Holds

theorem getElem?_number (h : s.Holds nodes edges) (k : Key) :
    (s.node k).1.keys[(s.node k).2]? = some k := by
  rw [Store.node]
  split
  · next n hn => exact (h.index k n).1 hn
  · simp

theorem lookup_new (h : s.Holds nodes edges) {k : Key} (hk : k ∉ s.keys) (a : Key) (n : Nat) :
    List.lookup a ((k, s.keys.length) :: s.index) = some n ↔ (s.keys ++ [k])[n]? = some a := by
  have happ : (s.keys ++ [k])[n]? = some a ↔ s.keys[n]? = some a ∨ n = s.keys.length ∧ k = a := by
    grind
  rw [happ, List.lookup_cons, ← h.index]
  by_cases ha : a = k
  · subst ha
    have hn : ¬ s.index.lookup a = some n := by
      rw [h.index]
      exact fun hn ↦ hk (List.mem_of_getElem? hn)
    simp [hn, eq_comm]
  · have hb : (a == k) = false := beq_false_of_ne ha
    simp [hb, Ne.symm ha]

theorem node (h : s.Holds nodes edges) (k : Key) :
    (s.node k).1.Holds (nodes.insert k) edges := by
  have harcs : ((s.node k).1.arcs.map (s.node k).1.edgeAt?).Perm (edges.toList.map some) := by
    have he : s.arcs.map (s.node k).1.edgeAt? = s.arcs.map s.edgeAt? := by
      apply List.map_congr_left
      intro a ha
      obtain ⟨e, he⟩ := h.exists_edgeAt? ha
      rw [edgeAt?_node he, he]
    rw [arcs_node, he]
    exact h.arcs
  cases hk : s.index.lookup k with
  | some n =>
    have hs : (s.node k).1 = s := by rw [Store.node, hk]
    rw [hs, OrdSet.insert_eq_self (h.mem_nodes_iff.2 ⟨n, (h.index k n).1 hk⟩)]
    exact h
  | none =>
    have hkeys : (s.node k).1.keys = s.keys ++ [k] := by rw [Store.node, hk]
    have hindex : (s.node k).1.index = (k, s.keys.length) :: s.index := by rw [Store.node, hk]
    have hnew : k ∉ s.keys := by
      intro hm
      obtain ⟨n, hn⟩ := List.mem_iff_getElem?.1 hm
      rw [(h.index k n).2 hn] at hk
      cases hk
    refine ⟨?_, ?_, harcs⟩
    · rw [hkeys]
      have hm : k ∉ nodes := fun hm ↦ hnew (h.keys.mem_iff.2 hm)
      exact ((List.perm_append_singleton k s.keys).trans (h.keys.cons k)).trans
        (OrdSet.perm_insert hm)
    · rw [hkeys, hindex]
      exact h.lookup_new hnew

theorem connect (h : s.Holds nodes edges) (a b : Key) :
    (s.connect a b).1.Holds ((nodes.insert a).insert b) (edges.insert ⟨a, b⟩) ∧
      (s.connect a b).2 = !decide (⟨a, b⟩ ∈ edges) := by
  have hb := (h.node a).node b
  have hm := getElem?_keys_node (k := b) (h.getElem?_number a)
  have hn := (h.node a).getElem?_number b
  have harc := hb.mem_arcs_iff hm hn
  rw [Store.connect]
  by_cases he : ⟨a, b⟩ ∈ edges
  · rw [OrdSet.insert_eq_self he]
    simp only [harc, he, if_true]
    exact ⟨hb, by simp⟩
  · simp only [harc, he, if_false]
    refine ⟨⟨hb.keys, hb.index, ?_⟩, by simp⟩
    have hab : (s.node a).1.node b |>.1.edgeAt? _ = some ⟨a, b⟩ := edgeAt?_eq_some_iff.2 ⟨hm, hn⟩
    have hp := ((hb.arcs.cons (some ⟨a, b⟩)).trans (.of_eq (List.map_cons).symm)).trans
      ((OrdSet.perm_insert he).map some)
    rw [← hab] at hp
    exact hp

end Holds

end Store

theorem TypeTable.internAll_eq (T : TypeTable) (ts : List Ty) :
    (T.internAll ts).2 = ts.map Ty.digest := by
  induction ts generalizing T with
  | nil => rfl
  | cons t ts ih =>
    rw [internAll, List.map_cons]
    exact congrArg (t.digest :: ·) (ih (T.intern t).1)

/-- Whatever a table holds, the key made by entering types is the one made by hashing them. -/
theorem TypeTable.internKey_eq (T : TypeTable) (i : Instance) :
    T.internKey i = (CallGraph.typesWith T i, i.key) := by
  obtain ⟨callable, variant, _ | ts⟩ := i
  · rfl
  · have h : (T.internOptional (some ts)).2 = some (ts.map Ty.digest) :=
      congrArg some (T.internAll_eq ts)
    rw [internKey, Instance.key, Option.map_some, ← h]
    rfl

namespace Store

variable {s : Store} {g : CallGraph}

structure Represents (s : Store) (g : CallGraph) : Prop where
  holds : s.Holds g.nodes g.edges
  types : s.types = g.types

theorem types_connect (s : Store) (a b : Key) : (s.connect a b).1.types = s.types := by
  have h : ((s.node a).1.node b).1.types = s.types := (types_node _ b).trans (types_node s a)
  simp only [connect]
  split <;> exact h

theorem Represents.addBetween (h : s.Represents g) (caller callee : Instance) :
    (s.addBetween caller callee).1.Represents (g.record caller callee) ∧
      (s.addBetween caller callee).2 = (g.add caller callee).2 := by
  rw [Store.addBetween, TypeTable.internKey_eq]
  simp only [TypeTable.internKey_eq]
  have hs : Holds
      { s with types := CallGraph.typesWith (CallGraph.typesWith s.types caller) callee }
      g.nodes g.edges := ⟨h.holds.keys, h.holds.index, h.holds.arcs⟩
  obtain ⟨hc, hb⟩ := hs.connect caller.key callee.key
  refine ⟨⟨hc, ?_⟩, hb⟩
  rw [types_connect, h.types]
  rfl

theorem Represents.addAll (h : s.Represents g) (pairs : List (Instance × Instance)) :
    (s.addAll pairs).Represents (pairs.foldl (fun g p ↦ g.record p.1 p.2) g) := by
  induction pairs generalizing s g with
  | nil => exact h
  | cons p pairs ih => exact ih (h.addBetween p.1 p.2).1

theorem mem_keysAt {ns : List Nat} {k : Key} : k ∈ s.keysAt ns ↔ ∃ n ∈ ns, s.keys[n]? = some k :=
  List.mem_filterMap

theorem Represents.resolve_eq (h : s.Represents g) : s.resolve = g.resolve := by
  funext k
  rw [resolve, CallGraph.resolve, h.types]

theorem Represents.resolveAll (h : s.Represents g) {ns : List Nat} {keys : OrdSet Key}
    (hk : ∀ k, k ∈ s.keysAt ns ↔ k ∈ keys) : s.resolveAll ns = g.resolveAll keys := by
  have hs : .ofList (s.keysAt ns) = keys := OrdSet.ext fun k ↦ OrdSet.mem_ofList.trans (hk k)
  rw [Store.resolveAll, CallGraph.eraseReps_sortOn_id, hs, h.resolve_eq, CallGraph.resolveAll]

theorem mem_targets {m n : Nat} : n ∈ s.targets m ↔ (m, n) ∈ s.arcs := by
  simp [targets]

theorem mem_sources {m n : Nat} : m ∈ s.sources n ↔ (m, n) ∈ s.arcs := by
  simp [sources]

theorem Represents.mem_keysAt_targets (h : s.Represents g) {m : Nat} {a b : Key}
    (hm : s.keys[m]? = some a) : b ∈ s.keysAt (s.targets m) ↔ b ∈ g.successors a := by
  rw [mem_keysAt, CallGraph.mem_successors]
  constructor
  · intro ⟨n, hmn, hn⟩
    exact (h.holds.mem_arcs_iff hm hn).1 (mem_targets.1 hmn)
  · intro hab
    obtain ⟨n, hn⟩ := h.holds.mem_nodes_iff.1 (g.ends_mem _ hab).2
    exact ⟨n, mem_targets.2 ((h.holds.mem_arcs_iff hm hn).2 hab), hn⟩

theorem Represents.mem_keysAt_sources (h : s.Represents g) {n : Nat} {a b : Key}
    (hn : s.keys[n]? = some b) : a ∈ s.keysAt (s.sources n) ↔ a ∈ g.predecessors b := by
  rw [mem_keysAt, CallGraph.mem_predecessors]
  constructor
  · intro ⟨m, hmn, hm⟩
    exact (h.holds.mem_arcs_iff hm hn).1 (mem_sources.1 hmn)
  · intro hab
    obtain ⟨m, hm⟩ := h.holds.mem_nodes_iff.1 (g.ends_mem _ hab).1
    exact ⟨m, mem_sources.2 ((h.holds.mem_arcs_iff hm hn).2 hab), hm⟩

theorem mem_numbers {n : Nat} : n ∈ s.numbers ↔ ∃ k, s.keys[n]? = some k := by
  rw [numbers, List.mem_range]
  constructor
  · intro hn
    exact ⟨s.keys[n], List.getElem?_eq_getElem hn⟩
  · intro ⟨k, hk⟩
    exact (List.getElem?_eq_some_iff.1 hk).1

theorem Represents.instances_eq (h : s.Represents g) : s.instances = g.instances := by
  refine h.resolveAll fun k ↦ ?_
  rw [mem_keysAt, h.holds.mem_nodes_iff]
  constructor
  · intro ⟨n, _, hn⟩
    exact ⟨n, hn⟩
  · intro ⟨n, hn⟩
    exact ⟨n, mem_numbers.2 ⟨k, hn⟩, hn⟩

section

variable {α : Type} [Identity α] (x : α)

theorem Represents.number?_eq_some_iff (h : s.Represents g) {n : Nat} :
    s.number? x = some n ↔ s.keys[n]? = some (Identity.key x) :=
  h.holds.index _ n

theorem Represents.number?_eq_none_iff (h : s.Represents g) :
    s.number? x = none ↔ Identity.key x ∉ g.nodes := by
  rw [h.holds.mem_nodes_iff, Option.eq_none_iff_forall_ne_some, not_exists]
  exact forall_congr' fun n ↦ not_congr (h.number?_eq_some_iff x)

theorem Represents.contains_eq (h : s.Represents g) :
    s.contains x = g.contains (Identity.toInstance x) := by
  rw [Bool.eq_iff_iff, contains, CallGraph.contains, decide_eq_true_iff,
    ← Option.ne_none_iff_isSome, Ne, h.number?_eq_none_iff, Decidable.not_not]
  rfl

theorem Represents.directDependencies_eq (h : s.Represents g) :
    s.directDependencies x = g.directDependencies (Identity.toInstance x) := by
  rw [directDependencies, CallGraph.directDependencies]
  cases hx : s.number? x with
  | some n => exact h.resolveAll fun k ↦ h.mem_keysAt_targets ((h.number?_eq_some_iff x).1 hx)
  | none =>
    have hs : g.successors (Identity.toInstance x).key = .empty := by
      apply OrdSet.ext
      intro k
      rw [CallGraph.mem_successors]
      exact iff_of_false (fun hk ↦ (h.number?_eq_none_iff x).1 hx (g.ends_mem _ hk).1)
        OrdSet.not_mem_empty
    rw [hs]
    rfl

theorem Represents.callersOf_eq (h : s.Represents g) :
    s.callersOf x = g.callersOf (Identity.toInstance x) := by
  rw [callersOf, CallGraph.callersOf]
  cases hx : s.number? x with
  | some n => exact h.resolveAll fun k ↦ h.mem_keysAt_sources ((h.number?_eq_some_iff x).1 hx)
  | none =>
    have hs : g.predecessors (Identity.toInstance x).key = .empty := by
      apply OrdSet.ext
      intro k
      rw [CallGraph.mem_predecessors]
      exact iff_of_false (fun hk ↦ (h.number?_eq_none_iff x).1 hx (g.ends_mem _ hk).2)
        OrdSet.not_mem_empty
    rw [hs]
    rfl

end

theorem Represents.nodeCount_eq (h : s.Represents g) : s.nodeCount = g.nodeCount :=
  h.holds.keys.length_eq

theorem Represents.edgeCount_eq (h : s.Represents g) : s.edgeCount = g.edgeCount := by
  have hl := h.holds.arcs.length_eq
  rwa [List.length_map, List.length_map] at hl

theorem Represents.isEmpty_eq (h : s.Represents g) : s.isEmpty = g.isEmpty :=
  h.holds.keys.isEmpty_eq

open Relation

section

variable {nodes : OrdSet Key} {edges : OrdSet Edge}

theorem Holds.foldl_node (h : s.Holds nodes edges) (keys : List Key) :
    (keys.foldl (fun s k ↦ (s.node k).1) s).Holds (keys.foldl OrdSet.insert nodes) edges := by
  induction keys generalizing s nodes with
  | nil => exact h
  | cons k keys ih => exact ih (h.node k)

theorem Holds.foldl_connect (h : s.Holds nodes edges) {es : List Edge}
    (he : ∀ e ∈ es, e.caller ∈ nodes ∧ e.callee ∈ nodes) :
    (es.foldl (fun s e ↦ (s.connect e.caller e.callee).1) s).Holds nodes
      (es.foldl OrdSet.insert edges) := by
  induction es generalizing s edges with
  | nil => exact h
  | cons e es ih =>
    obtain ⟨hr, hc⟩ := he e List.mem_cons_self
    have hs := (h.connect e.caller e.callee).1
    rw [OrdSet.insert_eq_self hr, OrdSet.insert_eq_self hc] at hs
    exact ih hs fun e' he' ↦ he e' (List.mem_cons_of_mem e he')

end

theorem types_foldl_node (s : Store) (keys : List Key) :
    (keys.foldl (fun s k ↦ (s.node k).1) s).types = s.types := by
  induction keys generalizing s with
  | nil => rfl
  | cons k keys ih => exact (ih (s.node k).1).trans (types_node s k)

theorem types_foldl_connect (s : Store) (es : List Edge) :
    (es.foldl (fun s e ↦ (s.connect e.caller e.callee).1) s).types = s.types := by
  induction es generalizing s with
  | nil => rfl
  | cons e es ih => exact (ih (s.connect e.caller e.callee).1).trans (types_connect s _ _)

theorem types_build (T : TypeTable) (keys : List Key) (es : List Edge) :
    (build T keys es).types = T :=
  (types_foldl_connect _ es).trans (types_foldl_node _ keys)

theorem holds_build (T : TypeTable) {keys : List Key} {es : List Edge}
    (he : ∀ e ∈ es, e.caller ∈ keys ∧ e.callee ∈ keys) :
    (build T keys es).Holds (.ofList keys) (.ofList es) := by
  refine ((holds_ofTypes T).foldl_node keys).foldl_connect fun e h ↦ ?_
  exact ⟨OrdSet.mem_ofList.2 (he e h).1, OrdSet.mem_ofList.2 (he e h).2⟩

theorem Represents.path_of_targets (h : s.Represents g) {m n : Nat} {a : Key}
    (hm : s.keys[m]? = some a) (hp : ReflTransGen (fun b c ↦ c ∈ s.targets b) m n) :
    ∃ b, s.keys[n]? = some b ∧ ReflTransGen g.Links a b := by
  induction hp with
  | refl => exact ⟨a, hm, .refl⟩
  | tail _ hnn' ih =>
    obtain ⟨b, hn, hab⟩ := ih
    obtain ⟨e, he⟩ := h.holds.exists_edgeAt? (mem_targets.1 hnn')
    obtain ⟨-, hn'⟩ := edgeAt?_eq_some_iff.1 he
    exact ⟨e.callee, hn', hab.tail ((h.holds.mem_arcs_iff hn hn').1 (mem_targets.1 hnn'))⟩

theorem Represents.path_of_links (h : s.Represents g) {m : Nat} {a b : Key}
    (hm : s.keys[m]? = some a) (hp : ReflTransGen g.Links a b) :
    ∃ n : Nat, s.keys[n]? = some b ∧ ReflTransGen (fun b c ↦ c ∈ s.targets b) m n := by
  induction hp with
  | refl => exact ⟨m, hm, .refl⟩
  | tail _ hbc ih =>
    obtain ⟨n, hn, hmn⟩ := ih
    obtain ⟨n', hn'⟩ := h.holds.mem_nodes_iff.1 (g.ends_mem _ hbc).2
    exact ⟨n', hn', hmn.tail (mem_targets.2 ((h.holds.mem_arcs_iff hn hn').2 hbc))⟩

theorem Represents.mem_entries_iff (h : s.Represents g) {points : List Name} {n : Nat} {k : Key}
    (hn : s.keys[n]? = some k) : n ∈ s.entries points ↔ k ∈ g.entries points := by
  have hk : k ∈ g.nodes := h.holds.mem_nodes_iff.2 ⟨n, hn⟩
  simp [entries, CallGraph.entries, hn, hk, mem_numbers]

theorem Represents.exists_reached_iff (h : s.Represents g) {points : List Name} {k : Key} :
    (∃ n ∈ search s.targets s.numbers (s.entries points), s.keys[n]? = some k) ↔
      k ∈ (g.trim points).nodes := by
  have hs : ∀ n ∈ s.entries points, n ∈ s.numbers := fun n hn ↦ (List.mem_filter.1 hn).1
  have hn : ∀ m ∈ s.numbers, ∀ n ∈ s.targets m, n ∈ s.numbers := by
    intro m _ n hmn
    obtain ⟨e, he⟩ := h.holds.exists_edgeAt? (mem_targets.1 hmn)
    exact mem_numbers.2 ⟨e.callee, (edgeAt?_eq_some_iff.1 he).2⟩
  rw [CallGraph.mem_nodes_trim_iff]
  constructor
  · intro ⟨n, hmn, hk⟩
    obtain ⟨m, hm, hp⟩ := (mem_search_iff hs hn).1 hmn
    obtain ⟨a, ha⟩ := mem_numbers.1 (hs m hm)
    obtain ⟨b, hb, hab⟩ := h.path_of_targets ha hp
    obtain rfl := Option.some.inj (hb.symm.trans hk)
    exact ⟨a, (h.mem_entries_iff ha).1 hm, hab⟩
  · intro ⟨a, ha, hp⟩
    obtain ⟨m, hm⟩ := h.holds.mem_nodes_iff.1 (CallGraph.mem_entries_iff.1 ha).1
    obtain ⟨n, hk, hmn⟩ := h.path_of_links hm hp
    exact ⟨n, (mem_search_iff hs hn).2 ⟨m, (h.mem_entries_iff hm).2 ha, hmn⟩, hk⟩

theorem Represents.mem_edgesFrom_iff (h : s.Represents g) {ns : List Nat} {e : Edge} :
    e ∈ s.edgesFrom ns ↔ e.caller ∈ s.keysAt ns ∧ e ∈ g.edges := by
  rw [mem_keysAt, h.holds.mem_edges_iff]
  simp only [edgesFrom, List.mem_flatMap, List.mem_filterMap]
  constructor
  · intro ⟨m, hm, n, hmn, he⟩
    exact ⟨⟨m, hm, (edgeAt?_eq_some_iff.1 he).1⟩, (m, n), mem_targets.1 hmn, he⟩
  · intro ⟨⟨m, hm, hr⟩, ⟨m', n⟩, ha, he⟩
    obtain rfl := h.holds.number_unique hr (edgeAt?_eq_some_iff.1 he).1
    exact ⟨m, hm, n, mem_targets.2 ha, he⟩

theorem Represents.build_trim (h : s.Represents g) {points : List Name} {ns : List Nat}
    (hns : ∀ k, k ∈ s.keysAt ns ↔ k ∈ (g.trim points).nodes) :
    (build s.types (s.keysAt ns) (s.edgesFrom ns)).Represents (g.trim points) := by
  have hedges (e : Edge) : e ∈ s.edgesFrom ns ↔ e ∈ (g.trim points).edges := by
    rw [h.mem_edgesFrom_iff, hns]
    exact CallGraph.links_trim_iff.symm
  have hnodes : .ofList (s.keysAt ns) = (g.trim points).nodes :=
    OrdSet.ext fun k ↦ OrdSet.mem_ofList.trans (hns k)
  have hedges' : .ofList (s.edgesFrom ns) = (g.trim points).edges :=
    OrdSet.ext fun e ↦ OrdSet.mem_ofList.trans (hedges e)
  refine ⟨?_, (types_build _ _ _).trans h.types⟩
  rw [← hnodes, ← hedges']
  refine holds_build s.types fun e he ↦ ?_
  obtain ⟨hr, hc⟩ := (g.trim points).ends_mem e ((hedges e).1 he)
  exact ⟨(hns _).2 hr, (hns _).2 hc⟩

theorem Represents.trim (h : s.Represents g) (points : List Name) :
    (s.trim points).Represents (g.trim points) := by
  refine h.build_trim fun k ↦ ?_
  rw [← h.exists_reached_iff, mem_keysAt]
  exact exists_congr fun n ↦ and_congr_left fun _ ↦ CallGraph.mem_sortOn

theorem Represents.apply (h : s.Represents g) (c : Change) :
    (s.apply c).Represents (g.apply c) := by
  cases hc : c.isTrim with
  | false =>
    rw [g.apply_eq_foldl hc]
    cases c with
    | trim points => cases hc
    | _ => exact h.addAll _
  | true =>
    cases c with
    | trim points => exact h.trim points
    | _ => cases hc

theorem represents_after (cs : List Change) : (after cs).Represents (CallGraph.after cs) := by
  have hrun (s : Store) (g : CallGraph) (h : s.Represents g) :
      (cs.foldl apply s).Represents (cs.foldl CallGraph.apply g) := by
    induction cs generalizing s g with
    | nil => exact h
    | cons c cs ih => exact ih _ _ (h.apply c)
  exact hrun empty .empty ⟨holds_ofTypes .empty, rfl⟩

end Store

end FunctorCalls
