import FunctorCalls.Proofs.Cycles
import FunctorCalls.Proofs.Store

namespace FunctorCalls.Store

open Relation

variable {s : Store} {g : CallGraph}

def edges (s : Store) : List Edge := s.arcs.filterMap s.edgeAt?

def Links (s : Store) (a b : Key) : Prop := ⟨a, b⟩ ∈ s.edges

def DependsOn {α : Type} [Identity α] (s : Store) (x : α) (k : Key) : Prop :=
  ∃ is, s.allDependencies x = .ok is ∧ k ∈ is.map Instance.key

def Reaches (s : Store) : Nat → Nat → Prop := TransGen fun m n ↦ n ∈ s.targets m

structure IsComponents (s : Store) (components : List (List Nat)) : Prop where
  nodup : components.flatten.Nodup
  mem_flatten : ∀ n, n ∈ components.flatten ↔ n ∈ s.numbers
  ne_nil : ∀ c ∈ components, c ≠ []
  mem_iff : ∀ c ∈ components, ∀ m ∈ c, ∀ n, n ∈ c ↔ n = m ∨ s.Reaches m n ∧ s.Reaches n m

/-- The same answers, in whatever order the components are found in either store. -/
def AnswersAs (s s' : Store) : Prop := ∀ components components', s.IsComponents components →
  s'.IsComponents components' → s.answers components = s'.answers components'

namespace Represents

theorem edges (h : s.Represents g) : s.edges.Perm g.edges.toList := by
  have hp := h.holds.arcs.filterMap id
  rwa [List.filterMap_map, List.filterMap_map, Function.id_comp, Function.id_comp,
    List.filterMap_some] at hp

theorem mem_edges_iff (h : s.Represents g) {e : Edge} : e ∈ s.edges ↔ e ∈ g.edges :=
  h.edges.mem_iff

theorem mem_keys_iff (h : s.Represents g) {k : Key} : k ∈ s.keys ↔ k ∈ g.nodes :=
  h.holds.keys.mem_iff

theorem links_eq (h : s.Represents g) : s.Links = g.Links := by
  funext a b
  exact propext h.mem_edges_iff

theorem links_of_mem_targets (h : s.Represents g) {m n : Nat} {a : Key}
    (hm : s.keys[m]? = some a) (hn : n ∈ s.targets m) :
    ∃ b, s.keys[n]? = some b ∧ g.Links a b := by
  obtain ⟨e, he⟩ := h.holds.exists_edgeAt? (mem_targets.1 hn)
  obtain ⟨-, hb⟩ := edgeAt?_eq_some_iff.1 he
  exact ⟨e.callee, hb, (h.holds.mem_arcs_iff hm hb).1 (mem_targets.1 hn)⟩

theorem mem_targets_of_links (h : s.Represents g) {m : Nat} {a b : Key}
    (hm : s.keys[m]? = some a) (hab : g.Links a b) : ∃ n ∈ s.targets m, s.keys[n]? = some b := by
  obtain ⟨n, hn⟩ := h.holds.mem_nodes_iff.1 (g.ends_mem _ hab).2
  exact ⟨n, mem_targets.2 ((h.holds.mem_arcs_iff hm hn).2 hab), hn⟩

theorem reaches_iff (h : s.Represents g) {m n : Nat} {a b : Key} (hm : s.keys[m]? = some a)
    (hn : s.keys[n]? = some b) : s.Reaches m n ↔ g.Reaches a b := by
  rw [Reaches, CallGraph.Reaches, TransGen.head'_iff, TransGen.head'_iff]
  constructor
  · rintro ⟨i, hi, hp⟩
    obtain ⟨c, hc, hac⟩ := h.links_of_mem_targets hm hi
    obtain ⟨b', hb, hcb⟩ := h.path_of_targets hc hp
    obtain rfl := Option.some.inj (hb.symm.trans hn)
    exact ⟨c, hac, hcb⟩
  · rintro ⟨c, hac, hp⟩
    obtain ⟨i, hi, hc⟩ := h.mem_targets_of_links hm hac
    obtain ⟨n', hn', hin⟩ := h.path_of_links hc hp
    obtain rfl := h.holds.number_unique hn' hn
    exact ⟨i, hi, hin⟩

section

variable {next : Nat → List Nat} (hnext : ∀ m n, n ∈ next m ↔ n ∈ s.targets m)
include hnext

theorem mem_search_numbers_iff (h : s.Represents g) {m n : Nat} (hm : m ∈ s.numbers) :
    n ∈ search next s.numbers (next m) ↔ s.Reaches m n := by
  have hn : ∀ m ∈ s.numbers, ∀ n ∈ next m, n ∈ s.numbers := by
    intro m hm n hmn
    obtain ⟨a, ha⟩ := mem_numbers.1 hm
    obtain ⟨b, hb, -⟩ := h.links_of_mem_targets ha ((hnext m n).1 hmn)
    exact mem_numbers.2 ⟨b, hb⟩
  have he : (fun m n ↦ n ∈ next m) = fun m n ↦ n ∈ s.targets m := by
    funext m n
    exact propext (hnext m n)
  rw [mem_search_iff (hn m hm) hn, he, Reaches, TransGen.head'_iff]
  exact exists_congr fun i ↦ and_congr_left fun _ ↦ hnext m i

theorem resolveAll_search (h : s.Represents g) {m : Nat} {a : Key} (hm : s.keys[m]? = some a) :
    s.resolveAll (search next s.numbers (next m)) = g.resolveAll (g.closure a) := by
  have hn : m ∈ s.numbers := mem_numbers.2 ⟨a, hm⟩
  refine h.resolveAll fun k ↦ ?_
  rw [mem_keysAt, CallGraph.mem_closure_iff]
  constructor
  · intro ⟨n, hmn, hk⟩
    exact (h.reaches_iff hm hk).1 ((h.mem_search_numbers_iff hnext hn).1 hmn)
  · intro hr
    obtain ⟨n, hk⟩ := h.holds.mem_nodes_iff.1 hr.callee_mem
    exact ⟨n, (h.mem_search_numbers_iff hnext hn).2 ((h.reaches_iff hm hk).2 hr), hk⟩

end

theorem allDependencies_eq {α : Type} [Identity α] (x : α) (h : s.Represents g) :
    s.allDependencies x = g.allDependencies (Identity.toInstance x) := by
  rw [allDependencies, CallGraph.allDependencies]
  cases hx : s.number? x with
  | some m => exact h.resolveAll_search (fun _ _ ↦ Iff.rfl) ((h.number?_eq_some_iff x).1 hx)
  | none =>
    have hs : g.closure (Identity.toInstance x).key = .empty := by
      apply OrdSet.ext
      intro k
      rw [CallGraph.mem_closure_iff]
      exact iff_of_false (fun hk ↦ (h.number?_eq_none_iff x).1 hx hk.caller_mem)
        OrdSet.not_mem_empty
    rw [hs]
    rfl

theorem dependsOn_iff {α : Type} [Identity α] {x : α} {k : Key} (h : s.Represents g) :
    s.DependsOn x k ↔ g.DependsOn (Identity.toInstance x) k := by
  rw [Store.DependsOn, CallGraph.DependsOn, h.allDependencies_eq]

theorem render_eq (h : s.Represents g) : s.render = g.render := by
  have hd (i : Instance) : s.directDependencies i = g.directDependencies i :=
    h.directDependencies_eq i
  simp only [render, CallGraph.render, h.instances_eq, hd]

section Cycles

variable {components : List (List Nat)}

theorem isRecursive_keysAt (h : s.Represents g) {c : List Nat} (hc : c ≠ [])
    (hn : ∀ n ∈ c, n ∈ s.numbers) : g.isRecursive (s.keysAt c) = s.isRecursive c := by
  match c with
  | [] => exact absurd rfl hc
  | [m] =>
    obtain ⟨a, ha⟩ := mem_numbers.1 (hn m List.mem_cons_self)
    have hk : s.keysAt [m] = [a] := by simp [keysAt, ha]
    rw [hk, CallGraph.isRecursive, isRecursive, decide_eq_decide]
    exact (h.holds.mem_arcs_iff ha ha).symm
  | m :: n :: c =>
    obtain ⟨a, ha⟩ := mem_numbers.1 (hn m (by simp))
    obtain ⟨b, hb⟩ := mem_numbers.1 (hn n (by simp))
    have hk : s.keysAt (m :: n :: c) = a :: b :: s.keysAt c := by simp [keysAt, ha, hb]
    rw [hk]
    rfl

theorem mem_numbers_of_mem (hc : s.IsComponents components) {c : List Nat} (h : c ∈ components)
    {n : Nat} (hn : n ∈ c) : n ∈ s.numbers :=
  (hc.mem_flatten n).1 (List.mem_flatten.2 ⟨c, h, hn⟩)

theorem flatten_map_keysAt (s : Store) (components : List (List Nat)) :
    (components.map s.keysAt).flatten = s.keysAt components.flatten := by
  rw [keysAt, List.filterMap_flatten]
  rfl

theorem isComponents (h : s.Represents g) (hc : s.IsComponents components) :
    g.IsComponents (components.map s.keysAt) where
  nodup := by
    rw [flatten_map_keysAt]
    exact hc.nodup.filterMap fun m n k hm hn ↦ h.holds.number_unique hm hn
  mem_flatten k := by
    rw [flatten_map_keysAt, mem_keysAt, h.holds.mem_nodes_iff]
    refine exists_congr fun n ↦ and_iff_right_of_imp fun hn ↦ ?_
    exact (hc.mem_flatten n).2 (mem_numbers.2 ⟨k, hn⟩)
  ne_nil keys hk := by
    obtain ⟨c, hm, rfl⟩ := List.mem_map.1 hk
    obtain ⟨n, hn⟩ := List.exists_mem_of_ne_nil c (hc.ne_nil c hm)
    obtain ⟨k, hk⟩ := mem_numbers.1 (mem_numbers_of_mem hc hm hn)
    exact List.ne_nil_of_mem (mem_keysAt.2 ⟨n, hn, hk⟩)
  mem_iff keys hk a ha b := by
    obtain ⟨c, hm, rfl⟩ := List.mem_map.1 hk
    obtain ⟨m, hmc, hma⟩ := mem_keysAt.1 ha
    constructor
    · intro hb
      obtain ⟨n, hnc, hnb⟩ := mem_keysAt.1 hb
      rcases (hc.mem_iff c hm m hmc n).1 hnc with rfl | ⟨hmn, hnm⟩
      · exact .inl (Option.some.inj (hnb.symm.trans hma))
      · exact .inr ⟨(h.reaches_iff hma hnb).1 hmn, (h.reaches_iff hnb hma).1 hnm⟩
    · rintro (rfl | ⟨hab, hba⟩)
      · exact ha
      · obtain ⟨n, hnb⟩ := h.holds.mem_nodes_iff.1 hab.callee_mem
        refine mem_keysAt.2 ⟨n, (hc.mem_iff c hm m hmc n).2 (.inr ?_), hnb⟩
        exact ⟨(h.reaches_iff hma hnb).2 hab, (h.reaches_iff hnb hma).2 hba⟩

theorem mem_filterMap_lookup (h : s.Represents g) {keys : List Key} {n : Nat} :
    n ∈ keys.filterMap (s.index.lookup ·) ↔ ∃ k ∈ keys, s.keys[n]? = some k :=
  List.mem_filterMap.trans (exists_congr fun k ↦ and_congr_right fun _ ↦ h.holds.index k n)

theorem isComponents_numbers (h : s.Represents g) {cs : List (List Key)} (hc : g.IsComponents cs) :
    s.IsComponents (cs.map fun c ↦ c.filterMap (s.index.lookup ·)) where
  nodup := by
    rw [← List.filterMap_flatten]
    refine hc.nodup.filterMap fun a b n ha hb ↦ ?_
    exact Option.some.inj (((h.holds.index a n).1 ha).symm.trans ((h.holds.index b n).1 hb))
  mem_flatten n := by
    rw [← List.filterMap_flatten, h.mem_filterMap_lookup, mem_numbers]
    refine exists_congr fun k ↦ and_iff_right_of_imp fun hk ↦ ?_
    exact (hc.mem_flatten k).2 (h.holds.mem_nodes_iff.2 ⟨n, hk⟩)
  ne_nil ns hn := by
    obtain ⟨c, hm, rfl⟩ := List.mem_map.1 hn
    obtain ⟨k, hk⟩ := List.exists_mem_of_ne_nil c (hc.ne_nil c hm)
    have hg : k ∈ g.nodes := (hc.mem_flatten k).1 (List.mem_flatten.2 ⟨c, hm, hk⟩)
    obtain ⟨n, hn⟩ := h.holds.mem_nodes_iff.1 hg
    exact List.ne_nil_of_mem (h.mem_filterMap_lookup.2 ⟨k, hk, hn⟩)
  mem_iff ns hn m hm n := by
    obtain ⟨c, hcs, rfl⟩ := List.mem_map.1 hn
    obtain ⟨a, hac, ha⟩ := h.mem_filterMap_lookup.1 hm
    constructor
    · intro hn
      obtain ⟨b, hbc, hb⟩ := h.mem_filterMap_lookup.1 hn
      rcases (hc.mem_iff c hcs a hac b).1 hbc with rfl | ⟨hab, hba⟩
      · exact .inl (h.holds.number_unique hb ha)
      · exact .inr ⟨(h.reaches_iff ha hb).2 hab, (h.reaches_iff hb ha).2 hba⟩
    · rintro (rfl | ⟨hmn, hnm⟩)
      · exact hm
      · obtain ⟨i, -, hin⟩ := TransGen.tail'_iff.1 hmn
        obtain ⟨e, he⟩ := h.holds.exists_edgeAt? (mem_targets.1 hin)
        have hb : s.keys[n]? = some e.callee := (edgeAt?_eq_some_iff.1 he).2
        refine h.mem_filterMap_lookup.2 ⟨e.callee, (hc.mem_iff c hcs a hac _).2 (.inr ?_), hb⟩
        exact ⟨(h.reaches_iff ha hb).1 hmn, (h.reaches_iff hb ha).1 hnm⟩

theorem exists_isComponents (h : s.Represents g) : ∃ components, s.IsComponents components :=
  ⟨_, h.isComponents_numbers g.isComponents_components⟩

theorem groups_eq (h : s.Represents g) (hc : s.IsComponents components) :
    s.groups components = g.groups g.components := by
  have hr : components.filter s.isRecursive =
      components.filter (g.isRecursive ∘ s.keysAt) := by
    refine List.filter_congr fun c hm ↦ Eq.symm ?_
    exact h.isRecursive_keysAt (hc.ne_nil c hm) fun n hn ↦ mem_numbers_of_mem hc hm hn
  rw [← (h.isComponents hc).groups_eq g.isComponents_components, groups, CallGraph.groups,
    List.filter_map, List.map_map, hr]
  rfl

theorem callCycles_eq (h : s.Represents g) (hc : s.IsComponents components) :
    s.callCycles components = g.callCycles := by
  rw [callCycles, CallGraph.callCycles, h.groups_eq hc, h.resolve_eq]

theorem answers_eq (h : s.Represents g) (hc : s.IsComponents components) :
    s.answers components = g.answers := by
  have hd (i : Instance) : s.directDependencies i = g.directDependencies i :=
    h.directDependencies_eq i
  have ha (i : Instance) : s.allDependencies i = g.allDependencies i := h.allDependencies_eq i
  have hr (i : Instance) : s.callersOf i = g.callersOf i := h.callersOf_eq i
  rw [answers, CallGraph.answers, funext hd, funext ha, funext hr, h.instances_eq,
    h.callCycles_eq hc, h.render_eq, h.nodeCount_eq, h.edgeCount_eq]

end Cycles

theorem answersAs {s' : Store} {g' : CallGraph} (h : s.Represents g) (h' : s'.Represents g')
    (hg : g.answers = g'.answers) : s.AnswersAs s' := fun _ _ hc hc' ↦
  (h.answers_eq hc).trans (hg.trans (h'.answers_eq hc').symm)

end Represents

end FunctorCalls.Store
