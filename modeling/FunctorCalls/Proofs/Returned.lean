import FunctorCalls.Proofs.KnownTypes
import FunctorCalls.Proofs.Sketch
import Mathlib.Data.List.Forall2

namespace FunctorCalls

open Change

namespace TypeTable

variable {T : TypeTable}

theorem mem_entries_insert {t : Ty} {e : Digest × Ty} (h : e ∈ (T.insert t).entries) :
    e ∈ T.entries ∨ e.2 = t := by
  rw [insert] at h
  split at h
  · exact .inl h
  · rcases List.mem_append.1 h with h | h
    · exact .inl h
    · rw [List.mem_singleton.1 h]
      exact .inr rfl

theorem mem_entries_internAll {ts : List Ty} {e : Digest × Ty}
    (h : e ∈ (T.internAll ts).1.entries) : e ∈ T.entries ∨ e.2 ∈ ts := by
  induction ts generalizing T with
  | nil => exact .inl h
  | cons t ts ih =>
    rcases ih h with h | h
    · rcases mem_entries_insert h with h | rfl
      · exact .inl h
      · exact .inr List.mem_cons_self
    · exact .inr (List.mem_cons_of_mem t h)

theorem mem_entries_typesWith {i : Instance} {e : Digest × Ty}
    (h : e ∈ (CallGraph.typesWith T i).entries) : e ∈ T.entries ∨ e.2 ∈ i.typeArgs.getD [] := by
  obtain ⟨callable, variant, _ | ts⟩ := i
  · exact .inl h
  · exact mem_entries_internAll h

end TypeTable

/-- No two types that a history enters have one digest. -/
def Change.Separate (cs : List Change) : Prop :=
  ∀ t ∈ types cs, ∀ u ∈ types cs, t.digest = u.digest → t = u

theorem Change.mem_instances {cs : List Change} {p : Instance × Instance}
    (hp : p ∈ cs.flatMap recorded) : p.1 ∈ instances cs ∧ p.2 ∈ instances cs := by
  constructor
  · exact List.mem_flatMap.2 ⟨p, hp, List.mem_cons_self⟩
  · exact List.mem_flatMap.2 ⟨p, hp, List.mem_cons_of_mem _ List.mem_cons_self⟩

theorem Change.mem_types {cs : List Change} {i : Instance} (hi : i ∈ instances cs) {t : Ty}
    (ht : t ∈ i.typeArgs.getD []) : t ∈ types cs := List.mem_flatMap.2 ⟨i, hi, ht⟩

namespace CallGraph

variable {cs : List Change}

/-- Nothing is in a graph that a history does not record. -/
structure ComesFrom (cs : List Change) (g : CallGraph) : Prop where
  nodes : ∀ k ∈ g.nodes, ∃ i ∈ Change.instances cs, i.key = k
  types : ∀ e ∈ g.types.entries, e.2 ∈ Change.types cs

theorem ComesFrom.record {g : CallGraph} (h : ComesFrom cs g) {p : Instance × Instance}
    (hp : p ∈ cs.flatMap recorded) : ComesFrom cs (g.record p.1 p.2) := by
  obtain ⟨hcaller, hcallee⟩ := mem_instances hp
  constructor
  · intro k hk
    simp only [CallGraph.record, OrdSet.mem_insert] at hk
    rcases hk with rfl | rfl | hk
    · exact ⟨p.2, hcallee, rfl⟩
    · exact ⟨p.1, hcaller, rfl⟩
    · exact h.nodes k hk
  · intro e he
    rcases TypeTable.mem_entries_typesWith he with he | ht
    · rcases TypeTable.mem_entries_typesWith he with he | ht
      · exact h.types e he
      · exact mem_types hcaller ht
    · exact mem_types hcallee ht

theorem comesFrom_after (cs : List Change) : ComesFrom cs (after cs) := by
  apply after_induction
  · constructor
    · intro k hk
      exact absurd hk OrdSet.not_mem_empty
    · intro e he
      cases he
  · intro g p hp hg
    exact hg.record hp
  · intro _ g points hg
    exact ⟨fun k hk ↦ hg.nodes k (mem_nodes_of_mem_nodes_trim hk), hg.types⟩

theorem typeOf_digest (hs : Separate cs) {t : Ty} (ht : t ∈ Change.types cs)
    (hd : t.digest ∈ (after cs).types.digests) : (after cs).types.typeOf t.digest = t := by
  have hf := TypeTable.find?_eq_some_typeOf hd
  have he : (after cs).types.typeOf t.digest ∈ Change.types cs :=
    (comesFrom_after cs).types _ (TypeTable.mem_entries_of_find? hf)
  exact hs _ he t ht (TypeTable.digest_typeOf hd)

theorem instanceOf_key (hs : Separate cs) {i : Instance} (hi : i ∈ Change.instances cs)
    (hk : i.key ∈ (after cs).nodes) : (after cs).instanceOf i.key = i := by
  have hd := (after cs).digests_mem i.key hk
  have ht (t : Ty) : t ∈ i.typeArgs.getD [] → t ∈ Change.types cs := mem_types hi
  obtain ⟨callable, variant, _ | ts⟩ := i
  · rfl
  · have hm : (ts.map Ty.digest).map (after cs).types.typeOf = ts := by
      rw [List.map_map]
      refine (List.map_congr_left fun t htt ↦ ?_).trans (List.map_id ts)
      exact typeOf_digest hs (ht t htt) (hd t.digest (List.mem_map_of_mem htt))
    simp only [instanceOf, Instance.key, Option.map_some, hm]

inductive Returns (g : CallGraph) : List Key → List Instance → Prop
  | directDependencies {i : Instance} {is : List Instance} :
    g.directDependencies i = .ok is → Returns g (g.successors i.key).toList is
  | allDependencies {i : Instance} {is : List Instance} :
    g.allDependencies i = .ok is → Returns g (g.closure i.key).toList is
  | callersOf {i : Instance} {is : List Instance} :
    g.callersOf i = .ok is → Returns g (g.predecessors i.key).toList is
  | instances {is : List Instance} : g.instances = .ok is → Returns g g.nodes.toList is
  | callCycles {groups : List (List Instance)} :
    g.callCycles = .ok groups → Returns g (g.groups g.components).flatten groups.flatten

variable {g : CallGraph} {keys : List Key} {is : List Instance}

theorem Returns.eq_map (h : g.Returns keys is) : is = keys.map g.instanceOf := by
  cases h with
  | directDependencies h => exact Except.ok.inj (h.symm.trans (g.directDependencies_eq_ok _))
  | allDependencies h => exact Except.ok.inj (h.symm.trans (g.allDependencies_eq_ok _))
  | callersOf h => exact Except.ok.inj (h.symm.trans (g.callersOf_eq_ok _))
  | instances h => exact Except.ok.inj (h.symm.trans g.instances_eq_ok)
  | callCycles h =>
    rw [Except.ok.inj (h.symm.trans g.callCycles_eq_ok), List.map_flatten]

theorem Returns.mem_nodes (h : g.Returns keys is) {k : Key} (hk : k ∈ keys) : k ∈ g.nodes := by
  cases h with
  | directDependencies => exact (g.ends_mem _ (mem_successors.1 hk)).2
  | allDependencies => exact (mem_closure_iff.1 hk).callee_mem
  | callersOf => exact (g.ends_mem _ (mem_predecessors.1 hk)).1
  | instances => exact hk
  | callCycles =>
    obtain ⟨c, hc, hk⟩ := List.mem_flatten.1 hk
    exact mem_nodes_of_mem_groups hc hk

theorem Returns.nodup (h : g.Returns keys is) : keys.Nodup := by
  cases h with
  | callCycles => exact g.isComponents_components.nodup_flatten_groups
  | _ => exact OrdSet.nodup _

/-- An instance that may be used in place of a node: questions about it are about the node. -/
structure StandsFor (g : CallGraph) (i : Instance) (k : Key) : Prop where
  key : i.key = k
  contains : g.contains i = true
  directDependencies : Lists (g.directDependencies i) (g.Links k)
  allDependencies : Lists (g.allDependencies i) (g.Reaches k)
  callersOf : Lists (g.callersOf i) (g.Links · k)

theorem standsFor {i : Instance} (hi : i.key ∈ g.nodes) : g.StandsFor i i.key where
  key := rfl
  contains := decide_eq_true hi
  directDependencies :=
    lists_resolveAll (fun _ hk ↦ (g.ends_mem _ (mem_successors.1 hk)).2) fun _ ↦ mem_successors
  allDependencies :=
    lists_resolveAll (fun _ hk ↦ (mem_closure_iff.1 hk).callee_mem) fun _ ↦ mem_closure_iff
  callersOf :=
    lists_resolveAll (fun _ hk ↦ (g.ends_mem _ (mem_predecessors.1 hk)).1) fun _ ↦ mem_predecessors

theorem standsFor_instanceOf {k : Key} (hk : k ∈ g.nodes) : g.StandsFor (g.instanceOf k) k := by
  have hi : (g.instanceOf k).key = k := key_instanceOf hk
  have h : g.StandsFor (g.instanceOf k) (g.instanceOf k).key := standsFor (hi.symm ▸ hk)
  rwa [hi] at h

theorem Returns.nodup_instances (h : g.Returns keys is) : is.Nodup := by
  apply List.Nodup.of_map Instance.key
  rw [h.eq_map, map_key_instanceOf fun _ ↦ h.mem_nodes]
  exact h.nodup

theorem Returns.forall₂_standsFor (h : g.Returns keys is) : List.Forall₂ g.StandsFor is keys := by
  rw [h.eq_map, List.forall₂_map_left_iff, List.forall₂_same]
  exact fun _ hk ↦ standsFor_instanceOf (h.mem_nodes hk)

/-- What an answer lists stands for the nodes that it is about, one for one, so that none of it is
listed twice; a store finds these nodes by it. Each of these instances has the digests of one that
was recorded, and is that one, if no two types of the history have one digest. -/
theorem after_returns_nodes (cs : List Change) {keys : List Key} {is : List Instance}
    (h : (after cs).Returns keys is) :
    List.Forall₂ (after cs).StandsFor is keys ∧ is.Nodup ∧
    (∀ i ∈ is, ∃ n, (Store.after cs).number? i = some n ∧
      (Store.after cs).keys[n]? = some i.key) ∧
    (∀ i ∈ is, ∃ j ∈ Change.instances cs, j.key = i.key) ∧
    (Separate cs → ∀ i ∈ is, i ∈ Change.instances cs ∧
      ∀ j ∈ Change.instances cs, j.key = i.key → j = i) := by
  have hmem (i : Instance) (hi : i ∈ is) : ∃ k ∈ (after cs).nodes,
      (after cs).instanceOf k = i ∧ i.key = k := by
    rw [h.eq_map] at hi
    obtain ⟨k, hk, rfl⟩ := List.mem_map.1 hi
    exact ⟨k, h.mem_nodes hk, rfl, key_instanceOf (h.mem_nodes hk)⟩
  refine ⟨h.forall₂_standsFor, h.nodup_instances, ?_, ?_, ?_⟩
  · intro i hi
    obtain ⟨k, hk, -, rfl⟩ := hmem i hi
    have hs := Store.represents_after cs
    obtain ⟨n, hn⟩ := hs.holds.mem_nodes_iff.1 hk
    exact ⟨n, (hs.number?_eq_some_iff i).2 hn, hn⟩
  · intro i hi
    obtain ⟨k, hk, -, rfl⟩ := hmem i hi
    exact (comesFrom_after cs).nodes i.key hk
  · intro hs i hi
    obtain ⟨k, hk, hik, rfl⟩ := hmem i hi
    have heq (j : Instance) (hj : j ∈ Change.instances cs) (hji : j.key = i.key) : j = i := by
      rw [← instanceOf_key hs hj (hji ▸ hk), hji]
      exact hik
    obtain ⟨j, hj, hji⟩ := (comesFrom_after cs).nodes i.key hk
    exact ⟨heq j hj hji ▸ hj, heq⟩

def register : Instance := ⟨⟨"Lib", "Register"⟩, .body, none⟩

def applyEach : Instance := ⟨⟨"Lib", "ApplyEach"⟩, .adjoint, some [.base .qubit, .base .bool]⟩

theorem after_returns_applyEach :
    (after [.add register applyEach]).directDependencies register = .ok [applyEach] ∧
    Separate [.add register applyEach] ∧
    List.Forall₂ (after [.add register applyEach]).StandsFor [applyEach] [applyEach.key] ∧
    applyEach ∈ Change.instances [.add register applyEach] := by
  have hk : ((after [.add register applyEach]).successors register.key).toList =
      [applyEach.key] := by
    decide +kernel
  have hi : [applyEach.key].map (after [.add register applyEach]).instanceOf = [applyEach] := by
    decide +kernel
  have hd : (after [.add register applyEach]).directDependencies register = .ok [applyEach] := by
    rw [directDependencies_eq_ok, hk, hi]
  have hs : Separate [.add register applyEach] := by
    unfold Separate
    decide +kernel
  have hr : (after [.add register applyEach]).Returns [applyEach.key] [applyEach] :=
    hk ▸ .directDependencies hd
  obtain ⟨hf, -, -, -, hm⟩ := after_returns_nodes _ hr
  exact ⟨hd, hs, hf, (hm hs applyEach List.mem_cons_self).1⟩

end CallGraph

end FunctorCalls
