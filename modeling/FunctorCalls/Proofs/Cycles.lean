import FunctorCalls.Proofs.Closure
import FunctorCalls.Proofs.Sorting
import Mathlib.Data.List.Nodup

namespace FunctorCalls.CallGraph

open Relation

variable {g : CallGraph}

/-- The strongly connected components of a graph, in any order and each in any order. -/
structure IsComponents (g : CallGraph) (components : List (List Key)) : Prop where
  nodup : components.flatten.Nodup
  mem_flatten : ∀ k, k ∈ components.flatten ↔ k ∈ g.nodes
  ne_nil : ∀ c ∈ components, c ≠ []
  mem_iff : ∀ c ∈ components, ∀ a ∈ c, ∀ b, b ∈ c ↔ b = a ∨ g.Reaches a b ∧ g.Reaches b a

def circle (g : CallGraph) (k : Key) : OrdSet Key :=
  g.nodes.filter fun m ↦ m ∈ g.closure k && k ∈ g.closure m

theorem mem_circle_iff {k m : Key} : m ∈ g.circle k ↔ g.Reaches k m ∧ g.Reaches m k := by
  rw [circle, OrdSet.mem_filter, Bool.and_eq_true, decide_eq_true_iff, decide_eq_true_iff,
    mem_closure_iff, mem_closure_iff]
  exact and_iff_right_of_imp fun h ↦ h.1.callee_mem

theorem circle_eq_of_mem {k m : Key} (h : m ∈ g.circle k) : g.circle m = g.circle k := by
  obtain ⟨hkm, hmk⟩ := mem_circle_iff.1 h
  apply OrdSet.ext
  intro n
  rw [mem_circle_iff, mem_circle_iff]
  constructor
  · intro ⟨hmn, hnm⟩
    exact ⟨hkm.trans hmn, hnm.trans hmk⟩
  · intro ⟨hkn, hnk⟩
    exact ⟨hmk.trans hkn, hnk.trans hkm⟩

section

variable {components : List (List Key)} (h : g.IsComponents components)
include h

theorem IsComponents.isRecursive_iff {c : List Key} (hc : c ∈ components) {a : Key} (ha : a ∈ c) :
    g.isRecursive c = true ↔ g.Reaches a a := by
  have hn : c.Nodup := (List.nodup_flatten.1 h.nodup).1 c hc
  match c with
  | [] => simp at ha
  | [b] =>
    obtain rfl := List.mem_singleton.1 ha
    rw [isRecursive, decide_eq_true_iff]
    constructor
    · intro hl
      exact .single hl
    -- A path from the node to itself stays in its component, so that its first edge is a loop.
    · intro hr
      obtain ⟨b, hab, hba⟩ := TransGen.head'_iff.1 hr
      have hb : b = a := by
        rcases reflTransGen_iff_eq_or_transGen.1 hba with he | hba
        · exact he.symm
        · exact List.mem_singleton.1 ((h.mem_iff [a] hc a ha b).2 (.inr ⟨.single hab, hba⟩))
      exact hb ▸ hab
  | b :: b' :: c =>
    refine ⟨fun _ ↦ ?_, fun _ ↦ rfl⟩
    have hne : ∃ m ∈ b :: b' :: c, m ≠ a := by
      by_cases hab : b = a
      · refine ⟨b', by simp, ?_⟩
        intro h'
        simp [hab, h'] at hn
      · exact ⟨b, by simp, hab⟩
    obtain ⟨m, hm, hma⟩ := hne
    obtain ⟨ham, hma⟩ := ((h.mem_iff _ hc a ha m).1 hm).resolve_left hma
    exact ham.trans hma

theorem IsComponents.sortOn_eq_circle {c : List Key} (hc : c ∈ components) {a : Key} (ha : a ∈ c)
    (hr : g.Reaches a a) : sortOn id c = (g.circle a).toList := by
  have hn : c.Nodup := (List.nodup_flatten.1 h.nodup).1 c hc
  refine OrdSet.eq_of_sorted (pairwise_sortOn hn) (g.circle a).sorted fun k ↦ ?_
  rw [mem_sortOn, OrdSet.mem_toList, mem_circle_iff, h.mem_iff c hc a ha]
  apply or_iff_right_of_imp
  intro he
  subst he
  exact ⟨hr, hr⟩

theorem IsComponents.mem_groups_iff {keys : List Key} :
    keys ∈ g.groups components ↔ ∃ k, g.Reaches k k ∧ keys = (g.circle k).toList := by
  simp only [groups, mem_sortOn, List.mem_map, List.mem_filter]
  constructor
  · intro ⟨c, ⟨hc, hr⟩, he⟩
    obtain ⟨a, ha⟩ := List.exists_mem_of_ne_nil c (h.ne_nil c hc)
    have hr : g.Reaches a a := (h.isRecursive_iff hc ha).1 hr
    exact ⟨a, hr, he ▸ h.sortOn_eq_circle hc ha hr⟩
  · intro ⟨k, hr, he⟩
    subst he
    obtain ⟨c, hc, hk⟩ := List.mem_flatten.1 ((h.mem_flatten k).2 hr.caller_mem)
    exact ⟨c, ⟨hc, (h.isRecursive_iff hc hk).2 hr⟩, h.sortOn_eq_circle hc hk hr⟩

theorem IsComponents.pairwise_groups :
    (g.groups components).Pairwise fun c d ↦ compare c.head? d.head? = .lt := by
  have hd : (components.filter g.isRecursive).Pairwise List.Disjoint :=
    (List.nodup_flatten.1 h.nodup).2.filter _
  refine pairwise_sortOn (List.pairwise_map.2 (hd.imp_of_mem fun {c d} hc _ hcd he ↦ ?_))
  obtain ⟨a, ha⟩ := List.exists_mem_of_ne_nil c (h.ne_nil c (List.mem_filter.1 hc).1)
  have ha : a ∈ sortOn id c := mem_sortOn.2 ha
  obtain ⟨b, l, hl⟩ := List.exists_cons_of_ne_nil (List.ne_nil_of_mem ha)
  have hb : (sortOn id c).head? = some b := by rw [hl, List.head?_cons]
  have hbc : b ∈ c := mem_sortOn.1 (List.mem_of_head? hb)
  have hbd : b ∈ d := mem_sortOn.1 (List.mem_of_head? (he ▸ hb))
  exact hcd hbc hbd

theorem IsComponents.nodup_groups : (g.groups components).Nodup :=
  nodup_of_pairwise_lt h.pairwise_groups

theorem IsComponents.groups_eq_of_links {g' : CallGraph} {components' : List (List Key)}
    (h' : g'.IsComponents components') (hl : g.Links = g'.Links) :
    g.groups components = g'.groups components' := by
  have hr : g.Reaches = g'.Reaches := congrArg TransGen hl
  have hc (k : Key) : g.circle k = g'.circle k := by
    apply OrdSet.ext
    intro m
    rw [mem_circle_iff, mem_circle_iff, hr]
  refine eq_of_pairwise_lt h.pairwise_groups h'.pairwise_groups fun keys ↦ ?_
  rw [h.mem_groups_iff, h'.mem_groups_iff, hr]
  exact exists_congr fun k ↦ by rw [hc]

theorem IsComponents.groups_eq {components' : List (List Key)} (h' : g.IsComponents components') :
    g.groups components = g.groups components' := h.groups_eq_of_links h' rfl

theorem IsComponents.nodup_flatten_groups : (g.groups components).flatten.Nodup := by
  refine List.nodup_flatten.2 ⟨?_, ?_⟩
  · intro c hc
    obtain ⟨k, -, rfl⟩ := h.mem_groups_iff.1 hc
    exact (g.circle k).nodup
  · refine List.Pairwise.imp_of_mem ?_ h.nodup_groups
    intro c d hc hd hcd k hkc hkd
    obtain ⟨a, -, rfl⟩ := h.mem_groups_iff.1 hc
    obtain ⟨b, -, rfl⟩ := h.mem_groups_iff.1 hd
    exact hcd (by rw [← circle_eq_of_mem hkc, circle_eq_of_mem hkd])

end

def component (g : CallGraph) (k : Key) : List Key :=
  g.nodes.toList.filter fun m ↦ m = k || (m ∈ g.closure k && k ∈ g.closure m)

theorem components_eq (g : CallGraph) : g.components = g.nodes.toList.filterMap fun k ↦
    if (g.component k).head? = some k then some (g.component k) else none := by
  have h (k : Key) : componentOf g.closures k (g.closure k) = g.component k := by
    rw [componentOf, closures, List.filter_map, List.map_map]
    exact List.map_id _
  simp only [← h]
  exact List.filterMap_map

theorem mem_component_iff {k m : Key} (hk : k ∈ g.nodes) :
    m ∈ g.component k ↔ m = k ∨ m ∈ g.circle k := by
  rw [component, List.mem_filter, Bool.or_eq_true, decide_eq_true_iff, circle, OrdSet.mem_filter,
    OrdSet.mem_toList, and_or_left]
  exact or_congr_left (and_iff_right_of_imp fun he ↦ he ▸ hk)

theorem component_eq_of_mem {k m : Key} (hk : k ∈ g.nodes) (hm : m ∈ g.component k) :
    g.component m = g.component k := by
  have hm' : m ∈ g.nodes := (List.mem_filter.1 hm).1
  rcases (mem_component_iff hk).1 hm with he | hmk
  · rw [he]
  · have hc : g.circle m = g.circle k := circle_eq_of_mem hmk
    have hkk : k ∈ g.circle k := by
      obtain ⟨hkm, hmk⟩ := mem_circle_iff.1 hmk
      exact mem_circle_iff.2 ⟨hkm.trans hmk, hkm.trans hmk⟩
    refine OrdSet.eq_of_sorted (g.nodes.sorted.filter _) (g.nodes.sorted.filter _) fun n ↦ ?_
    refine (mem_component_iff hm').trans (Iff.trans ?_ (mem_component_iff hk).symm)
    rw [hc, or_iff_right_of_imp fun he : n = m ↦ he ▸ hmk,
      or_iff_right_of_imp fun he : n = k ↦ he ▸ hkk]

theorem mem_components_iff {c : List Key} :
    c ∈ g.components ↔ ∃ k ∈ g.nodes, (g.component k).head? = some k ∧ c = g.component k := by
  rw [components_eq, List.mem_filterMap]
  refine exists_congr fun k ↦ and_congr_right fun _ ↦ ?_
  split
  · next h => simp [h, eq_comm]
  · next h => simp [h]

theorem isComponents_components (g : CallGraph) : g.IsComponents g.components where
  nodup := by
    refine List.nodup_flatten.2 ⟨?_, ?_⟩
    · intro c hc
      obtain ⟨k, -, -, rfl⟩ := mem_components_iff.1 hc
      exact g.nodes.nodup.filter _
    · rw [components_eq, List.pairwise_filterMap]
      refine g.nodes.nodup.imp_of_mem ?_
      intro a b ha hb hab c hc d hd m hmc hmd
      apply hab
      rw [Option.ite_none_right_eq_some] at hc hd
      obtain ⟨hac, hc⟩ := hc
      obtain ⟨hbd, hd⟩ := hd
      have hma : g.component m = g.component a := component_eq_of_mem ha (Option.some.inj hc ▸ hmc)
      have hmb : g.component m = g.component b := component_eq_of_mem hb (Option.some.inj hd ▸ hmd)
      exact Option.some.inj (hac.symm.trans ((hma ▸ hmb) ▸ hbd))
  mem_flatten k := by
    rw [List.mem_flatten]
    constructor
    · intro ⟨c, hc, hk⟩
      obtain ⟨a, -, -, rfl⟩ := mem_components_iff.1 hc
      exact (List.mem_filter.1 hk).1
    · intro hk
      have hkk : k ∈ g.component k := (mem_component_iff hk).2 (.inl rfl)
      obtain ⟨a, l, hl⟩ := List.exists_cons_of_ne_nil (List.ne_nil_of_mem hkk)
      have ha : a ∈ g.component k := hl ▸ List.mem_cons_self
      have he : g.component a = g.component k := component_eq_of_mem hk ha
      refine ⟨g.component a, mem_components_iff.2 ⟨a, (List.mem_filter.1 ha).1, ?_, rfl⟩, he ▸ hkk⟩
      rw [he, hl, List.head?_cons]
  ne_nil c hc := by
    obtain ⟨k, -, hk, rfl⟩ := mem_components_iff.1 hc
    exact List.ne_nil_of_mem (List.mem_of_head? hk)
  mem_iff c hc a ha b := by
    obtain ⟨k, hk, -, rfl⟩ := mem_components_iff.1 hc
    rw [← component_eq_of_mem hk ha, ← mem_circle_iff]
    exact mem_component_iff (List.mem_filter.1 ha).1

theorem mem_nodes_of_mem_groups {c : List Key} (hc : c ∈ g.groups g.components) {k : Key}
    (hk : k ∈ c) : k ∈ g.nodes := by
  obtain ⟨a, -, rfl⟩ := g.isComponents_components.mem_groups_iff.1 hc
  exact (OrdSet.mem_filter.1 hk).1

theorem callCycles_eq_ok (g : CallGraph) :
    g.callCycles = .ok ((g.groups g.components).map (·.map g.instanceOf)) :=
  mapM_eq_ok fun _ hc ↦ mapM_eq_ok fun _ hk ↦ resolve_eq_ok (mem_nodes_of_mem_groups hc hk)

theorem map_key_callCycles (g : CallGraph) :
    ((g.groups g.components).map (·.map g.instanceOf)).map (·.map Instance.key) =
      g.groups g.components := by
  rw [List.map_map]
  exact (List.map_congr_left fun c hc ↦
    map_key_instanceOf fun k hk ↦ mem_nodes_of_mem_groups hc hk).trans (List.map_id _)

theorem exists_mem_groups_iff {a b : Key} : (∃ c ∈ g.groups g.components, a ∈ c ∧ b ∈ c) ↔
    g.Reaches a b ∧ g.Reaches b a := by
  constructor
  · intro ⟨c, hc, ha, hb⟩
    obtain ⟨k, -, rfl⟩ := g.isComponents_components.mem_groups_iff.1 hc
    obtain ⟨hka, hak⟩ := mem_circle_iff.1 ha
    obtain ⟨hkb, hbk⟩ := mem_circle_iff.1 hb
    exact ⟨hak.trans hkb, hbk.trans hka⟩
  · intro ⟨hab, hba⟩
    have haa : g.Reaches a a := hab.trans hba
    exact ⟨(g.circle a).toList, g.isComponents_components.mem_groups_iff.2 ⟨a, haa, rfl⟩,
      mem_circle_iff.2 ⟨haa, haa⟩, mem_circle_iff.2 ⟨hab, hba⟩⟩

theorem singleton_mem_groups_iff {k : Key} (hk : ∀ m, g.Reaches k m → g.Reaches m k → m = k) :
    [k] ∈ g.groups g.components ↔ g.Links k k := by
  constructor
  · intro h
    have hkk := (exists_mem_groups_iff.1 ⟨[k], h, List.mem_singleton_self k,
      List.mem_singleton_self k⟩).1
    obtain ⟨m, hkm, hmk⟩ := TransGen.head'_iff.1 hkk
    rcases reflTransGen_iff_eq_or_transGen.1 hmk with rfl | hmk
    · exact hkm
    · exact hk m (.single hkm) hmk ▸ hkm
  · intro h
    have hkk : g.Reaches k k := .single h
    refine g.isComponents_components.mem_groups_iff.2 ⟨k, hkk, ?_⟩
    refine OrdSet.eq_of_sorted (List.pairwise_singleton _ k) (g.circle k).sorted fun m ↦ ?_
    rw [List.mem_singleton, OrdSet.mem_toList, mem_circle_iff]
    constructor
    · intro he
      subst he
      exact ⟨hkk, hkk⟩
    · intro ⟨hkm, hmk⟩
      exact hk m hkm hmk

end FunctorCalls.CallGraph
