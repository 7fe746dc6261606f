import FunctorCalls.Proofs.KeyOrder
import FunctorCalls.Proofs.KnownTypes
import FunctorCalls.Proofs.Lines
import Mathlib.Data.List.Dedup

namespace FunctorCalls.Store

variable {s : Store} {nodes : OrdSet Key} {edges : OrdSet Edge} {ns ms : List Nat}

theorem resolveAll_eq_of_mem_iff (h : ∀ n, n ∈ ns ↔ n ∈ ms) :
    s.resolveAll ns = s.resolveAll ms := by
  have hk : OrdSet.ofList (s.keysAt ns) = .ofList (s.keysAt ms) := by
    apply OrdSet.ext
    intro k
    simp only [OrdSet.mem_ofList, mem_keysAt, h]
  rw [resolveAll, resolveAll, CallGraph.eraseReps_sortOn_id, CallGraph.eraseReps_sortOn_id, hk]

theorem Holds.nodup_map_getElem? (h : s.Holds nodes edges)
    (hn : ∀ n ∈ ns, n < s.keys.length) : (ns.dedup.map (s.keys[·]?)).Nodup := by
  refine List.Nodup.map_on (fun m hm n _ hmn ↦ ?_) ns.nodup_dedup
  have hk := List.getElem?_eq_getElem (hn m (List.mem_dedup.1 hm))
  exact h.number_unique hk (hmn.symm.trans hk)

theorem Holds.perm_keysAt (h : s.Holds nodes edges) (hn : ∀ n ∈ ns, n < s.keys.length) :
    ((OrdSet.ofList (s.keysAt ns)).toList.map some).Perm (ns.dedup.map (s.keys[·]?)) := by
  have hd : ((OrdSet.ofList (s.keysAt ns)).toList.map some).Nodup :=
    (OrdSet.nodup _).map (Option.some_injective Key)
  refine (List.perm_ext_iff_of_nodup hd (h.nodup_map_getElem? hn)).2 fun k? ↦ ?_
  simp only [List.mem_map, List.mem_dedup, OrdSet.mem_toList, OrdSet.mem_ofList, mem_keysAt]
  constructor
  · rintro ⟨k, ⟨n, hns, hk⟩, rfl⟩
    exact ⟨n, hns, hk⟩
  · rintro ⟨n, hns, rfl⟩
    have hk := List.getElem?_eq_getElem (hn n hns)
    exact ⟨_, ⟨n, hns, hk⟩, hk.symm⟩

/-- Keys are compared by callables, variants and type arguments, and in a strict total order. In a
store with any history, nodes are listed alike in whatever order and however often they are given:
each of them once, and with increasing keys. -/
theorem after_lists_nodes_once :
    IsStrictTotalOrder Key Key.Before ∧
    (∀ a b : Key, (compare a b = .lt ↔ a.Before b) ∧ (compare a b = .gt ↔ b.Before a) ∧
      (compare a b = .eq ↔ a = b)) ∧
    ∀ (cs : List Change) (ns ms : List Nat), (∀ n ∈ ns, n < (after cs).keys.length) →
      (∀ n, n ∈ ns ↔ n ∈ ms) →
      ∃ is, (after cs).resolveAll ns = .ok is ∧ (after cs).resolveAll ms = .ok is ∧
        (is.map Instance.key).Pairwise Key.Before ∧
        ((is.map Instance.key).map some).Perm (ns.dedup.map ((after cs).keys[·]?)) := by
  refine ⟨inferInstance, fun a b ↦ ?_, fun cs ns ms hn hm ↦ ?_⟩
  · exact ⟨Key.compare_eq_lt_iff, Key.compare_eq_gt_iff, Std.LawfulEqCmp.compare_eq_iff_eq⟩
  · have h := represents_after cs
    obtain ⟨is, his, hkeys⟩ := h.exists_listed ns
    refine ⟨is, his, (resolveAll_eq_of_mem_iff hm).symm.trans his, ?_, ?_⟩
    · rw [hkeys]
      exact (OrdSet.sorted _).imp Key.compare_eq_lt_iff.1
    · rw [hkeys]
      exact h.holds.perm_keysAt hn

theorem after_lists_nodes_once_repeated :
    (∀ n ∈ [1, 0, 1], n < (after Sample.direct).keys.length) ∧
    (∀ n, n ∈ [1, 0, 1] ↔ n ∈ [0, 1]) ∧
    ∃ is, (after Sample.direct).resolveAll [1, 0, 1] = .ok is ∧
      (after Sample.direct).resolveAll [0, 1] = .ok is ∧
      (is.map Instance.key).Pairwise Key.Before ∧
      ((is.map Instance.key).map some).Perm
        ([1, 0, 1].dedup.map ((after Sample.direct).keys[·]?)) := by
  have hn : ∀ n ∈ [1, 0, 1], n < (after Sample.direct).keys.length := by
    decide +kernel
  have hm (n : Nat) : n ∈ [1, 0, 1] ↔ n ∈ [0, 1] := by
    simp only [List.mem_cons, List.not_mem_nil, or_false]
    omega
  exact ⟨hn, hm, after_lists_nodes_once.2.2 Sample.direct [1, 0, 1] [0, 1] hn hm⟩

end FunctorCalls.Store
