import FunctorCalls.Proofs.StoreAnswers

namespace FunctorCalls

open Relation

namespace CallGraph

variable {g g' : CallGraph} {points points' : List Name} {k : Key}

theorem ext (hn : g.nodes = g'.nodes) (he : g.edges = g'.edges) (ht : g.types = g'.types) :
    g = g' := by
  cases g
  cases g'
  simp_all

theorem path_trim_iff {a b : Key} (ha : a ∈ (g.trim points).nodes) :
    ReflTransGen (g.trim points).Links a b ↔ ReflTransGen g.Links a b := by
  rw [reflTransGen_iff_eq_or_transGen, reflTransGen_iff_eq_or_transGen]
  exact or_congr_right (reaches_trim_iff ha)

/-- The second trim starts at those of its entry points that the first one kept. -/
theorem mem_nodes_trim_trim_iff : k ∈ ((g.trim points).trim points').nodes ↔
    ∃ s ∈ g.entries points', s ∈ (g.trim points).nodes ∧ ReflTransGen g.Links s k := by
  rw [mem_nodes_trim_iff]
  constructor
  · intro ⟨s, hs, hp⟩
    obtain ⟨hn, hc⟩ := mem_entries_iff.1 hs
    exact ⟨s, mem_entries_iff.2 ⟨mem_nodes_of_mem_nodes_trim hn, hc⟩, hn, (path_trim_iff hn).1 hp⟩
  · intro ⟨s, hs, hn, hp⟩
    exact ⟨s, mem_entries_iff.2 ⟨hn, (mem_entries_iff.1 hs).2⟩, (path_trim_iff hn).2 hp⟩

theorem mem_nodes_trim_of_subset (h : ∀ n ∈ points', n ∈ points)
    (hk : k ∈ (g.trim points').nodes) : k ∈ (g.trim points).nodes := by
  obtain ⟨s, hs, hp⟩ := mem_nodes_trim_iff.1 hk
  obtain ⟨hn, hc⟩ := mem_entries_iff.1 hs
  exact mem_nodes_trim_iff.2 ⟨s, mem_entries_iff.2 ⟨hn, h _ hc⟩, hp⟩

theorem trim_trim (h : ∀ n ∈ points', n ∈ points) :
    (g.trim points).trim points' = g.trim points' := by
  have hn (k : Key) : k ∈ ((g.trim points).trim points').nodes ↔ k ∈ (g.trim points').nodes := by
    rw [mem_nodes_trim_trim_iff, mem_nodes_trim_iff]
    refine exists_congr fun s ↦ and_congr_right fun hs ↦ and_iff_right ?_
    exact mem_nodes_trim_of_subset h (entry_mem_nodes_trim hs)
  refine ext (OrdSet.ext hn) (OrdSet.ext fun ⟨a, b⟩ ↦ ?_) rfl
  have hl : ((g.trim points).trim points').Links a b ↔ (g.trim points').Links a b := by
    rw [links_trim_iff, links_trim_iff, links_trim_iff, hn]
    exact and_congr_right fun ha ↦ and_iff_right (mem_nodes_trim_of_subset h ha)
  exact hl

theorem mem_nodes_trim_append_iff : k ∈ (g.trim (points ++ points')).nodes ↔
    k ∈ (g.trim points).nodes ∨ k ∈ (g.trim points').nodes := by
  simp only [mem_nodes_trim_iff, mem_entries_iff, List.mem_append]
  rw [← exists_or]
  exact exists_congr fun s ↦ by rw [and_or_left, or_and_right]

theorem mem_edges_trim_append_iff {e : Edge} : e ∈ (g.trim (points ++ points')).edges ↔
    e ∈ (g.trim points).edges ∨ e ∈ (g.trim points').edges := by
  have hl (points : List Name) : e ∈ (g.trim points).edges ↔
      e.caller ∈ (g.trim points).nodes ∧ e ∈ g.edges := links_trim_iff
  rw [hl, hl, hl, mem_nodes_trim_append_iff, or_and_right]

end CallGraph

namespace Store

theorem trim_nil (s : Store) : s.trim [] = ofTypes s.types := by
  have he : s.entries [] = [] := by
    rw [entries, List.filter_eq_nil_iff]
    intro n _
    cases s.keys[n]? <;> simp
  simp [trim, he, search, CallGraph.sortOn, keysAt, edgesFrom, build]

/-- After a trim, one to some of its entry points comes to what the second trim makes of the whole
graph, whatever the numbers of the nodes are; in particular trimming twice is trimming once. A trim
to the entry points of two others keeps what either of them does, and one to none keeps only the
types. -/
theorem trims_compose (cs : List Change) (points points' : List Name) :
    let g := CallGraph.after cs
    let s := after cs
    ((∀ n ∈ points', n ∈ points) →
      (g.trim points).trim points' = g.trim points' ∧
      ((s.trim points).trim points').keys.Perm (s.trim points').keys ∧
      ((s.trim points).trim points').edges.Perm (s.trim points').edges ∧
      ((s.trim points).trim points').AnswersAs (s.trim points')) ∧
    (∀ k, k ∈ (s.trim (points ++ points')).keys ↔
      k ∈ (s.trim points).keys ∨ k ∈ (s.trim points').keys) ∧
    (∀ e, e ∈ (s.trim (points ++ points')).edges ↔
      e ∈ (s.trim points).edges ∨ e ∈ (s.trim points').edges) ∧
    s.trim [] = ofTypes s.types := by
  intro g s
  have h : s.Represents g := represents_after cs
  refine ⟨fun hp ↦ ?_, fun k ↦ ?_, fun e ↦ ?_, s.trim_nil⟩
  · have ht := (h.trim points).trim points'
    have hg : (g.trim points).trim points' = g.trim points' := CallGraph.trim_trim hp
    rw [hg] at ht
    have ht' := h.trim points'
    exact ⟨hg, ht.holds.keys.trans ht'.holds.keys.symm, ht.edges.trans ht'.edges.symm,
      ht.answersAs ht' rfl⟩
  · rw [(h.trim _).mem_keys_iff, (h.trim points).mem_keys_iff, (h.trim points').mem_keys_iff]
    exact CallGraph.mem_nodes_trim_append_iff
  · rw [(h.trim _).mem_edges_iff, (h.trim points).mem_edges_iff, (h.trim points').mem_edges_iff]
    exact CallGraph.mem_edges_trim_append_iff

end Store

end FunctorCalls
