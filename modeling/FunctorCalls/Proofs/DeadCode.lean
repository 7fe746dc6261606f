import FunctorCalls.Proofs.Rearranged

namespace FunctorCalls

open Change Relation

namespace CallGraph

variable {g g' : CallGraph} {points : List Name}

/-- A larger graph. Its new edges start neither at entry points nor at anything that these lead to
in the smaller one. -/
structure GrowsDead (g g' : CallGraph) (points : List Name) : Prop where
  nodes : ∀ k ∈ g.nodes, k ∈ g'.nodes
  links : ∀ a b, g.Links a b → g'.Links a b
  dead : ∀ a b, g'.Links a b → g.Links a b ∨ a.callable ∉ points ∧ a ∉ (g.trim points).nodes

namespace GrowsDead

theorem mem_entries (h : g.GrowsDead g' points) {k : Key} (hk : k ∈ g.entries points) :
    k ∈ g'.entries points := by
  obtain ⟨hn, hc⟩ := mem_entries_iff.1 hk
  exact mem_entries_iff.2 ⟨h.nodes k hn, hc⟩

/-- No new edge goes out from what is kept, and no edge at all from an entry point that was not
there before. -/
theorem links_of_kept (h : g.GrowsDead g' points) {a b : Key}
    (ha : a ∈ (g.trim points).nodes ∨ a.callable ∈ points ∧ a ∉ g.nodes) (hab : g'.Links a b) :
    a ∈ (g.trim points).nodes ∧ g.Links a b := by
  rcases ha with ha | ⟨hc, hn⟩
  · exact ⟨ha, (h.dead a b hab).resolve_right fun hd ↦ hd.2 ha⟩
  · rcases h.dead a b hab with hab | ⟨hc', -⟩
    · exact absurd (g.ends_mem _ hab).1 hn
    · exact absurd hc hc'

theorem kept_of_path (h : g.GrowsDead g' points) {s k : Key} (hs : s ∈ g'.entries points)
    (hp : ReflTransGen g'.Links s k) :
    k ∈ (g.trim points).nodes ∨ k.callable ∈ points ∧ k ∉ g.nodes := by
  induction hp with
  | refl =>
    obtain ⟨-, hc⟩ := mem_entries_iff.1 hs
    by_cases hn : s ∈ g.nodes
    · exact .inl (entry_mem_nodes_trim (mem_entries_iff.2 ⟨hn, hc⟩))
    · exact .inr ⟨hc, hn⟩
  | tail _ hab ih =>
    obtain ⟨ha, hab⟩ := h.links_of_kept ih hab
    exact .inl (callee_mem_nodes_trim ha hab)

theorem mem_nodes_trim_iff (h : g.GrowsDead g' points) {k : Key} : k ∈ (g'.trim points).nodes ↔
    k ∈ (g.trim points).nodes ∨ k ∈ g'.nodes ∧ k.callable ∈ points ∧ k ∉ g.nodes := by
  constructor
  · intro hk
    obtain ⟨s, hs, hp⟩ := CallGraph.mem_nodes_trim_iff.1 hk
    exact (h.kept_of_path hs hp).imp_right fun hk' ↦ ⟨mem_nodes_of_mem_nodes_trim hk, hk'⟩
  · rintro (hk | ⟨hk, hc, -⟩)
    · obtain ⟨s, hs, hp⟩ := CallGraph.mem_nodes_trim_iff.1 hk
      exact CallGraph.mem_nodes_trim_iff.2 ⟨s, h.mem_entries hs, ReflTransGen.mono h.links _ _ hp⟩
    · exact entry_mem_nodes_trim (mem_entries_iff.2 ⟨hk, hc⟩)

theorem links_trim_iff (h : g.GrowsDead g' points) {a b : Key} :
    (g'.trim points).Links a b ↔ (g.trim points).Links a b := by
  rw [CallGraph.links_trim_iff, CallGraph.links_trim_iff, h.mem_nodes_trim_iff]
  constructor
  · intro ⟨ha, hab⟩
    exact h.links_of_kept (ha.imp_right And.right) hab
  · intro ⟨ha, hab⟩
    exact ⟨.inl ha, h.links a b hab⟩

theorem edges_trim (h : g.GrowsDead g' points) : (g'.trim points).edges = (g.trim points).edges :=
  OrdSet.ext fun _ ↦ h.links_trim_iff

theorem sameLinks_trim (h : g.GrowsDead g' points)
    (hi : ∀ k ∈ g.nodes, g'.instanceOf k = g.instanceOf k) :
    (g'.trim points).SameLinks (g.trim points) where
  edges := h.edges_trim
  caller _ _ hab := by
    obtain ⟨-, hab⟩ := CallGraph.links_trim_iff.1 (h.links_trim_iff.1 hab)
    exact hi _ (g.ends_mem _ hab).1
  callee _ _ hab := by
    obtain ⟨-, hab⟩ := CallGraph.links_trim_iff.1 (h.links_trim_iff.1 hab)
    exact hi _ (g.ends_mem _ hab).2

end GrowsDead

end CallGraph

namespace Program

variable {p q : Program} {D : List Specialization} {o : Options}

theorem growsDead (hq : ∀ s, s ∈ q.specializations ↔ s ∈ p.specializations ∨ s ∈ D)
    (hD : ∀ d ∈ D, d.parent ∉ o.entryPoints ∧
      Identity.key d ∉ (p.callGraph.trim o.entryPoints).nodes) :
    p.callGraph.GrowsDead q.callGraph o.entryPoints := by
  have hlinks : ∀ a b, p.callGraph.Links a b → q.callGraph.Links a b := by
    intro a b hab
    obtain ⟨s, hs, hr⟩ := mem_edges_callGraph_iff.1 hab
    exact mem_edges_callGraph_iff.2 ⟨s, (hq s).2 (.inl hs), hr⟩
  refine ⟨?_, hlinks, ?_⟩
  · intro k hk
    obtain ⟨e, he, hk⟩ := mem_nodes_callGraph_iff.1 hk
    exact mem_nodes_callGraph_iff.2 ⟨e, hlinks _ _ he, hk⟩
  · intro a b hab
    obtain ⟨s, hs, r, hr, he⟩ := mem_edges_callGraph_iff.1 hab
    rcases (hq s).1 hs with hs | hs
    · exact .inl (mem_edges_callGraph_iff.2 ⟨s, hs, r, hr, he⟩)
    · have ha : a = Identity.key s := by
        rw [(Edge.mk.inj he).1, CallGraph.caller_of_mem_bodyReferences hr]
        rfl
      exact .inr (ha ▸ hD s hs)

theorem instanceOf_callGraph_eq (hq : ∀ s ∈ p.specializations, s ∈ q.specializations)
    (hs : Separate [visitProgram q]) {k : Key} (hk : k ∈ p.callGraph.nodes)
    (hk' : k ∈ q.callGraph.nodes) : q.callGraph.instanceOf k = p.callGraph.instanceOf k := by
  have hr : ∀ r ∈ [visitProgram p].flatMap recorded, r ∈ [visitProgram q].flatMap recorded := by
    intro r hr
    rw [List.flatMap_singleton] at hr ⊢
    obtain ⟨s, hs, hr⟩ := List.mem_flatMap.1 hr
    exact List.mem_flatMap.2 ⟨s, hq s hs, hr⟩
  have he : (CallGraph.after [visitProgram p]).instanceOf k =
      (CallGraph.after [visitProgram q]).instanceOf k :=
    CallGraph.instanceOf_eq hs (CallGraph.instances_subset hr) hk' hk
  exact he.symm

/-- Specializations that are no entry points, and that the entry points do not lead to, may be added
anywhere. They can call what they like, one another included, and may bring entry points into the
graph that were not there before, but these have no edges. -/
theorem dead_code_leaves_links (ho : o.entryPoints ≠ [])
    (hq : ∀ s, s ∈ q.specializations ↔ s ∈ p.specializations ∨ s ∈ D)
    (hD : ∀ d ∈ D, d.parent ∉ o.entryPoints ∧ Identity.key d ∉ (p.callGraphWith o).nodes) :
    (q.callGraphWith o).edges = (p.callGraphWith o).edges ∧
    (∀ k ∈ (p.callGraphWith o).nodes, k ∈ (q.callGraphWith o).nodes) ∧
    (∀ k ∈ (q.callGraphWith o).nodes, k ∉ (p.callGraphWith o).nodes → k.callable ∈ o.entryPoints ∧
      ∀ e ∈ (q.callGraphWith o).edges, e.caller ≠ k ∧ e.callee ≠ k) ∧
    (Separate [visitProgram q] →
      (q.callGraphWith o).answers.SameLinks (p.callGraphWith o).answers ∧
      ∀ components components', (q.store.trim o.entryPoints).IsComponents components →
        (p.store.trim o.entryPoints).IsComponents components' →
        ((q.store.trim o.entryPoints).answers components).SameLinks
          ((p.store.trim o.entryPoints).answers components')) := by
  have hg (p : Program) : p.callGraphWith o = p.callGraph.trim o.entryPoints := if_neg ho
  rw [hg] at hD ⊢
  rw [hg]
  have h := growsDead hq hD
  refine ⟨h.edges_trim, fun k hk ↦ h.mem_nodes_trim_iff.2 (.inl hk), fun k hk hn ↦ ?_, fun hs ↦ ?_⟩
  · obtain ⟨-, hc, hn'⟩ := (h.mem_nodes_trim_iff.1 hk).resolve_left hn
    refine ⟨hc, fun e he ↦ ?_⟩
    obtain ⟨hr, he⟩ := (p.callGraph.trim o.entryPoints).ends_mem e (h.edges_trim ▸ he)
    exact ⟨fun hk ↦ hn (hk ▸ hr), fun hk ↦ hn (hk ▸ he)⟩
  · have hsub : ∀ s ∈ p.specializations, s ∈ q.specializations := fun s hs ↦ (hq s).2 (.inl hs)
    have hl := (h.sameLinks_trim fun k hk ↦
      instanceOf_callGraph_eq hsub hs hk (h.nodes k hk)).answers
    refine ⟨hl, fun c c' hc hc' ↦ ?_⟩
    have hp : p.store.Represents p.callGraph := Store.represents_after [visitProgram p]
    have hq : q.store.Represents q.callGraph := Store.represents_after [visitProgram q]
    rw [(hq.trim o.entryPoints).answers_eq hc, (hp.trim o.entryPoints).answers_eq hc']
    exact hl

namespace Sample

def callOf (space base : String) : Stmt :=
  .expr (.call (.callable ⟨space, base⟩ (.base .unit)) .unit (.base .unit))

def live : Specialization := main ⟨[.expr (applyTo (.base .int))]⟩

/-- Calls itself, code that is in use, the same generic operation at another type, and an entry
point that nothing else calls. -/
def dead : Specialization :=
  .ofBody ⟨⟨"Old", "Main"⟩, .body, none⟩
    ⟨[callOf "Old" "Main", callOf "App" "Main", .expr (applyTo (.base .bool)), callOf "App" "Tool"]⟩

def old : Namespace :=
  ⟨"Old", ⟨[("Main", ⟨⟨"Old", "Main"⟩, .operation, .base .unit, [dead]⟩)], by simp⟩⟩

def clean : Program := ⟨⟨[("App", app [live])], by simp⟩⟩

def grown : Program := ⟨⟨[("Old", old), ("App", app [live])], by decide⟩⟩

def entered : Options := ⟨[⟨"App", "Main"⟩, ⟨"App", "Tool"⟩]⟩

theorem mem_specializations_grown (s : Specialization) :
    s ∈ grown.specializations ↔ s ∈ clean.specializations ∨ s ∈ [dead] := by
  have hg : grown.specializations = [dead, live] := rfl
  have hc : clean.specializations = [live] := rfl
  simp [hg, hc, or_comm]

def tool : Key := Instance.key ⟨⟨"App", "Tool"⟩, .body, none⟩

theorem tool_mem_nodes_grown : tool ∈ (grown.callGraphWith entered).nodes := by
  have hn : tool ∈ grown.callGraph.nodes := by decide +kernel
  exact CallGraph.entry_mem_nodes_trim (CallGraph.mem_entries_iff.2 ⟨hn, by decide⟩)

theorem not_mem_nodes_clean {k : Key} (hk : k ∉ clean.callGraph.nodes) :
    k ∉ (clean.callGraphWith entered).nodes :=
  fun h ↦ hk (CallGraph.mem_nodes_of_mem_nodes_trim h)

end Sample

theorem dead_code_leaves_links_grown :
    (∀ d ∈ [Sample.dead], d.parent ∉ Sample.entered.entryPoints ∧
      Identity.key d ∉ (Sample.clean.callGraphWith Sample.entered).nodes) ∧
    Separate [visitProgram Sample.grown] ∧
    (Sample.grown.callGraphWith Sample.entered).edges =
      (Sample.clean.callGraphWith Sample.entered).edges ∧
    (Sample.grown.callGraphWith Sample.entered).answers.SameLinks
      (Sample.clean.callGraphWith Sample.entered).answers ∧
    Sample.tool ∈ (Sample.grown.callGraphWith Sample.entered).nodes ∧
    Sample.tool ∉ (Sample.clean.callGraphWith Sample.entered).nodes := by
  have hD : ∀ d ∈ [Sample.dead], d.parent ∉ Sample.entered.entryPoints ∧
      Identity.key d ∉ (Sample.clean.callGraphWith Sample.entered).nodes := by
    intro d hd
    obtain rfl := List.mem_singleton.1 hd
    exact ⟨by decide, Sample.not_mem_nodes_clean (by decide +kernel)⟩
  have hs : Separate [visitProgram Sample.grown] := by
    unfold Separate
    decide +kernel
  obtain ⟨he, -, -, hl⟩ :=
    dead_code_leaves_links (by decide) Sample.mem_specializations_grown hD
  exact ⟨hD, hs, he, (hl hs).1, Sample.tool_mem_nodes_grown,
    Sample.not_mem_nodes_clean (by decide +kernel)⟩

end Program

end FunctorCalls
