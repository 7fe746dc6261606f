import FunctorCalls.Proofs.Answers
import Mathlib.Logic.Relation

namespace FunctorCalls

open Relation

section

variable {α : Type} [DecidableEq α] {next : α → List α}

theorem exists_path_of_mem_search {unseen stack : List α} {a : α}
    (h : a ∈ search next unseen stack) : ∃ s ∈ stack, ReflTransGen (fun b c ↦ c ∈ next b) s a := by
  fun_induction search next unseen stack with
  | case1 => simp at h
  | case2 unseen b stack hb ih =>
    rcases List.mem_cons.1 h with rfl | h
    · exact ⟨a, List.mem_cons_self, .refl⟩
    · obtain ⟨s, hs, hp⟩ := ih h
      rcases List.mem_append.1 hs with hs | hs
      · exact ⟨b, List.mem_cons_self, .head hs hp⟩
      · exact ⟨s, List.mem_cons_of_mem b hs, hp⟩
  | case3 unseen b stack hb ih =>
    obtain ⟨s, hs, hp⟩ := ih h
    exact ⟨s, List.mem_cons_of_mem b hs, hp⟩

theorem mem_search_of_mem_stack {unseen stack : List α} {a : α} (hs : a ∈ stack)
    (hu : a ∈ unseen) : a ∈ search next unseen stack := by
  fun_induction search next unseen stack with
  | case1 => simp at hs
  | case2 unseen b stack hb ih =>
    by_cases hab : a = b
    · exact hab ▸ List.mem_cons_self
    · have ha : a ∈ stack := (List.mem_cons.1 hs).resolve_left hab
      exact List.mem_cons_of_mem b
        (ih (List.mem_append_right _ ha) ((List.mem_erase_of_ne hab).2 hu))
  | case3 unseen b stack hb ih =>
    have hab : a ≠ b := fun hab ↦ hb (hab ▸ hu)
    exact ih ((List.mem_cons.1 hs).resolve_left hab) hu

/-- The invariant of the search: whatever is taken up has its unseen next elements taken up too,
now or later. -/
theorem mem_search_of_mem_next {unseen stack : List α} {a b : α}
    (ha : a ∈ search next unseen stack) (hab : b ∈ next a) (hb : b ∈ unseen) :
    b ∈ search next unseen stack := by
  fun_induction search next unseen stack with
  | case1 => simp at ha
  | case2 unseen c stack hc ih =>
    by_cases hbc : b = c
    · exact hbc ▸ List.mem_cons_self
    · have hb' : b ∈ unseen.erase c := (List.mem_erase_of_ne hbc).2 hb
      rcases List.mem_cons.1 ha with rfl | ha
      · exact List.mem_cons_of_mem a
          (mem_search_of_mem_stack (List.mem_append_left _ hab) hb')
      · exact List.mem_cons_of_mem c (ih ha hb')
  | case3 unseen c stack hc ih => exact ih ha hb

/-- In what order a search takes things up does not matter: with everything unseen at first, it
finds what the stack leads to. -/
theorem mem_search_iff {unseen stack : List α} {a : α} (hs : ∀ s ∈ stack, s ∈ unseen)
    (hn : ∀ b ∈ unseen, ∀ c ∈ next b, c ∈ unseen) :
    a ∈ search next unseen stack ↔ ∃ s ∈ stack, ReflTransGen (fun b c ↦ c ∈ next b) s a := by
  refine ⟨exists_path_of_mem_search, ?_⟩
  intro ⟨s, h, hp⟩
  induction hp with
  | refl => exact mem_search_of_mem_stack h (hs s h)
  | tail _ hbc ih => exact mem_search_of_mem_next ih hbc (hn _ (mem_of_mem_search ih) _ hbc)

end

namespace CallGraph

variable {g : CallGraph}

def Links (g : CallGraph) (a b : Key) : Prop := ⟨a, b⟩ ∈ g.edges

def Reaches (g : CallGraph) : Key → Key → Prop := TransGen g.Links

theorem Reaches.caller_mem {a b : Key} (h : g.Reaches a b) : a ∈ g.nodes := by
  obtain ⟨c, hac, -⟩ := TransGen.head'_iff.1 h
  exact (g.ends_mem _ hac).1

theorem Reaches.callee_mem {a b : Key} (h : g.Reaches a b) : b ∈ g.nodes := by
  obtain ⟨c, -, hcb⟩ := TransGen.tail'_iff.1 h
  exact (g.ends_mem _ hcb).2

theorem mem_search_nodes_iff {next : Key → List Key} (hn : ∀ a b, b ∈ next a ↔ g.Links a b)
    {stack : List Key} (hs : ∀ s ∈ stack, s ∈ g.nodes) {k : Key} :
    k ∈ search next g.nodes.toList stack ↔ ∃ s ∈ stack, ReflTransGen g.Links s k := by
  have he : (fun a b ↦ b ∈ next a) = g.Links := by
    funext a b
    exact propext (hn a b)
  rw [mem_search_iff hs, he]
  exact fun a _ b hb ↦ (g.ends_mem ⟨a, b⟩ ((hn a b).1 hb)).2

theorem mem_reached_iff {stack : List Key} (hs : ∀ s ∈ stack, s ∈ g.nodes) {k : Key} :
    k ∈ g.reached stack ↔ ∃ s ∈ stack, ReflTransGen g.Links s k :=
  mem_search_nodes_iff (fun _ _ ↦ mem_successors) hs

theorem mem_closure_iff {a b : Key} : b ∈ g.closure a ↔ g.Reaches a b := by
  have hs : ∀ s ∈ (g.successors a).toList, s ∈ g.nodes := by
    intro s hs
    exact (g.ends_mem _ (mem_successors.1 hs)).2
  rw [closure, OrdSet.mem_ofList, mem_reached_iff hs, Reaches, TransGen.head'_iff]
  exact exists_congr fun s ↦ and_congr_left fun _ ↦ mem_successors

theorem closure_eq_search {next : Key → List Key} (hn : ∀ a b, b ∈ next a ↔ g.Links a b)
    (a : Key) : .ofList (search next g.nodes.toList (next a)) = g.closure a := by
  have hs : ∀ s ∈ next a, s ∈ g.nodes := by
    intro s hs
    exact (g.ends_mem _ ((hn a s).1 hs)).2
  apply OrdSet.ext
  intro b
  rw [OrdSet.mem_ofList, mem_search_nodes_iff hn hs, mem_closure_iff, Reaches, TransGen.head'_iff]
  exact exists_congr fun s ↦ and_congr_left fun _ ↦ hn a s

theorem allDependencies_eq_ok (g : CallGraph) (i : Instance) :
    g.allDependencies i = .ok ((g.closure i.key).toList.map g.instanceOf) :=
  resolveAll_eq_ok fun _ hk ↦ (mem_closure_iff.1 hk).callee_mem

theorem map_key_allDependencies (g : CallGraph) (i : Instance) :
    ((g.closure i.key).toList.map g.instanceOf).map Instance.key = (g.closure i.key).toList :=
  map_key_instanceOf fun _ hk ↦ (mem_closure_iff.1 hk).callee_mem

def DependsOn (g : CallGraph) (i : Instance) (k : Key) : Prop :=
  ∃ is, g.allDependencies i = .ok is ∧ k ∈ is.map Instance.key

theorem dependsOn_iff {i : Instance} {k : Key} : g.DependsOn i k ↔ g.Reaches i.key k := by
  rw [← mem_closure_iff, ← OrdSet.mem_toList, ← g.map_key_allDependencies i]
  constructor
  · intro ⟨is, ha, hk⟩
    rw [allDependencies_eq_ok] at ha
    exact Except.ok.inj ha ▸ hk
  · exact fun hk ↦ ⟨_, g.allDependencies_eq_ok i, hk⟩

end CallGraph

end FunctorCalls
