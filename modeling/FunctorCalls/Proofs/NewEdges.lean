import FunctorCalls.Proofs.Growth
import FunctorCalls.Proofs.Sketch
import FunctorCalls.Proofs.StoreAnswers

namespace FunctorCalls

open Relation

theorem transGen_or_pair_iff {α : Type} {r : α → α → Prop} {a b x y : α} :
    TransGen (fun c d ↦ c = a ∧ d = b ∨ r c d) x y ↔
      TransGen r x y ∨ ReflTransGen r x a ∧ ReflTransGen r b y := by
  have hr : r ≤ fun c d ↦ c = a ∧ d = b ∨ r c d := fun _ _ ↦ .inr
  constructor
  · intro h
    induction h with
    | single h =>
      rcases h with ⟨rfl, rfl⟩ | h
      · exact .inr ⟨.refl, .refl⟩
      · exact .inl (.single h)
    | tail _ h ih =>
      rcases h with ⟨rfl, rfl⟩ | h
      -- Whichever way the path came to the caller, an old path from the start comes there.
      · exact .inr ⟨ih.elim TransGen.to_reflTransGen And.left, .refl⟩
      · exact ih.imp (·.tail h) fun ⟨hxa, hby⟩ ↦ ⟨hxa, hby.tail h⟩
  · rintro (h | ⟨hxa, hby⟩)
    · exact TransGen.mono hr _ _ h
    · have hxb : TransGen (fun c d ↦ c = a ∧ d = b ∨ r c d) x b :=
        .tail' (ReflTransGen.mono hr _ _ hxa) (.inl ⟨rfl, rfl⟩)
      exact hxb.trans_left (ReflTransGen.mono hr _ _ hby)

namespace CallGraph

variable {g : CallGraph} {caller callee : Instance} {k m : Key}

theorem links_record_iff : (g.record caller callee).Links k m ↔
    k = caller.key ∧ m = callee.key ∨ g.Links k m := by
  rw [Links, mem_edges_record, Edge.mk.injEq]
  rfl

theorem reaches_record_iff : (g.record caller callee).Reaches k m ↔
    g.Reaches k m ∨ ReflTransGen g.Links k caller.key ∧ ReflTransGen g.Links callee.key m := by
  have hl : (g.record caller callee).Links =
      fun k m ↦ k = caller.key ∧ m = callee.key ∨ g.Links k m := by
    funext k m
    exact propext links_record_iff
  rw [Reaches, hl]
  exact transGen_or_pair_iff

theorem reflTransGen_links_iff :
    ReflTransGen g.Links k m ↔ m = k ∨ m ∈ g.closure k := by
  rw [mem_closure_iff]
  exact reflTransGen_iff_eq_or_transGen

/-- The callee joins with all that it leads to, wherever the caller was or was led to. -/
theorem mem_closure_record_iff : m ∈ (g.record caller callee).closure k ↔ m ∈ g.closure k ∨
    (caller.key = k ∨ caller.key ∈ g.closure k) ∧ (m = callee.key ∨ m ∈ g.closure callee.key) := by
  rw [mem_closure_iff, reaches_record_iff, reflTransGen_links_iff, reflTransGen_links_iff,
    ← mem_closure_iff]

/-- The instances stay the same as well, even if the edge enters new types with digests of old
ones. -/
theorem allDependencies_record_of_not_reached {i : Instance}
    (h : ¬ (caller.key = i.key ∨ caller.key ∈ g.closure i.key)) :
    (g.record caller callee).allDependencies i = g.allDependencies i := by
  have hc : (g.record caller callee).closure i.key = g.closure i.key := by
    apply OrdSet.ext
    intro m
    rw [mem_closure_record_iff]
    exact or_iff_left fun hm ↦ h hm.1
  have hi : (g.closure i.key).toList.map (g.recordAll caller [callee]).instanceOf =
      (g.closure i.key).toList.map g.instanceOf :=
    map_instanceOf_recordAll fun k hk ↦ (mem_closure_iff.1 hk).callee_mem
  rw [allDependencies_eq_ok, allDependencies_eq_ok, hc]
  exact congrArg Except.ok hi

theorem lists_allDependencies_record {i : Instance}
    (h : caller.key = i.key ∨ caller.key ∈ g.closure i.key) :
    Lists ((g.record caller callee).allDependencies i) fun k ↦
      k ∈ g.closure i.key ∨ k = callee.key ∨ k ∈ g.closure callee.key := by
  refine lists_resolveAll (fun k hk ↦ (mem_closure_iff.1 hk).callee_mem) fun k ↦ ?_
  rw [mem_closure_record_iff]
  exact or_congr_right (and_iff_right h)

end CallGraph

namespace Store

theorem Represents.exists_allDependencies_eq_ok {s : Store} {g : CallGraph} (h : s.Represents g)
    {α : Type} [Identity α] (x : α) : ∃ is, s.allDependencies x = .ok is ∧
      is.map Instance.key = (g.closure (Identity.key x)).toList :=
  ⟨_, (h.allDependencies_eq x).trans (g.allDependencies_eq_ok _), g.map_key_allDependencies _⟩

/-- A new edge leaves alone what does not come to its caller. Whatever is the caller, or depends on
it, now depends on what it did, on the callee, and on what the callee did, and on nothing else: this
is so for a loop, for an edge that closes a circle or was there before, and for ends that are new. A
graph with the same history has the same dependencies. -/
theorem add_extends_dependencies (cs : List Change) {α β : Type} [Identity α] [Identity β]
    (caller : α) (callee : Instance) (x : β) :
    let s := after cs
    let s' := (s.add caller callee.variant callee.callable callee.typeArgs).1
    let g' := ((CallGraph.after cs).add (Identity.toInstance caller) callee).1
    ∃ is js, s.allDependencies x = .ok is ∧ s.allDependencies callee = .ok js ∧
      (Identity.key x ≠ Identity.key caller → Identity.key caller ∉ is.map Instance.key →
        s'.allDependencies x = .ok is) ∧
      (Identity.key x = Identity.key caller ∨ Identity.key caller ∈ is.map Instance.key →
        Lists (s'.allDependencies x) fun k ↦
          k ∈ is.map Instance.key ∨ k = callee.key ∨ k ∈ js.map Instance.key) ∧
      s' = (s.addBetween (Identity.toInstance caller) callee).1 ∧
      s'.allDependencies x = g'.allDependencies (Identity.toInstance x) := by
  intro s s' g'
  have h : s.Represents (CallGraph.after cs) := represents_after cs
  have h' : s'.Represents g' := (h.addBetween (Identity.toInstance caller) callee).1
  have hx := h'.allDependencies_eq x
  obtain ⟨is, his, hk⟩ := h.exists_allDependencies_eq_ok x
  obtain ⟨js, hjs, hk'⟩ := h.exists_allDependencies_eq_ok callee
  refine ⟨is, js, his, hjs, ?_, ?_, rfl, hx⟩
  · rw [hk, hx, ← his, h.allDependencies_eq x]
    intro hne hn
    exact CallGraph.allDependencies_record_of_not_reached (not_or.2 ⟨hne.symm, hn⟩)
  · rw [hk, hk', hx]
    intro hr
    exact CallGraph.lists_allDependencies_record (hr.imp_left Eq.symm)

end Store

end FunctorCalls
