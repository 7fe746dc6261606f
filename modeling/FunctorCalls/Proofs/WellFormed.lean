import FunctorCalls.Program.Declarations
import FunctorCalls.Proofs.Agreement
import FunctorCalls.Proofs.Identity

namespace FunctorCalls

open Change

/-- The specializations are those of this callable, and no two of them are of one instance. -/
structure Callable.WellFormed (c : Callable) : Prop where
  parent : ∀ s ∈ c.specializations, s.parent = c.name
  distinct : c.specializations.Pairwise fun s t ↦ s.id ≠ t.id

theorem Callable.WellFormed.append {c : Callable} (h : c.WellFormed) {s : Specialization}
    (hp : s.parent = c.name)
    (hs : ∀ t ∈ c.specializations, ¬ (t.variant = s.variant ∧ t.typeArgs = s.typeArgs)) :
    { c with specializations := c.specializations ++ [s] : Callable }.WellFormed where
  parent t ht := by
    rcases List.mem_append.1 ht with ht | ht
    · exact h.parent t ht
    · exact List.mem_singleton.1 ht ▸ hp
  distinct := by
    refine List.pairwise_append.2 ⟨h.distinct, List.pairwise_singleton _ s, fun t ht u hu he ↦ ?_⟩
    obtain rfl := List.mem_singleton.1 hu
    simp only [Specialization.id, Instance.mk.injEq] at he
    exact hs t ht he.2

structure Namespace.WellFormed (key : String) (space : Namespace) : Prop where
  name : space.name = key
  callables : ∀ e ∈ space.callables.entries, e.2.name = ⟨key, e.1⟩ ∧ e.2.WellFormed

def DigestsApart (ts : List Ty) : Prop := ∀ t ∈ ts, ∀ u ∈ ts, t.digest = u.digest → t = u

theorem DigestsApart.hashesApart {ss : List Specialization}
    (h : DigestsApart (ss.flatMap Identity.types)) {s t : Specialization} (hs : s ∈ ss)
    (ht : t ∈ ss) : HashesApart (Identity.types s) (Identity.types t) := by
  intro a ha b hb hab
  have hd : a.digest = b.digest := by
    rw [Ty.digest, Digest.mk.injEq, hab]
    rfl
  have hts : a = b := h a (List.mem_flatMap.2 ⟨s, hs, ha⟩) b (List.mem_flatMap.2 ⟨t, ht, hb⟩) hd
  rw [hts]

theorem eq_of_key_eq {ss : List Specialization}
    (h : ss.Pairwise fun s t ↦ Identity.key s ≠ Identity.key t) {s t : Specialization}
    (hs : s ∈ ss) (ht : t ∈ ss) (hk : Identity.key s = Identity.key t) : s = t :=
  List.inj_on_of_nodup_map (List.pairwise_map.2 h) hs ht hk

namespace Program

variable {p q : Program}

def WellFormed (p : Program) : Prop := ∀ e ∈ p.namespaces.entries, e.2.WellFormed e.1

theorem callable?_eq_some_iff {name : Name} {c : Callable} : p.callable? name = some c ↔
    ∃ space, (name.space, space) ∈ p.namespaces.entries ∧
      (name.base, c) ∈ space.callables.entries := by
  rw [callable?, Option.bind_eq_some_iff]
  exact exists_congr fun space ↦
    and_congr OrderedMap.find?_eq_some_iff OrderedMap.find?_eq_some_iff

theorem mem_callables_iff {c : Callable} : c ∈ p.callables ↔
    ∃ e ∈ p.namespaces.entries, ∃ f ∈ e.2.callables.entries, f.2 = c := by
  simp only [callables, OrderedMap.values, List.mem_flatMap, List.mem_map,
    exists_exists_and_eq_and]

theorem addCallable_eq_ok {c : Callable} (h : p.addCallable c = .ok q) : ∃ space : Namespace,
    ((c.name.space, space) ∈ p.namespaces.entries ∨ space = ⟨c.name.space, .empty⟩) ∧
    q = ⟨p.namespaces.insert c.name.space
      { space with callables := space.callables.insert c.name.base c }⟩ := by
  rw [addCallable] at h
  split at h
  · cases h
  · refine ⟨(p.namespaces.find? c.name.space).getD ⟨c.name.space, .empty⟩, ?_, ?_⟩
    · cases hs : p.namespaces.find? c.name.space with
      | none => exact .inr rfl
      | some space => exact .inl (OrderedMap.find?_eq_some_iff.1 hs)
    · exact (Except.ok.inj h).symm

theorem addSpecialization_eq_ok {s : Specialization} (h : p.addSpecialization s = .ok q) :
    ∃ c, p.callable? s.parent = some c ∧
      (∀ t ∈ c.specializations, ¬ (t.variant = s.variant ∧ t.typeArgs = s.typeArgs)) ∧
      q = p.modifyCallable s.parent
        fun c ↦ { c with specializations := c.specializations ++ [s] } := by
  rw [addSpecialization] at h
  split at h
  · cases h
  · next c hc =>
    split at h
    · cases h
    · next ha =>
      refine ⟨c, hc, fun t ht hst ↦ ha ?_, (Except.ok.inj h).symm⟩
      exact List.any_eq_true.2 ⟨t, ht, decide_eq_true hst⟩

theorem WellFormed.addCallable (h : p.WellFormed) {c : Callable} (hc : c.specializations = [])
    (ha : p.addCallable c = .ok q) : q.WellFormed := by
  obtain ⟨space, hs, rfl⟩ := addCallable_eq_ok ha
  have hspace : space.WellFormed c.name.space := by
    rcases hs with hs | rfl
    · exact h _ hs
    · exact ⟨rfl, List.forall_mem_nil _⟩
  have hnew : c.WellFormed := ⟨by simp [hc], by simp [hc]⟩
  intro e he
  rcases OrderedMap.mem_entries_insert.1 he with rfl | ⟨he, -⟩
  · refine ⟨hspace.name, fun f hf ↦ ?_⟩
    rcases OrderedMap.mem_entries_insert.1 hf with rfl | ⟨hf, -⟩
    · exact ⟨rfl, hnew⟩
    · exact hspace.callables f hf
  · exact h e he

theorem WellFormed.addSpecialization (h : p.WellFormed) {s : Specialization}
    (ha : p.addSpecialization s = .ok q) : q.WellFormed := by
  obtain ⟨c, hc, hnew, rfl⟩ := addSpecialization_eq_ok ha
  obtain ⟨space, hspace, hc⟩ := callable?_eq_some_iff.1 hc
  rintro ⟨key, space'⟩ he
  obtain ⟨space₀, he, hs⟩ := OrderedMap.mem_entries_modify.1 he
  have hw : space₀.WellFormed key := h _ he
  by_cases hk : key = s.parent.space
  · subst hk
    obtain rfl := OrderedMap.value_unique hspace he
    rw [if_pos rfl] at hs
    subst hs
    refine ⟨hw.name, ?_⟩
    rintro ⟨base, c'⟩ hf
    obtain ⟨c₀, hf, hs⟩ := OrderedMap.mem_entries_modify.1 hf
    obtain ⟨hn, hc₀⟩ := hw.callables _ hf
    by_cases hb : base = s.parent.base
    -- This callable is the one that was found before, so that what was checked of it counts.
    · subst hb
      obtain rfl := OrderedMap.value_unique hc hf
      rw [if_pos rfl] at hs
      subst hs
      exact ⟨hn, hc₀.append hn.symm hnew⟩
    · rw [if_neg hb] at hs
      exact hs ▸ ⟨hn, hc₀⟩
  · rw [if_neg hk] at hs
    exact hs ▸ hw

theorem WellFormed.apply (h : p.WellFormed) {d : Declaration}
    (hd : ∀ c, d = .callable c → c.specializations = []) : (p.apply d).WellFormed := by
  rw [Program.apply]
  split
  · next q hq =>
    cases d with
    | callable c => exact h.addCallable (hd c rfl) hq
    | specialization s => exact h.addSpecialization hq
  · exact h

theorem wellFormed_after {ds : List Declaration}
    (h : ∀ c, .callable c ∈ ds → c.specializations = []) : (after ds).WellFormed := by
  have hrun (p : Program) (hp : p.WellFormed) : (ds.foldl Program.apply p).WellFormed := by
    induction ds generalizing p with
    | nil => exact hp
    | cons d ds ih =>
      refine ih (fun c hc ↦ h c (List.mem_cons_of_mem d hc)) _ (hp.apply fun c hc ↦ h c ?_)
      exact hc ▸ List.mem_cons_self
  exact hrun empty (List.forall_mem_nil _)

theorem mem_recorded_of_mem_body {s : Specialization} (hs : s ∈ p.specializations)
    {argument : Pattern} {body : Scope} (hb : s.implementation = .provided argument body)
    {r : Instance × Instance} (hr : r ∈ [walk s.id (.scope body)].flatMap recorded) :
    r ∈ [visitProgram p].flatMap recorded := by
  rw [List.flatMap_singleton] at hr ⊢
  obtain ⟨i, hi, rfl⟩ := List.mem_map.1 hr
  refine List.mem_flatMap.2 ⟨s, hs, CallGraph.mem_bodyReferences_iff.2 ?_⟩
  exact ⟨argument, body, hb, rfl, hi⟩

namespace WellFormed

theorem name_eq (h : p.WellFormed) {name : Name} {c : Callable} (hc : p.callable? name = some c) :
    c.name = name := by
  obtain ⟨space, hspace, hc⟩ := callable?_eq_some_iff.1 hc
  exact ((h _ hspace).callables _ hc).1

theorem callable (h : p.WellFormed) {c : Callable} (hc : c ∈ p.callables) : c.WellFormed := by
  obtain ⟨e, he, f, hf, rfl⟩ := mem_callables_iff.1 hc
  exact ((h e he).callables f hf).2

theorem pairwise_name (h : p.WellFormed) : p.callables.Pairwise fun c d ↦ c.name ≠ d.name := by
  rw [callables, List.pairwise_flatMap, OrderedMap.values, List.forall_mem_map, List.pairwise_map]
  constructor
  · intro e he
    rw [OrderedMap.values, List.pairwise_map]
    refine (List.pairwise_map.1 e.2.callables.nodup).imp_of_mem fun {f g} hf hg hfg hn ↦ hfg ?_
    rw [((h e he).callables f hf).1, ((h e he).callables g hg).1] at hn
    exact congrArg Name.base hn
  · refine (List.pairwise_map.1 p.namespaces.nodup).imp_of_mem fun {d e} hd he hde ↦ ?_
    rintro _ hb _ hc hn
    obtain ⟨f, hf, rfl⟩ := List.mem_map.1 hb
    obtain ⟨g, hg, rfl⟩ := List.mem_map.1 hc
    rw [((h d hd).callables f hf).1, ((h e he).callables g hg).1] at hn
    exact hde (congrArg Name.space hn)

theorem pairwise_id (h : p.WellFormed) : p.specializations.Pairwise fun s t ↦ s.id ≠ t.id := by
  rw [specializations, List.pairwise_flatMap]
  refine ⟨fun c hc ↦ (h.callable hc).distinct, ?_⟩
  refine h.pairwise_name.imp_of_mem fun {c d} hc hd hcd s hs t ht hst ↦ hcd ?_
  rw [← (h.callable hc).parent s hs, ← (h.callable hd).parent t ht]
  exact congrArg Instance.callable hst

theorem pairwise_key (h : p.WellFormed)
    (hd : DigestsApart (p.specializations.flatMap Identity.types)) :
    p.specializations.Pairwise fun s t ↦ Identity.key s ≠ Identity.key t := by
  refine h.pairwise_id.imp_of_mem fun {s t} hs ht hst hk ↦ hst ?_
  exact Instance.eq_of_key_eq (hd.hashesApart hs ht) hk

section

variable (h : p.WellFormed) (hd : DigestsApart (p.specializations.flatMap Identity.types))
  {s : Specialization} (hs : s ∈ p.specializations)
include h hd hs

theorem mem_successors_callGraph {k : Key} : k ∈ p.callGraph.successors s.id.key ↔
    ∃ argument body, s.implementation = .provided argument body ∧
      k ∈ (CallGraph.empty.walk s.id (.scope body)).successors s.id.key := by
  have hp := @Builder.mem_edges_after_iff [.program p] ⟨s.id.key, k⟩
  have hvisited : Visit.visited [.program p] = p.specializations := List.flatMap_singleton _ _
  rw [hvisited] at hp
  simp only [CallGraph.mem_successors]
  refine hp.trans ⟨?_, ?_⟩
  · rintro ⟨t, ht, argument, body, hb, hk, he⟩
    obtain rfl : s = t := eq_of_key_eq (h.pairwise_key hd) hs ht hk
    exact ⟨argument, body, hb, he⟩
  · rintro ⟨argument, body, hb, he⟩
    exact ⟨s, hs, argument, body, hb, rfl, he⟩

theorem successors_callGraph {argument : Pattern} {body : Scope}
    (hb : s.implementation = .provided argument body) : p.callGraph.successors s.id.key =
      (CallGraph.empty.walk s.id (.scope body)).successors s.id.key := by
  apply OrdSet.ext
  intro k
  rw [h.mem_successors_callGraph hd hs, hb]
  constructor
  · rintro ⟨_, _, he, hk⟩
    obtain ⟨-, rfl⟩ := Implementation.provided.inj he
    exact hk
  · intro hk
    exact ⟨argument, body, rfl, hk⟩

theorem directDependencies_callGraph {argument : Pattern} {body : Scope}
    (hb : s.implementation = .provided argument body) : ∃ is js,
      p.callGraph.directDependencies s.id = .ok is ∧
      (CallGraph.empty.walk s.id (.scope body)).directDependencies s.id = .ok js ∧
      is.map Instance.key = js.map Instance.key ∧ (Separate [.visitProgram p] → is = js) := by
  have hk := h.successors_callGraph hd hs hb
  refine ⟨_, _, CallGraph.directDependencies_eq_ok _ _,
    CallGraph.directDependencies_eq_ok _ _, ?_, ?_⟩
  · rw [CallGraph.map_key_successors, CallGraph.map_key_successors, hk]
  · intro hsep
    rw [← hk]
    refine List.map_congr_left fun k hm ↦ ?_
    have hi := CallGraph.instances_subset fun _ hr ↦ mem_recorded_of_mem_body hs hb hr
    have hn := (p.callGraph.ends_mem _ (CallGraph.mem_successors.1 hm)).2
    rw [hk] at hm
    have hn' := (CallGraph.ends_mem _ _ (CallGraph.mem_successors.1 hm)).2
    exact (CallGraph.instanceOf_eq hsep hi hn hn').symm

theorem directDependencies_callGraph_of_no_body
    (hb : ∀ argument body, s.implementation ≠ .provided argument body) :
    p.callGraph.directDependencies s.id = .ok [] := by
  have hk : p.callGraph.successors s.id.key = .empty := by
    apply OrdSet.ext
    intro k
    rw [h.mem_successors_callGraph hd hs]
    refine iff_of_false ?_ OrdSet.not_mem_empty
    rintro ⟨argument, body, he, -⟩
    exact hb argument body he
  rw [CallGraph.directDependencies_eq_ok, hk]
  rfl

end

end WellFormed

/-- Whatever is declared, in any order and with failures in between, is stored under its own name,
and no two specializations are of one instance. If no two of their types have one digest, they have
different keys, and in the graph each refers directly to what its own body does by itself, and to
nothing if it has none. -/
theorem after_keeps_bodies_apart (ds : List Declaration)
    (h : ∀ c, .callable c ∈ ds → c.specializations = []) :
    (∀ e ∈ (after ds).namespaces.entries, e.2.name = e.1 ∧
      ∀ f ∈ e.2.callables.entries, f.2.name = ⟨e.1, f.1⟩) ∧
    (∀ name c, (after ds).callable? name = some c → c.name = name) ∧
    ((after ds).callables.Pairwise fun c d ↦ c.name ≠ d.name) ∧
    (∀ c ∈ (after ds).callables, ∀ s ∈ c.specializations, s.parent = c.name) ∧
    ((after ds).specializations.Pairwise fun s t ↦
      ¬ (s.parent = t.parent ∧ s.variant = t.variant ∧ s.typeArgs = t.typeArgs)) ∧
    (DigestsApart ((after ds).specializations.flatMap Identity.types) →
      ((after ds).specializations.Pairwise fun s t ↦ Identity.key s ≠ Identity.key t) ∧
      (∀ s ∈ (after ds).specializations, ∀ argument body,
        s.implementation = .provided argument body → ∃ is js,
          (after ds).callGraph.directDependencies s.id = .ok is ∧
          (CallGraph.empty.walk s.id (.scope body)).directDependencies s.id = .ok js ∧
          is.map Instance.key = js.map Instance.key ∧
          (Separate [.visitProgram (after ds)] → is = js)) ∧
      ∀ s ∈ (after ds).specializations,
        (∀ argument body, s.implementation ≠ .provided argument body) →
          (after ds).callGraph.directDependencies s.id = .ok []) := by
  have hw : (after ds).WellFormed := wellFormed_after h
  refine ⟨?_, fun _ _ ↦ hw.name_eq, hw.pairwise_name, ?_, ?_, ?_⟩
  · intro e he
    exact ⟨(hw e he).name, fun f hf ↦ ((hw e he).callables f hf).1⟩
  · intro c hc
    exact (hw.callable hc).parent
  · refine hw.pairwise_id.imp fun {s t} hst ⟨hp, hv, ht⟩ ↦ hst ?_
    rw [Specialization.id, Specialization.id, hp, hv, ht]
  · intro hd
    exact ⟨hw.pairwise_key hd, fun s hs _ _ hb ↦ hw.directDependencies_callGraph hd hs hb,
      fun s hs hb ↦ hw.directDependencies_callGraph_of_no_body hd hs hb⟩

def applyTo (t : Ty) (body : Scope) : Specialization :=
  .ofBody ⟨⟨"Lib", "Apply"⟩, .controlled, some [t]⟩ body

def reset : Scope :=
  ⟨[.expr (.call (.adjoint (.callable ⟨"Lib", "Reset"⟩ (.base .unit))) .unit (.base .unit))]⟩

/-- The second callable, the third specialization and the last one are refused. -/
def declarations : List Declaration :=
  [.callable (.declare ⟨"Lib", "Apply"⟩ .operation (.base .unit)),
   .callable (.declare ⟨"Lib", "Apply"⟩ .function (.base .int)),
   .specialization (applyTo (.base .qubit) reset),
   .specialization (applyTo (.base .bool) ⟨[]⟩),
   .specialization (applyTo (.base .qubit) ⟨[]⟩),
   .specialization (.ofBody ⟨⟨"Lib", "Reset"⟩, .body, none⟩ reset)]

theorem after_keeps_bodies_apart_apply :
    (∀ c, .callable c ∈ declarations → c.specializations = []) ∧
    (after declarations).specializations =
      [applyTo (.base .qubit) reset, applyTo (.base .bool) ⟨[]⟩] ∧
    Identity.key (applyTo (.base .qubit) reset) ≠ Identity.key (applyTo (.base .bool) ⟨[]⟩) ∧
    (after declarations).callGraph.directDependencies (applyTo (.base .qubit) reset).id =
      .ok [⟨⟨"Lib", "Reset"⟩, .adjoint, none⟩] := by
  have h : ∀ c, .callable c ∈ declarations → c.specializations = [] := by
    intro c hc
    simp only [declarations, List.mem_cons, Declaration.callable.injEq, reduceCtorEq,
      List.not_mem_nil, or_false] at hc
    rcases hc with rfl | rfl <;> rfl
  have hs : (after declarations).specializations =
      [applyTo (.base .qubit) reset, applyTo (.base .bool) ⟨[]⟩] := by
    rfl
  have hd : DigestsApart ((after declarations).specializations.flatMap Identity.types) := by
    unfold DigestsApart
    decide +kernel
  have hsep : Separate [.visitProgram (after declarations)] := by
    unfold Separate
    decide +kernel
  let s := applyTo (.base .qubit) reset
  have hbody : (CallGraph.empty.walk s.id (.scope reset)).directDependencies s.id =
      .ok [⟨⟨"Lib", "Reset"⟩, .adjoint, none⟩] := by
    rw [CallGraph.directDependencies_eq_ok]
    exact congrArg Except.ok (by decide +kernel)
  obtain ⟨-, -, -, -, -, hk⟩ := after_keeps_bodies_apart declarations h
  obtain ⟨hp, hg, -⟩ := hk hd
  obtain ⟨is, js, his, hjs, -, heq⟩ := hg s (hs ▸ List.mem_cons_self) .discard reset rfl
  rw [hbody] at hjs
  rw [hs] at hp
  refine ⟨h, hs, List.rel_of_pairwise_cons hp List.mem_cons_self, ?_⟩
  rw [his, heq hsep, hjs]

end Program

end FunctorCalls
