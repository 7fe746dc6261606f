import FunctorCalls.CallGraph.Query

namespace FunctorCalls

theorem mapM_eq_ok {α β ε : Type} {f : α → Except ε β} {f' : α → β} {l : List α}
    (h : ∀ a ∈ l, f a = .ok (f' a)) : l.mapM f = .ok (l.map f') := by
  induction l with
  | nil => rfl
  | cons a l ih =>
    rw [List.mapM_cons, h a List.mem_cons_self, ih fun b hb ↦ h b (List.mem_cons_of_mem a hb)]
    rfl

namespace TypeTable

theorem mem_entries_of_find? {T : TypeTable} {d : Digest} {t : Ty} (h : T.find? d = some t) :
    (d, t) ∈ T.entries := by
  obtain ⟨l, l', he, -⟩ := List.lookup_eq_some_iff.1 h
  simp [he]

def typeOf (T : TypeTable) (d : Digest) : Ty := (T.find? d).getD default

theorem find?_eq_some_typeOf {T : TypeTable} {d : Digest} (h : d ∈ T.digests) :
    T.find? d = some (T.typeOf d) := by
  cases hd : T.find? d with
  | none =>
    obtain ⟨e, he, rfl⟩ := List.mem_map.1 h
    have hne := List.lookup_eq_none_iff.1 hd e he
    simp at hne
  | some t => rw [typeOf, hd, Option.getD_some]

theorem digest_typeOf {T : TypeTable} {d : Digest} (h : d ∈ T.digests) :
    (T.typeOf d).digest = d :=
  (T.hashed _ (mem_entries_of_find? (find?_eq_some_typeOf h))).symm

theorem resolve_eq_ok {T : TypeTable} {ds : List Digest} (h : ∀ d ∈ ds, d ∈ T.digests) :
    T.resolve ds = .ok (ds.map T.typeOf) := by
  induction ds with
  | nil => rfl
  | cons d ds ih =>
    rw [resolve, find?_eq_some_typeOf (h d List.mem_cons_self),
      ih fun d' hd' ↦ h d' (List.mem_cons_of_mem d hd')]
    rfl

end TypeTable

namespace CallGraph

def instanceOf (g : CallGraph) (k : Key) : Instance :=
  ⟨k.callable, k.variant, k.typeArgs.map (·.map g.types.typeOf)⟩

theorem instanceOf_congr {g g' : CallGraph} {k : Key}
    (h : ∀ d ∈ k.digests, g.types.typeOf d = g'.types.typeOf d) :
    g.instanceOf k = g'.instanceOf k := by
  obtain ⟨callable, variant, _ | ds⟩ := k
  · rfl
  · have ht : ds.map g.types.typeOf = ds.map g'.types.typeOf := List.map_congr_left h
    simp only [instanceOf, Option.map_some, ht]

theorem resolve_eq_ok {g : CallGraph} {k : Key} (hk : k ∈ g.nodes) :
    g.resolve k = .ok (g.instanceOf k) := by
  have hd := g.digests_mem k hk
  obtain ⟨callable, variant, _ | ds⟩ := k
  · rfl
  · have hr : g.types.resolve ds = .ok (ds.map g.types.typeOf) := TypeTable.resolve_eq_ok hd
    rw [resolve, TypeTable.resolveOptional, hr]
    rfl

theorem key_instanceOf {g : CallGraph} {k : Key} (hk : k ∈ g.nodes) : (g.instanceOf k).key = k := by
  have hd := g.digests_mem k hk
  obtain ⟨callable, variant, _ | ds⟩ := k
  · rfl
  · have hm : (ds.map g.types.typeOf).map Ty.digest = ds := by
      rw [List.map_map]
      exact (List.map_congr_left fun d h ↦ TypeTable.digest_typeOf (hd d h)).trans (List.map_id ds)
    simp only [instanceOf, Instance.key, Option.map_some, hm]

theorem map_key_instanceOf {g : CallGraph} {keys : List Key} (h : ∀ k ∈ keys, k ∈ g.nodes) :
    (keys.map g.instanceOf).map Instance.key = keys := by
  rw [List.map_map]
  exact (List.map_congr_left fun k hk ↦ key_instanceOf (h k hk)).trans (List.map_id keys)

theorem resolveAll_eq_ok {g : CallGraph} {keys : OrdSet Key} (h : ∀ k ∈ keys, k ∈ g.nodes) :
    g.resolveAll keys = .ok (keys.toList.map g.instanceOf) :=
  mapM_eq_ok fun k hk ↦ resolve_eq_ok (h k hk)

theorem directDependencies_eq_ok (g : CallGraph) (i : Instance) :
    g.directDependencies i = .ok ((g.successors i.key).toList.map g.instanceOf) :=
  resolveAll_eq_ok fun _ hk ↦ (g.ends_mem _ (mem_successors.1 hk)).2

theorem callersOf_eq_ok (g : CallGraph) (i : Instance) :
    g.callersOf i = .ok ((g.predecessors i.key).toList.map g.instanceOf) :=
  resolveAll_eq_ok fun _ hk ↦ (g.ends_mem _ (mem_predecessors.1 hk)).1

theorem map_key_successors (g : CallGraph) (k : Key) :
    ((g.successors k).toList.map g.instanceOf).map Instance.key = (g.successors k).toList :=
  map_key_instanceOf fun _ hm ↦ (g.ends_mem _ (mem_successors.1 hm)).2

theorem map_key_predecessors (g : CallGraph) (k : Key) :
    ((g.predecessors k).toList.map g.instanceOf).map Instance.key = (g.predecessors k).toList :=
  map_key_instanceOf fun _ hm ↦ (g.ends_mem _ (mem_predecessors.1 hm)).1

theorem instances_eq_ok (g : CallGraph) : g.instances = .ok (g.nodes.toList.map g.instanceOf) :=
  resolveAll_eq_ok fun _ ↦ id

def linesOf (g : CallGraph) (i : Instance) : List String :=
  ((g.successors i.key).toList.map g.instanceOf).map (line i)

theorem render_eq_ok (g : CallGraph) : g.render =
    .ok (String.join ((g.nodes.toList.map g.instanceOf).map g.linesOf).flatten) := by
  have h (i : Instance) : (do return (← g.directDependencies i).map (line i)) =
      Except.ok (g.linesOf i) := by
    rw [directDependencies_eq_ok]
    rfl
  rw [render, instances_eq_ok]
  exact congrArg (· >>= fun lines ↦ pure (String.join lines.flatten)) (mapM_eq_ok fun i _ ↦ h i)

end CallGraph

end FunctorCalls
