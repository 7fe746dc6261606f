import FunctorCalls.Proofs.Edits

namespace FunctorCalls

section Groups

variable {α κ : Type} [DecidableEq κ]

theorem eraseDups_concat (ks : List κ) (k : κ) :
    (ks ++ [k]).eraseDups = if k ∈ ks then ks.eraseDups else ks.eraseDups ++ [k] := by
  rw [List.eraseDups_append]
  split
  · next h => simp [List.removeAll, h]
  · next h => simp [List.removeAll, h, List.eraseDups_cons]

/-- A list regrouped by the key of each element. The groups are in the order of the keys, and each
group is in the order of the list. -/
def groups (f : α → κ) (ks : List κ) (as : List α) : List α :=
  ks.flatMap fun k ↦ as.filter (f · = k)

theorem perm_groups {f : α → κ} {ks : List κ} (hk : ks.Nodup) {as : List α}
    (h : ∀ a ∈ as, f a ∈ ks) : (groups f ks as).Perm as := by
  induction ks generalizing as with
  | nil =>
    obtain rfl : as = [] := List.eq_nil_iff_forall_not_mem.2 fun a ha ↦ nomatch h a ha
    exact .nil
  | cons k ks ih =>
    obtain ⟨hkn, hks⟩ := List.nodup_cons.1 hk
    have hothers : ∀ a ∈ as.filter fun a ↦ !decide (f a = k), f a ∈ ks := by
      intro a ha
      obtain ⟨ha, hne⟩ := List.mem_filter.1 ha
      exact (List.mem_cons.1 (h a ha)).resolve_left (by simpa using hne)
    -- Without the elements of the first key, the other groups are the same.
    have hgroups : groups f ks (as.filter fun a ↦ !decide (f a = k)) = groups f ks as := by
      refine List.flatMap_congr fun k' hk' ↦ ?_
      have hne : k' ≠ k := fun he ↦ hkn (he ▸ hk')
      rw [List.filter_filter]
      refine List.filter_congr fun a _ ↦ ?_
      by_cases ha : f a = k' <;> simp [ha, hne]
    rw [groups, List.flatMap_cons, ← groups, ← hgroups]
    exact ((ih hks hothers).append_left _).trans (List.filter_append_perm _ as)

end Groups

def Callable.holding (c : Callable) (ss : List Specialization) : Callable :=
  { c with specializations := ss.filter (·.parent = c.name) }

theorem Callable.holding_concat (c : Callable) (ss : List Specialization) (s : Specialization) :
    c.holding (ss ++ [s]) = if c.name = s.parent then
      { c.holding ss with specializations := (c.holding ss).specializations ++ [s] }
    else c.holding ss := by
  by_cases h : c.name = s.parent
  · simp [holding, List.filter_append, h]
  · simp [holding, List.filter_append, h, Ne.symm h]

theorem Callable.holding_eq_self {c : Callable} {ss : List Specialization}
    (hc : c.specializations = []) (hs : ∀ s ∈ ss, s.parent ≠ c.name) : c.holding ss = c := by
  have hn : ss.filter (·.parent = c.name) = [] :=
    List.filter_eq_nil_iff.2 fun s h ↦ by simpa using hs s h
  rw [holding, hn, ← hc]

theorem Program.notMem_keys_of_callable? {p : Program} {name : Name} {space : Namespace}
    (h : p.callable? name = none) (hs : (name.space, space) ∈ p.namespaces.entries) :
    name.base ∉ space.callables.keys := by
  intro hb
  obtain ⟨c, hc⟩ := OrderedMap.mem_keys.1 hb
  have hsome : p.callable? name = some c := callable?_eq_some_iff.2 ⟨space, hs, hc⟩
  rw [h] at hsome
  cases hsome

theorem Program.callableCount_eq (p : Program) : p.callableCount = p.callables.length := by
  rw [callableCount, callables]
  induction p.namespaces.values with
  | nil => rfl
  | cons space spaces ih =>
    rw [List.foldr_cons, ih, List.flatMap_cons, List.length_append, OrderedMap.size,
      OrderedMap.values, List.length_map]

theorem OrderedMap.keys_modify {α : Type} (m : OrderedMap α) (key : String) (f : α → α) :
    (m.modify key f).keys = m.keys := by
  simp [keys, entries_modify]

/-- What a program is in the order of: the namespaces as they are named, the callables of each, and
the specializations of each callable. -/
structure Grouped (p : Program) (named : List String) (cs : List Callable)
    (ss : List Specialization) : Prop where
  keys_eq : p.namespaces.keys = named.eraseDups
  entries_eq : ∀ e ∈ p.namespaces.entries, e.2.callables.entries =
    (cs.filter (·.name.space = e.1)).map fun c ↦ (c.name.base, c.holding ss)
  space_mem : ∀ c ∈ cs, c.name.space ∈ named
  parent_mem : ∀ s ∈ ss, ∃ c ∈ cs, c.name = s.parent
  nodup : (cs.map (·.name)).Nodup

namespace Grouped

variable {p : Program} {named : List String} {cs : List Callable} {ss : List Specialization}

theorem mem_keys_iff (h : Grouped p named cs ss) {key : String} :
    key ∈ p.namespaces.keys ↔ key ∈ named := by
  rw [h.keys_eq, List.mem_eraseDups]

theorem callable?_name (h : Grouped p named cs ss) {c : Callable} (hc : c ∈ cs) :
    p.callable? c.name = some (c.holding ss) := by
  obtain ⟨space, hs⟩ := OrderedMap.mem_keys.1 (h.mem_keys_iff.2 (h.space_mem c hc))
  refine Program.callable?_eq_some_iff.2 ⟨space, hs, ?_⟩
  rw [h.entries_eq _ hs]
  exact List.mem_map.2 ⟨c, by simpa using hc, rfl⟩

theorem exists_of_callable? (h : Grouped p named cs ss) {name : Name} {c' : Callable}
    (hc : p.callable? name = some c') : ∃ c ∈ cs, c.name = name := by
  obtain ⟨space, hs, hm⟩ := Program.callable?_eq_some_iff.1 hc
  rw [h.entries_eq _ hs] at hm
  obtain ⟨c, hc, he⟩ := List.mem_map.1 hm
  obtain ⟨hc, hspace⟩ := List.mem_filter.1 hc
  exact ⟨c, hc, Name.ext (by simpa using hspace) (congrArg Prod.fst he)⟩

theorem openNamespace (h : Grouped p named cs ss) (key : String) :
    Grouped (p.openNamespace key) (named ++ [key]) cs ss := by
  have hspace : ∀ c ∈ cs, c.name.space ∈ named ++ [key] := fun c hc ↦
    List.mem_append_left _ (h.space_mem c hc)
  by_cases hk : key ∈ named
  · rw [Program.openNamespace_eq_self (h.mem_keys_iff.2 hk)]
    refine ⟨?_, h.entries_eq, hspace, h.parent_mem, h.nodup⟩
    rw [eraseDups_concat, if_pos hk, h.keys_eq]
  · have hk' : key ∉ p.namespaces.keys := mt h.mem_keys_iff.1 hk
    have he : (p.openNamespace key).namespaces.entries =
        p.namespaces.entries ++ [(key, ⟨key, .empty⟩)] := by
      rw [Program.openNamespace, if_neg hk', OrderedMap.entries_insert_of_notMem hk']
    refine ⟨?_, ?_, hspace, h.parent_mem, h.nodup⟩
    · rw [eraseDups_concat, if_neg hk, ← h.keys_eq, OrderedMap.keys, he, List.map_append]
      rfl
    · intro e hm
      rw [he, List.mem_append, List.mem_singleton] at hm
      rcases hm with hm | rfl
      · exact h.entries_eq e hm
      · -- Nothing is in a namespace that nobody named before.
        have hnone : cs.filter (·.name.space = key) = [] :=
          List.filter_eq_nil_iff.2 fun c hc ↦ by
            simpa using fun he : c.name.space = key ↦ hk (he ▸ h.space_mem c hc)
        rw [hnone]
        rfl

theorem name_ne (h : Grouped p named cs ss) {name : Name} (hn : p.callable? name = none) :
    ∀ c ∈ cs, c.name ≠ name := by
  intro c hc he
  rw [← he, h.callable?_name hc] at hn
  cases hn

theorem parent_ne (h : Grouped p named cs ss) {name : Name} (hn : p.callable? name = none) :
    ∀ s ∈ ss, s.parent ≠ name := by
  intro s hs he
  obtain ⟨c, hc, hp⟩ := h.parent_mem s hs
  exact h.name_ne hn c hc (hp.trans he)

theorem enterCallable (h : Grouped p named cs ss) {c : Callable} (hs : c.name.space ∈ named)
    (hn : p.callable? c.name = none) (hc : c.specializations = []) :
    Grouped (p.enterCallable c) named (cs ++ [c]) ss := by
  refine ⟨?_, ?_, ?_, ?_, ?_⟩
  · rw [Program.enterCallable, OrderedMap.keys_modify, h.keys_eq]
  · intro e hm
    obtain ⟨space, hspace, he⟩ := OrderedMap.mem_entries_modify.1 hm
    have hold := h.entries_eq _ hspace
    rw [List.filter_append, List.map_append, ← hold, he]
    by_cases hk : e.1 = c.name.space
    · have hb : c.name.base ∉ space.callables.keys :=
        Program.notMem_keys_of_callable? hn (hk ▸ hspace)
      rw [if_pos hk, OrderedMap.entries_insert_of_notMem hb]
      simp [hk, Callable.holding_eq_self hc (h.parent_ne hn)]
    · simp [hk, Ne.symm hk]
  · intro c' hc'
    rcases List.mem_append.1 hc' with hc' | hc'
    · exact h.space_mem c' hc'
    · exact List.mem_singleton.1 hc' ▸ hs
  · intro s hs
    obtain ⟨c', hc', he⟩ := h.parent_mem s hs
    exact ⟨c', List.mem_append_left _ hc', he⟩
  · rw [List.map_append, List.nodup_append]
    refine ⟨h.nodup, List.nodup_singleton _, fun a ha b hb ↦ ?_⟩
    obtain ⟨c', hc', rfl⟩ := List.mem_map.1 ha
    exact List.mem_singleton.1 hb ▸ h.name_ne hn c' hc'

theorem modifyCallable (h : Grouped p named cs ss) {s : Specialization}
    (hs : ∃ c ∈ cs, c.name = s.parent) :
    Grouped (p.modifyCallable s.parent fun c ↦
      { c with specializations := c.specializations ++ [s] }) named cs (ss ++ [s]) := by
  refine ⟨?_, ?_, h.space_mem, ?_, h.nodup⟩
  · rw [Program.modifyCallable, OrderedMap.keys_modify, h.keys_eq]
  · intro e hm
    obtain ⟨space, hspace, he⟩ := OrderedMap.mem_entries_modify.1 hm
    have hold := h.entries_eq _ hspace
    rw [he]
    -- Within the namespace of the parent, the simple name tells which callable it is.
    by_cases hk : e.1 = s.parent.space
    · rw [if_pos hk, OrderedMap.entries_modify, hold, List.map_map]
      refine List.map_congr_left fun c hc ↦ ?_
      have hc : c.name.space = e.1 := by simpa using (List.mem_filter.1 hc).2
      have hb : c.name = s.parent ↔ c.name.base = s.parent.base :=
        ⟨congrArg Name.base, Name.ext (hc.trans hk)⟩
      simp [Callable.holding_concat, hb]
    · rw [if_neg hk, hold]
      refine List.map_congr_left fun c hc ↦ ?_
      have hc : c.name.space = e.1 := by simpa using (List.mem_filter.1 hc).2
      rw [Callable.holding_concat, if_neg fun hn ↦ hk (hc ▸ congrArg Name.space hn)]
  · intro t ht
    rcases List.mem_append.1 ht with ht | ht
    · exact h.parent_mem t ht
    · exact List.mem_singleton.1 ht ▸ hs

theorem callables_eq (h : Grouped p named cs ss) : p.callables =
    (groups (·.name.space) p.namespaces.keys cs).map (·.holding ss) := by
  rw [Program.callables, OrderedMap.values, List.flatMap_map, OrderedMap.keys, groups,
    List.flatMap_map, List.map_flatMap]
  refine List.flatMap_congr fun e he ↦ ?_
  rw [OrderedMap.values, h.entries_eq e he, List.map_map]
  rfl

theorem perm_groups_callables (h : Grouped p named cs ss) :
    (groups (·.name.space) p.namespaces.keys cs).Perm cs :=
  perm_groups p.namespaces.nodup fun c hc ↦ h.mem_keys_iff.2 (h.space_mem c hc)

theorem perm_callables (h : Grouped p named cs ss) :
    p.callables.Perm (cs.map (·.holding ss)) := by
  rw [h.callables_eq]
  exact h.perm_groups_callables.map _

theorem callableCount_eq (h : Grouped p named cs ss) : p.callableCount = cs.length := by
  rw [p.callableCount_eq, h.perm_callables.length_eq, List.length_map]

theorem names_eq (h : Grouped p named cs ss) : p.callables.map (·.name) =
    (groups (·.name.space) p.namespaces.keys cs).map (·.name) := by
  rw [h.callables_eq, List.map_map]
  rfl

theorem specializations_eq (h : Grouped p named cs ss) :
    p.specializations = groups (·.parent) (p.callables.map (·.name)) ss := by
  rw [h.names_eq, groups, Program.specializations, h.callables_eq, List.flatMap_map,
    List.flatMap_map]
  rfl

theorem perm_specializations (h : Grouped p named cs ss) : p.specializations.Perm ss := by
  have hnames : (p.callables.map (·.name)).Perm (cs.map (·.name)) := by
    rw [h.names_eq]
    exact h.perm_groups_callables.map _
  rw [h.specializations_eq]
  refine perm_groups (hnames.nodup_iff.2 h.nodup) fun s hs ↦ hnames.mem_iff.2 ?_
  obtain ⟨c, hc, he⟩ := h.parent_mem s hs
  exact List.mem_map.2 ⟨c, hc, he⟩

end Grouped

namespace Journal

variable {j : Journal} {named : List String}

theorem add_callable (c : Callable) : j.add (.callable c) =
    if (j.program.callable? c.name).isSome then j
    else ⟨(j.program.openNamespace c.name.space).enterCallable c, j.accepted ++ [.callable c]⟩ := by
  rw [add, Edit.declare, Edit.run_addCallable]
  by_cases h : (j.program.callable? c.name).isSome
  · rw [if_pos h, if_pos h]
  · rw [if_neg h, if_neg h]

theorem add_specialization (s : Specialization) :
    j.add (.specialization s) = j ∨ ∃ c, j.program.callable? s.parent = some c ∧
      j.add (.specialization s) = ⟨j.program.modifyCallable s.parent fun c ↦
        { c with specializations := c.specializations ++ [s] },
        j.accepted ++ [.specialization s]⟩ := by
  rw [add, Edit.declare]
  cases h : j.program.callable? s.parent with
  | none =>
    rw [Edit.run_addSpecialization_of_none h]
    exact .inl rfl
  | some c =>
    rw [Edit.run_addSpecialization_of_some h]
    by_cases ht : ∃ t ∈ c.specializations, t.variant = s.variant ∧ t.typeArgs = s.typeArgs
    · rw [if_pos ht]
      exact .inl rfl
    · rw [if_neg ht]
      exact .inr ⟨c, rfl, rfl⟩

/-- A callable that is refused names a namespace that is there, and so changes no order. -/
theorem grouped_add_callable (h : Grouped j.program named j.callables j.specializations)
    {c : Callable} (hc : c.specializations = []) :
    Grouped (j.add (.callable c)).program (named ++ [c.name.space]) (j.add (.callable c)).callables
      (j.add (.callable c)).specializations := by
  have ho := h.openNamespace c.name.space
  rw [add_callable]
  split
  · next hs => rwa [Program.openNamespace_eq_self (Program.mem_keys_of_isSome hs)] at ho
  · next hs =>
    have hn : (j.program.openNamespace c.name.space).callable? c.name = none := by
      rw [Program.callable?_openNamespace]
      exact Option.not_isSome_iff_eq_none.1 hs
    have he := ho.enterCallable (List.mem_append_right _ (List.mem_singleton_self _)) hn hc
    simpa [callables, specializations, Declaration.callable?, Declaration.specialization?,
      List.filterMap_cons] using he

theorem grouped_add_specialization (h : Grouped j.program named j.callables j.specializations)
    (s : Specialization) : Grouped (j.add (.specialization s)).program named
      (j.add (.specialization s)).callables (j.add (.specialization s)).specializations := by
  rcases j.add_specialization s with he | ⟨c, hc, he⟩
  · rwa [he]
  · rw [he]
    have hm := h.modifyCallable (h.exists_of_callable? hc)
    simpa [callables, specializations, Declaration.callable?, Declaration.specialization?,
      List.filterMap_cons] using hm

/-- The names of namespaces count as they are given, whether the callable is added or not. -/
theorem grouped_foldl {ds : List Declaration}
    (h : Grouped j.program named j.callables j.specializations)
    (hds : ∀ c, .callable c ∈ ds → c.specializations = []) :
    Grouped (ds.foldl add j).program
      (named ++ (ds.filterMap Declaration.callable?).map (·.name.space))
      (ds.foldl add j).callables (ds.foldl add j).specializations := by
  induction ds generalizing j named with
  | nil => simpa using h
  | cons d ds ih =>
    have hds' : ∀ c, .callable c ∈ ds → c.specializations = [] := fun c hc ↦
      hds c (List.mem_cons_of_mem d hc)
    cases d with
    | callable c =>
      have hj := ih (grouped_add_callable h (hds c List.mem_cons_self)) hds'
      simpa [Declaration.callable?] using hj
    | specialization s => exact ih (grouped_add_specialization h s) hds'

theorem grouped_after {ds : List Declaration}
    (h : ∀ c, .callable c ∈ ds → c.specializations = []) :
    Grouped (after ds).program ((ds.filterMap Declaration.callable?).map (·.name.space))
      (after ds).callables (after ds).specializations := by
  have hempty : Grouped empty.program [] empty.callables empty.specializations :=
    ⟨rfl, by simp [empty, Program.empty, OrderedMap.empty], by simp [callables, empty],
      by simp [specializations, empty], by simp [callables, empty]⟩
  exact grouped_foldl hempty h

/-- Whatever is declared, and in whatever order, the program is the accepted declarations regrouped:
the namespaces by the first callable of each, the callables by their namespaces, the specializations
by their callables, and each group in the order of declaration. -/
theorem after_groups_declarations {ds : List Declaration}
    (h : ∀ c, .callable c ∈ ds → c.specializations = []) :
    let p := (after ds).program
    let cs := (after ds).callables
    let ss := (after ds).specializations
    p.namespaces.keys = ((ds.filterMap Declaration.callable?).map (·.name.space)).eraseDups ∧
    p.callables = (groups (·.name.space) p.namespaces.keys cs).map (·.holding ss) ∧
    p.callables.Perm (cs.map (·.holding ss)) ∧
    p.callableCount = cs.length ∧
    p.specializations = groups (·.parent) (p.callables.map (·.name)) ss ∧
    p.specializations.Perm ss := by
  have hg := grouped_after h
  exact ⟨hg.keys_eq, hg.callables_eq, hg.perm_callables, hg.callableCount_eq,
    hg.specializations_eq, hg.perm_specializations⟩

/-- Two namespaces and three callables by turns. The second `B.A`, the second adjoint of `A.B` and
the body of a callable that is nowhere are refused. -/
def interleaved : List Declaration :=
  [.callable (.declare ⟨"B", "A"⟩ .operation (.base .unit)),
    .specialization (.ofBody ⟨⟨"B", "A"⟩, .body, none⟩ ⟨[]⟩),
    .callable (.declare ⟨"A", "B"⟩ .operation (.base .unit)),
    .specialization (.ofBody ⟨⟨"A", "B"⟩, .adjoint, none⟩ ⟨[]⟩),
    .callable (.declare ⟨"B", "A"⟩ .function (.base .unit)),
    .specialization (.ofBody ⟨⟨"A", "C"⟩, .body, none⟩ ⟨[]⟩),
    .callable (.declare ⟨"B", "C"⟩ .operation (.base .unit)),
    .specialization (.ofBody ⟨⟨"A", "B"⟩, .adjoint, none⟩ ⟨[]⟩),
    .specialization (.ofBody ⟨⟨"B", "A"⟩, .adjoint, none⟩ ⟨[]⟩)]

theorem after_groups_declarations_interleaved :
    (∀ c, .callable c ∈ interleaved → c.specializations = []) ∧
    (after interleaved).program.namespaces.keys = ["B", "A"] ∧
    (after interleaved).program.callables.map (·.name) = [⟨"B", "A"⟩, ⟨"B", "C"⟩, ⟨"A", "B"⟩] ∧
    (after interleaved).program.callableCount = 3 ∧
    (after interleaved).program.specializations.map (·.id) =
      [⟨⟨"B", "A"⟩, .body, none⟩, ⟨⟨"B", "A"⟩, .adjoint, none⟩, ⟨⟨"A", "B"⟩, .adjoint, none⟩] := by
  have h : ∀ c, .callable c ∈ interleaved → c.specializations = [] := by
    intro c hc
    simp only [interleaved, List.mem_cons, Declaration.callable.injEq, reduceCtorEq, false_or,
      List.not_mem_nil, or_false] at hc
    rcases hc with rfl | rfl | rfl | rfl <;> rfl
  obtain ⟨hk, hc, -, hn, hs, -⟩ := after_groups_declarations h
  have hk : (after interleaved).program.namespaces.keys = ["B", "A"] := hk.trans (by decide)
  have hc : (after interleaved).program.callables.map (·.name) =
      [⟨"B", "A"⟩, ⟨"B", "C"⟩, ⟨"A", "B"⟩] := by
    rw [hc, hk]
    decide
  refine ⟨h, hk, hc, hn.trans (by decide), ?_⟩
  rw [hs, hc]
  decide

end Journal

end FunctorCalls
