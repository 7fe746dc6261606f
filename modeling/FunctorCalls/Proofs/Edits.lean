import FunctorCalls.Program.Edit
import FunctorCalls.Proofs.WellFormed

namespace FunctorCalls

namespace Program

variable {p : Program}

/-- All that is in `p` is in `q` at the same position; `q` may have more behind it. -/
def KeepsPlaces (p q : Program) : Prop :=
  ∀ (n : Nat) (key : String) (space : Namespace), p.namespaces.entries[n]? = some (key, space) →
    ∃ space', q.namespaces.entries[n]? = some (key, space') ∧ space'.name = space.name ∧
      space.callables.entries <+: space'.callables.entries

/-- The program `q` has `d` in the place of `c`, which is found by a name, and is `p` otherwise. -/
def Replaces (p q : Program) (name : Name) (c d : Callable) : Prop :=
  ReplacesOne (fun e e' ↦ e.1 = name.space ∧ e'.1 = name.space ∧ e'.2.name = e.2.name ∧
    ReplacesOne (fun f f' ↦ f = (name.base, c) ∧ f' = (name.base, d)) e.2.callables.entries
      e'.2.callables.entries) p.namespaces.entries q.namespaces.entries

theorem mem_keys_of_isSome {name : Name} (h : (p.callable? name).isSome) :
    name.space ∈ p.namespaces.keys := by
  obtain ⟨c, hc⟩ := Option.isSome_iff_exists.1 h
  obtain ⟨space, hs, -⟩ := callable?_eq_some_iff.1 hc
  exact OrderedMap.mem_keys.2 ⟨space, hs⟩

theorem mem_keys_openNamespace (p : Program) (key : String) :
    key ∈ (p.openNamespace key).namespaces.keys := by
  rw [openNamespace]
  split
  · next h => exact h
  · exact OrderedMap.mem_keys.2 ⟨_, OrderedMap.mem_entries_insert.2 (.inl rfl)⟩

theorem openNamespace_eq_self {key : String} (h : key ∈ p.namespaces.keys) :
    p.openNamespace key = p := if_pos h

/-- What is new has nothing in it, so that all names are looked up as before. -/
theorem callable?_openNamespace (p : Program) (key : String) (name : Name) :
    (p.openNamespace key).callable? name = p.callable? name := by
  rw [openNamespace]
  split
  · rfl
  · next h =>
    rw [callable?, callable?, OrderedMap.find?_insert]
    split
    · next hk =>
      rw [hk, OrderedMap.find?_eq_none_iff.2 h]
      rfl
    · rfl

theorem keepsPlaces_openNamespace (p : Program) (key : String) :
    p.KeepsPlaces (p.openNamespace key) := by
  intro n k space hn
  refine ⟨space, ?_, rfl, List.prefix_rfl⟩
  rw [openNamespace]
  split
  · exact hn
  · next h =>
    rw [OrderedMap.entries_insert_of_notMem h]
    exact List.getElem?_append_left (List.getElem?_eq_some_iff.1 hn).1 ▸ hn

theorem callable?_enterCallable {c : Callable} (h : c.name.space ∈ p.namespaces.keys)
    (name : Name) : (p.enterCallable c).callable? name =
      if name = c.name then some c else p.callable? name := by
  obtain ⟨space, hs⟩ := OrderedMap.mem_keys.1 h
  rw [callable?, callable?, enterCallable, OrderedMap.find?_modify]
  by_cases hn : name.space = c.name.space
  · have he : name = c.name ↔ name.base = c.name.base :=
      ⟨congrArg Name.base, fun hb ↦ Name.ext hn hb⟩
    rw [hn, OrderedMap.find?_eq_some_iff.2 hs]
    simp [OrderedMap.find?_insert, he]
  · have he : name ≠ c.name := fun he ↦ hn (congrArg Name.space he)
    simp [hn, he]

theorem keepsPlaces_enterCallable {c : Callable} (h : p.callable? c.name = none) :
    p.KeepsPlaces (p.enterCallable c) := by
  intro n key space hn
  rw [enterCallable, OrderedMap.entries_modify, List.getElem?_map, hn]
  refine ⟨_, rfl, ?_⟩
  split
  · next hk =>
    subst hk
    have hs : p.namespaces.find? c.name.space = some space :=
      OrderedMap.find?_eq_some_iff.2 (List.mem_of_getElem? hn)
    have hb : c.name.base ∉ space.callables.keys := by
      rw [callable?, hs] at h
      exact OrderedMap.find?_eq_none_iff.1 h
    refine ⟨rfl, ?_⟩
    rw [OrderedMap.entries_insert_of_notMem hb]
    exact List.prefix_append _ _
  · exact ⟨rfl, List.prefix_rfl⟩

theorem KeepsPlaces.trans {p q r : Program} (h : p.KeepsPlaces q) (h' : q.KeepsPlaces r) :
    p.KeepsPlaces r := by
  intro n key space hn
  obtain ⟨space', hn', he, hc⟩ := h n key space hn
  obtain ⟨space'', hn'', he', hc'⟩ := h' n key space' hn'
  exact ⟨space'', hn'', he'.trans he, hc.trans hc'⟩

theorem replaces_modifyCallable {name : Name} {c : Callable} (h : p.callable? name = some c)
    (f : Callable → Callable) : p.Replaces (p.modifyCallable name f) name c (f c) := by
  obtain ⟨space, hs, hc⟩ := callable?_eq_some_iff.1 h
  refine (OrderedMap.replacesOne_modify hs).mono ?_
  rintro e e' ⟨rfl, rfl⟩
  exact ⟨rfl, rfl, rfl, OrderedMap.replacesOne_modify hc⟩

theorem addCallable_eq (p : Program) (c : Callable) : p.addCallable c =
    if (p.callable? c.name).isSome then .error (.duplicateCallable c.name)
    else .ok ((p.openNamespace c.name.space).enterCallable c) := by
  rw [addCallable, callable?, openNamespace, enterCallable]
  cases hs : p.namespaces.find? c.name.space with
  | none =>
    have hk := OrderedMap.find?_eq_none_iff.1 hs
    rw [if_neg hk, OrderedMap.modify_insert hk]
    rfl
  | some space =>
    have hm := OrderedMap.find?_eq_some_iff.1 hs
    rw [if_pos (OrderedMap.mem_keys.2 ⟨space, hm⟩), OrderedMap.modify_eq_insert hm]
    rfl

end Program

namespace Edit

variable {p : Program} {α : Type}

theorem run_get_bind (f : Program → Edit α) : (get >>= f).run p = (f p).run p := rfl

theorem run_modify_bind (f : Program → Program) (m : Unit → Edit α) :
    (modify f >>= m).run p = (m ()).run (f p) := rfl

/-- The check fails only where the namespace is an old one, and then nothing was opened. -/
theorem run_addCallable (c : Callable) : (addCallable c).run p =
    if (p.callable? c.name).isSome then .error (.duplicateCallable c.name) p
    else .ok () ((p.openNamespace c.name.space).enterCallable c) := by
  rw [addCallable, run_modify_bind, run_get_bind, Program.callable?_openNamespace]
  split
  · next h =>
    rw [Program.openNamespace_eq_self (Program.mem_keys_of_isSome h)]
    rfl
  · rfl

theorem run_addSpecialization_of_none {s : Specialization} (h : p.callable? s.parent = none) :
    (addSpecialization s).run p = .error (.unknownCallable s.parent) p := by
  rw [addSpecialization, run_get_bind, h]
  rfl

theorem run_addSpecialization_of_some {s : Specialization} {c : Callable}
    (h : p.callable? s.parent = some c) : (addSpecialization s).run p =
      if ∃ t ∈ c.specializations, t.variant = s.variant ∧ t.typeArgs = s.typeArgs then
        .error (.duplicateSpecialization s.parent s.variant) p
      else .ok () (p.modifyCallable s.parent fun c ↦
        { c with specializations := c.specializations ++ [s] }) := by
  rw [addSpecialization, run_get_bind, h]
  simp only [List.any_eq_true, decide_eq_true_eq]
  split <;> rfl

theorem run_declare (d : Declaration) : (declare d).run p =
    match p.declare d with
    | .ok q => .ok () q
    | .error e => .error e p := by
  cases d with
  | callable c =>
    rw [declare, run_addCallable, Program.declare, Program.addCallable_eq]
    split <;> rfl
  | specialization s =>
    rw [declare, Program.declare, Program.addSpecialization]
    cases h : p.callable? s.parent with
    | none => exact run_addSpecialization_of_none h
    | some c =>
      rw [run_addSpecialization_of_some h]
      simp only [List.any_eq_true, decide_eq_true_eq]
      split <;> rfl

theorem eq_of_run_declare_eq_error {d : Declaration} {e : ProgramError} {q : Program}
    (h : (declare d).run p = .error e q) : q = p := by
  rw [run_declare] at h
  split at h
  · cases h
  · cases h
    rfl

theorem run_addCallable_eq_error_iff {c : Callable} {e : ProgramError} :
    (∃ q, (addCallable c).run p = .error e q) ↔
      e = .duplicateCallable c.name ∧ (p.callable? c.name).isSome := by
  rw [run_addCallable]
  split
  · next h => simp [h, eq_comm]
  · next h => simp [h]

theorem run_addCallable_of_none {c : Callable} (h : p.callable? c.name = none) :
    ∃ q, (addCallable c).run p = .ok () q ∧ q.callable? c.name = some c ∧
      (∀ name, name ≠ c.name → q.callable? name = p.callable? name) ∧ p.KeepsPlaces q := by
  have hk := p.mem_keys_openNamespace c.name.space
  refine ⟨(p.openNamespace c.name.space).enterCallable c, ?_, ?_, ?_, ?_⟩
  · rw [run_addCallable, h]
    rfl
  · rw [Program.callable?_enterCallable hk, if_pos rfl]
  · intro name hn
    rw [Program.callable?_enterCallable hk, if_neg hn, Program.callable?_openNamespace]
  · refine (p.keepsPlaces_openNamespace _).trans (Program.keepsPlaces_enterCallable ?_)
    rw [Program.callable?_openNamespace, h]

/-- A declaration that fails leaves the program as it was, and in place or not it comes to the same.
A callable is refused where its name is taken, and nowhere else; one that is added is found by its
name, all other names are looked up as before, and everything stays where it was. A specialization
is refused where its parent is unknown or has one of the same variant and type arguments, and
nowhere else; one that is added becomes the last of its parent, and nothing else changes. -/
theorem run_leaves_or_updates (p : Program) :
    (∀ d e q, (declare d).run p = .error e q → q = p) ∧
    (∀ d q, (declare d).run p = .ok () q ↔ p.declare d = .ok q) ∧
    (∀ c : Callable,
      (∀ e, (∃ q, (addCallable c).run p = .error e q) ↔
        e = .duplicateCallable c.name ∧ (p.callable? c.name).isSome) ∧
      (p.callable? c.name = none → ∃ q, (addCallable c).run p = .ok () q ∧
        q.callable? c.name = some c ∧
        (∀ name, name ≠ c.name → q.callable? name = p.callable? name) ∧ p.KeepsPlaces q)) ∧
    ∀ s : Specialization,
      ((∃ q, (addSpecialization s).run p = .error (.unknownCallable s.parent) q) ↔
        p.callable? s.parent = none) ∧
      ((∃ q, (addSpecialization s).run p =
          .error (.duplicateSpecialization s.parent s.variant) q) ↔
        ∃ c, p.callable? s.parent = some c ∧
          ∃ t ∈ c.specializations, t.variant = s.variant ∧ t.typeArgs = s.typeArgs) ∧
      ∀ c, p.callable? s.parent = some c →
        (¬ ∃ t ∈ c.specializations, t.variant = s.variant ∧ t.typeArgs = s.typeArgs) →
        ∃ q, (addSpecialization s).run p = .ok () q ∧
          p.Replaces q s.parent c { c with specializations := c.specializations ++ [s] } := by
  refine ⟨fun _ _ _ ↦ eq_of_run_declare_eq_error, ?_, ?_, ?_⟩
  · intro d q
    rw [run_declare]
    cases p.declare d <;> simp
  · intro c
    exact ⟨fun e ↦ run_addCallable_eq_error_iff, run_addCallable_of_none⟩
  · intro s
    cases h : p.callable? s.parent with
    | none => simp [run_addSpecialization_of_none h]
    | some c =>
      rw [run_addSpecialization_of_some h]
      refine ⟨?_, ?_, ?_⟩
      · split <;> simp
      · split
        · next ht => simp [ht]
        · next ht => simp [ht]
      · rintro c' hc ht
        obtain rfl := Option.some.inj hc
        rw [if_neg ht]
        exact ⟨_, rfl, Program.replaces_modifyCallable h _⟩

end Edit

end FunctorCalls
