namespace FunctorCalls

inductive ReplacesOne {α : Type} (R : α → α → Prop) : List α → List α → Prop
  | mk {a b : α} (before behind : List α) :
      R a b → ReplacesOne R (before ++ a :: behind) (before ++ b :: behind)

theorem ReplacesOne.mono {α : Type} {R S : α → α → Prop} {as bs : List α} (h : ReplacesOne R as bs)
    (hRS : ∀ a b, R a b → S a b) : ReplacesOne S as bs := by
  cases h with
  | mk before behind h => exact .mk before behind (hRS _ _ h)

theorem ReplacesOne.flatMap_eq {α β : Type} {R : α → α → Prop} {as bs : List α}
    (h : ReplacesOne R as bs) {f : α → List β} (hf : ∀ a b, R a b → f a = f b) :
    as.flatMap f = bs.flatMap f := by
  cases h with
  | mk before behind h =>
    rw [List.flatMap_append, List.flatMap_append, List.flatMap_cons, List.flatMap_cons, hf _ _ h]

theorem ReplacesOne.flatMap {α β : Type} {R : α → α → Prop} {S : β → β → Prop} {as bs : List α}
    (h : ReplacesOne R as bs) {f : α → List β} (hf : ∀ a b, R a b → ReplacesOne S (f a) (f b)) :
    ReplacesOne S (as.flatMap f) (bs.flatMap f) := by
  obtain @⟨a, b, before, behind, hab⟩ := h
  rw [List.flatMap_append, List.flatMap_append, List.flatMap_cons, List.flatMap_cons]
  have hr := hf a b hab
  generalize f a = xs at hr ⊢
  generalize f b = ys at hr ⊢
  obtain @⟨x, y, before', behind', hxy⟩ := hr
  have h := ReplacesOne.mk (before.flatMap f ++ before') (behind' ++ behind.flatMap f) hxy
  simpa using h

/-- A map from strings that keeps the order in which its keys were first inserted. -/
structure OrderedMap (α : Type) where
  entries : List (String × α)
  nodup : (entries.map Prod.fst).Nodup

namespace OrderedMap

variable {α : Type}

def empty : OrderedMap α := ⟨[], .nil⟩

def keys (m : OrderedMap α) : List String := m.entries.map Prod.fst

def values (m : OrderedMap α) : List α := m.entries.map Prod.snd

def size (m : OrderedMap α) : Nat := m.entries.length

def find? (m : OrderedMap α) (key : String) : Option α := m.entries.lookup key

def modify (m : OrderedMap α) (key : String) (f : α → α) : OrderedMap α where
  entries := m.entries.map fun (k, a) ↦ (k, if k = key then f a else a)
  nodup := by
    have h : (m.entries.map fun (k, a) ↦ (k, if k = key then f a else a)).map Prod.fst =
        m.entries.map Prod.fst := by
      rw [List.map_map]
      rfl
    exact h ▸ m.nodup

/-- A new key goes to the end; a key that is there keeps its place and takes the new value. -/
def insert (m : OrderedMap α) (key : String) (value : α) : OrderedMap α :=
  if h : key ∈ m.keys then m.modify key fun _ ↦ value
  else
    { entries := m.entries ++ [(key, value)]
      nodup := by
        rw [List.map_append]
        refine List.nodup_append.2 ⟨m.nodup, by simp, fun a ha b hb he ↦ h ?_⟩
        have hb : b = key := List.mem_singleton.1 hb
        exact hb ▸ he ▸ ha }

/-- The first place and the last value of each key. -/
def ofList (entries : List (String × α)) : OrderedMap α :=
  entries.foldl (fun m (key, value) ↦ m.insert key value) empty

theorem ext {m m' : OrderedMap α} (h : m.entries = m'.entries) : m = m' := by
  cases m
  cases m'
  simp_all

theorem mem_keys {m : OrderedMap α} {key : String} :
    key ∈ m.keys ↔ ∃ a, (key, a) ∈ m.entries := by
  simp [keys]

theorem find?_eq_some_iff {m : OrderedMap α} {key : String} {a : α} :
    m.find? key = some a ↔ (key, a) ∈ m.entries := by
  rw [find?, List.lookup_eq_some_iff]
  constructor
  · rintro ⟨before, behind, he, -⟩
    simp [he]
  · intro h
    obtain ⟨before, behind, he⟩ := List.append_of_mem h
    refine ⟨before, behind, he, fun e hb ↦ ?_⟩
    have hn := m.nodup
    rw [he, List.map_append, List.map_cons, List.nodup_append] at hn
    exact bne_iff_ne.2 fun hk ↦
      hn.2.2 e.1 (List.mem_map_of_mem hb) key List.mem_cons_self hk.symm

theorem value_unique {m : OrderedMap α} {key : String} {a b : α} (ha : (key, a) ∈ m.entries)
    (hb : (key, b) ∈ m.entries) : a = b :=
  Option.some.inj ((find?_eq_some_iff.2 ha).symm.trans (find?_eq_some_iff.2 hb))

theorem filter_key_eq (m : OrderedMap α) {e : String × α} (he : e ∈ m.entries) :
    m.entries.filter (·.1 == e.1) = [e] := by
  obtain ⟨before, behind, h⟩ := List.append_of_mem he
  have hn := m.nodup
  rw [h, List.map_append, List.map_cons, List.nodup_append, List.nodup_cons] at hn
  have hb : before.filter (·.1 == e.1) = [] := List.filter_eq_nil_iff.2 fun f hf ↦ by
    simpa using hn.2.2 f.1 (List.mem_map_of_mem hf) e.1 List.mem_cons_self
  have hb' : behind.filter (·.1 == e.1) = [] := List.filter_eq_nil_iff.2 fun f hf ↦ by
    simpa using fun hk : f.1 = e.1 ↦ hn.2.1.1 (hk ▸ List.mem_map_of_mem hf)
  simp [h, hb, hb']

theorem mem_entries_modify {m : OrderedMap α} {key : String} {f : α → α} {e : String × α} :
    e ∈ (m.modify key f).entries ↔
      ∃ a, (e.1, a) ∈ m.entries ∧ e.2 = if e.1 = key then f a else a := by
  obtain ⟨k, b⟩ := e
  simp only [modify, List.mem_map, Prod.mk.injEq, Prod.exists]
  constructor
  · rintro ⟨_, a, h, rfl, rfl⟩
    exact ⟨a, h, rfl⟩
  · intro ⟨a, h, hb⟩
    exact ⟨k, a, h, rfl, hb.symm⟩

theorem mem_entries_insert {m : OrderedMap α} {key : String} {value : α} {e : String × α} :
    e ∈ (m.insert key value).entries ↔ e = (key, value) ∨ e ∈ m.entries ∧ e.1 ≠ key := by
  obtain ⟨k, b⟩ := e
  rw [insert]
  split
  · next h =>
    obtain ⟨a, ha⟩ := mem_keys.1 h
    rw [mem_entries_modify]
    by_cases hk : k = key
    · subst hk
      simp only [if_true, Prod.mk.injEq, true_and, ne_eq, not_true_eq_false, and_false, or_false]
      exact ⟨fun ⟨_, _, hb⟩ ↦ hb, fun hb ↦ ⟨a, ha, hb⟩⟩
    · simp [hk]
  · next h =>
    rw [List.mem_append, List.mem_singleton, or_comm]
    refine or_congr_right (and_iff_left_of_imp fun he hk ↦ h ?_).symm
    exact mem_keys.2 ⟨b, hk ▸ he⟩

theorem find?_eq_none_iff {m : OrderedMap α} {key : String} :
    m.find? key = none ↔ key ∉ m.keys := by
  rw [mem_keys, Option.eq_none_iff_forall_ne_some, not_exists]
  exact forall_congr' fun a ↦ not_congr find?_eq_some_iff

theorem find?_modify {m : OrderedMap α} {key k : String} {f : α → α} :
    (m.modify key f).find? k = (m.find? k).map fun a ↦ if k = key then f a else a := by
  apply Option.ext
  intro b
  rw [find?_eq_some_iff, mem_entries_modify, Option.map_eq_some_iff]
  exact exists_congr fun a ↦ and_congr find?_eq_some_iff.symm eq_comm

theorem find?_insert {m : OrderedMap α} {key k : String} {value : α} :
    (m.insert key value).find? k = if k = key then some value else m.find? k := by
  apply Option.ext
  intro b
  rw [find?_eq_some_iff, mem_entries_insert]
  split
  · next h => simp [h, eq_comm]
  · next h => simp [h, find?_eq_some_iff]

theorem entries_insert_of_notMem {m : OrderedMap α} {key : String} {value : α}
    (h : key ∉ m.keys) : (m.insert key value).entries = m.entries ++ [(key, value)] := by
  rw [insert, dif_neg h]

theorem entries_modify (m : OrderedMap α) (key : String) (f : α → α) :
    (m.modify key f).entries = m.entries.map fun (k, a) ↦ (k, if k = key then f a else a) := rfl

theorem map_eq_self_of_ne {key : String} {f : α → α} {entries : List (String × α)}
    (h : ∀ e ∈ entries, e.1 ≠ key) :
    (entries.map fun (k, a) ↦ (k, if k = key then f a else a)) = entries := by
  refine (List.map_congr_left fun e he ↦ ?_).trans (List.map_id entries)
  simp [h e he]

theorem modify_eq_insert {m : OrderedMap α} {key : String} {a : α} (h : (key, a) ∈ m.entries)
    (f : α → α) : m.modify key f = m.insert key (f a) := by
  rw [insert, dif_pos (mem_keys.2 ⟨a, h⟩)]
  refine ext (List.map_congr_left ?_)
  rintro ⟨k, b⟩ he
  by_cases hk : k = key
  · subst hk
    simp [value_unique h he]
  · simp [hk]

theorem modify_insert {m : OrderedMap α} {key : String} {a : α} {f : α → α} (h : key ∉ m.keys) :
    (m.insert key a).modify key f = m.insert key (f a) := by
  have hk : ∀ e ∈ m.entries, e.1 ≠ key := fun e he hk ↦ h (mem_keys.2 ⟨e.2, hk ▸ he⟩)
  apply ext
  rw [entries_modify, entries_insert_of_notMem h, entries_insert_of_notMem h, List.map_append,
    map_eq_self_of_ne hk]
  simp

theorem replacesOne_modify {m : OrderedMap α} {key : String} {a : α} {f : α → α}
    (h : (key, a) ∈ m.entries) :
    ReplacesOne (fun e e' ↦ e = (key, a) ∧ e' = (key, f a)) m.entries (m.modify key f).entries := by
  obtain ⟨before, behind, he⟩ := List.append_of_mem h
  have hn := m.nodup
  rw [he, List.map_append, List.map_cons, List.nodup_append, List.nodup_cons] at hn
  have hbefore : ∀ e ∈ before, e.1 ≠ key := fun e hm ↦
    hn.2.2 e.1 (List.mem_map_of_mem hm) key List.mem_cons_self
  have hbehind : ∀ e ∈ behind, e.1 ≠ key := by
    rintro e hm rfl
    exact hn.2.1.1 (List.mem_map.2 ⟨e, hm, rfl⟩)
  rw [entries_modify, he, List.map_append, List.map_cons, map_eq_self_of_ne hbefore,
    map_eq_self_of_ne hbehind]
  exact .mk before behind ⟨rfl, by simp⟩

theorem foldl_insert_eq {entries : List (String × α)} {m : OrderedMap α}
    (h : ((m.entries ++ entries).map Prod.fst).Nodup) :
    (entries.foldl (fun m (key, value) ↦ m.insert key value) m).entries = m.entries ++ entries := by
  induction entries generalizing m with
  | nil => simp
  | cons e entries ih =>
    have hk : e.1 ∉ m.keys := by
      rw [List.map_append, List.map_cons, List.nodup_append] at h
      exact fun he ↦ h.2.2 e.1 he e.1 List.mem_cons_self rfl
    have hm : (m.insert e.1 e.2).entries = m.entries ++ [e] := entries_insert_of_notMem hk
    rw [List.foldl_cons, ih (by simpa [hm] using h), hm, ← List.append_cons]

theorem ofList_entries (m : OrderedMap α) : ofList m.entries = m :=
  ext (@foldl_insert_eq _ _ empty m.nodup)

end OrderedMap

end FunctorCalls
