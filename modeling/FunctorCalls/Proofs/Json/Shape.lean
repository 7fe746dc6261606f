import FunctorCalls.Json.Shape
import FunctorCalls.OrderedMap
import Mathlib.Data.List.Forall2

namespace FunctorCalls.Json.Shape

variable {ι : Type} {definition : ι → Shape ι}

/-- No name stands for another name, or for a shape with a null added. -/
def IsProper (definition : ι → Shape ι) : Prop :=
  ∀ i, (definition i).head definition = definition i ∧ (definition i).isNullable = false

theorem canonical?_eq_of_head_eq {shape shape' : Shape ι} {j : Json}
    (hh : shape.head definition = shape'.head definition)
    (hn : shape.isNullable = shape'.isNullable ∨ j ≠ .null) :
    shape.canonical? definition j = shape'.canonical? definition j := by
  cases j <;> simp_all [canonical?]

theorem canonical?_verbatim (j : Json) : canonical? definition .verbatim j = some j := by
  cases j <;> rfl

theorem canonical?_named (hd : IsProper definition) (i : ι) (j : Json) :
    canonical? definition (.named i) j = canonical? definition (definition i) j :=
  canonical?_eq_of_head_eq (hd i).1.symm (.inl (hd i).2.symm)

theorem canonical?_null {shape : Shape ι} : canonical? definition shape .null =
    if shape.isNullable then some .null
    else match shape.head definition with
      | verbatim => some .null
      | _ => none := rfl

theorem canonical?_nullable {shape : Shape ι} {j j' : Json} (hs : shape.isNullable = false)
    (h : canonical? definition shape j' = some j) :
    canonical? definition (.nullable shape) j' = some j := by
  by_cases hj : j' = .null
  · -- Apart from nullable shapes, null has the shape `verbatim` only, and is read as itself.
    subst hj
    rw [canonical?_null, hs] at h
    split at h
    · next he => cases he
    · split at h
      · exact h
      · cases h
  · have hh : (nullable shape).head definition = shape.head definition := by
      cases shape with
      | nullable => cases hs
      | _ => rfl
    exact (canonical?_eq_of_head_eq hh (.inr hj)).trans h

section Lists

theorem canonicalItems?_map {item : Shape ι} {items : List (Json × Json)}
    (h : ∀ i ∈ items, canonical? definition item i.2 = some i.1) :
    canonicalItems? definition item (items.map Prod.snd) = some (items.map Prod.fst) := by
  induction items with
  | nil => rfl
  | cons i items ih =>
    change (do
      return (← canonical? definition item i.2) ::
        (← canonicalItems? definition item (items.map Prod.snd))) = _
    rw [h i List.mem_cons_self, ih fun k hk ↦ h k (List.mem_cons_of_mem i hk)]
    rfl

theorem canonical?_list {item : Shape ι} {items : List (Json × Json)}
    (h : ∀ i ∈ items, canonical? definition item i.2 = some i.1) :
    canonical? definition (.list item) (.array (items.map Prod.snd)) =
      some (.array (items.map Prod.fst)) := by
  change (do return Json.array (← canonicalItems? definition item (items.map Prod.snd))) = _
  rw [canonicalItems?_map h]
  rfl

theorem canonicalEach?_map {items : List (Shape ι × Json × Json)}
    (h : ∀ i ∈ items, canonical? definition i.1 i.2.2 = some i.2.1) :
    canonicalEach? definition (items.map Prod.fst) (items.map fun i ↦ i.2.2) =
      some (items.map fun i ↦ i.2.1) := by
  induction items with
  | nil => rfl
  | cons i items ih =>
    change (do
      return (← canonical? definition i.1 i.2.2) ::
        (← canonicalEach? definition (items.map Prod.fst)
          (items.map fun k : Shape ι × Json × Json ↦ k.2.2))) = _
    rw [h i List.mem_cons_self, ih fun k hk ↦ h k (List.mem_cons_of_mem i hk)]
    rfl

theorem canonical?_tuple {items : List (Shape ι × Json × Json)}
    (h : ∀ i ∈ items, canonical? definition i.1 i.2.2 = some i.2.1) :
    canonical? definition (.tuple (items.map Prod.fst)) (.array (items.map fun i ↦ i.2.2)) =
      some (.array (items.map fun i ↦ i.2.1)) := by
  change (do
    return Json.array (← canonicalEach? definition (items.map Prod.fst)
      (items.map fun k : Shape ι × Json × Json ↦ k.2.2))) = _
  rw [canonicalEach?_map h]
  rfl

end Lists

section Fields

variable {shape? : String → Option (Shape ι)} {fields fields' given : List (String × Json)}

theorem canonicalFields?_nil : canonicalFields? definition shape? [] = some [] := rfl

theorem canonicalFields?_cons_of_none {f : String × Json} (hf : shape? f.1 = none) :
    canonicalFields? definition shape? (f :: fields) =
      canonicalFields? definition shape? fields := by
  obtain ⟨name, j⟩ := f
  rw [canonicalFields?, hf]

theorem canonicalFields?_cons_of_some {f : String × Json} {shape : Shape ι}
    (hf : shape? f.1 = some shape) :
    canonicalFields? definition shape? (f :: fields) = do
      return (f.1, ← canonical? definition shape f.2) ::
        (← canonicalFields? definition shape? fields) := by
  obtain ⟨name, j⟩ := f
  rw [canonicalFields?, hf]

theorem canonicalFields?_cons_eq_some_iff {f : String × Json} :
    canonicalFields? definition shape? (f :: fields) = some given ↔
      ∃ a r, canonicalFields? definition shape? [f] = some a ∧
        canonicalFields? definition shape? fields = some r ∧ a ++ r = given := by
  cases hf : shape? f.1 with
  | none =>
    rw [canonicalFields?_cons_of_none hf, canonicalFields?_cons_of_none hf]
    simp [canonicalFields?_nil]
  | some shape =>
    rw [canonicalFields?_cons_of_some hf, canonicalFields?_cons_of_some hf]
    cases canonical? definition shape f.2 <;>
      cases canonicalFields? definition shape? fields <;> simp [canonicalFields?_nil]

theorem exists_canonicalFields?_of_perm (h : fields.Perm fields')
    (hf : canonicalFields? definition shape? fields = some given) :
    ∃ given', canonicalFields? definition shape? fields' = some given' ∧ given.Perm given' := by
  induction h generalizing given with
  | nil => exact ⟨given, hf, .refl given⟩
  | cons f _ ih =>
    obtain ⟨a, r, ha, hr, rfl⟩ := canonicalFields?_cons_eq_some_iff.1 hf
    obtain ⟨r', hr', hp⟩ := ih hr
    exact ⟨a ++ r', canonicalFields?_cons_eq_some_iff.2 ⟨a, r', ha, hr', rfl⟩, hp.append_left a⟩
  | swap f g fields =>
    obtain ⟨a, r', ha, hfr, rfl⟩ := canonicalFields?_cons_eq_some_iff.1 hf
    obtain ⟨b, r, hb, hr, rfl⟩ := canonicalFields?_cons_eq_some_iff.1 hfr
    have hg := canonicalFields?_cons_eq_some_iff.2 ⟨a, r, ha, hr, rfl⟩
    exact ⟨b ++ (a ++ r), canonicalFields?_cons_eq_some_iff.2 ⟨b, a ++ r, hb, hg, rfl⟩,
      List.perm_append_comm_assoc a b r⟩
  | trans _ _ ih ih' =>
    obtain ⟨r, hr, hp⟩ := ih hf
    obtain ⟨r', hr', hp'⟩ := ih' hr
    exact ⟨r', hr', hp.trans hp'⟩

theorem canonicalFields?_map_append {entries : List (String × Json × Json)}
    {unknown : List (String × Json)}
    (h : ∀ e ∈ entries, ∃ shape, shape? e.1 = some shape ∧
      canonical? definition shape e.2.2 = some e.2.1)
    (hu : ∀ u ∈ unknown, shape? u.1 = none) :
    canonicalFields? definition shape? (entries.map (fun e ↦ (e.1, e.2.2)) ++ unknown) =
      some (entries.map fun e ↦ (e.1, e.2.1)) := by
  induction entries with
  | nil =>
    induction unknown with
    | nil => rfl
    | cons u unknown ih =>
      exact (canonicalFields?_cons_of_none (hu u List.mem_cons_self)).trans
        (ih fun v hv ↦ hu v (List.mem_cons_of_mem u hv))
  | cons e entries ih =>
    obtain ⟨shape, hs, he⟩ := h e List.mem_cons_self
    rw [List.map_cons, List.cons_append, canonicalFields?_cons_of_some hs, he,
      ih fun d hd ↦ h d (List.mem_cons_of_mem e hd)]
    rfl

theorem canonical?_map {item : Shape ι} {entries : List (String × Json × Json)}
    (h : ∀ e ∈ entries, canonical? definition item e.2.2 = some e.2.1) :
    canonical? definition (.map item) (.object (entries.map fun e ↦ (e.1, e.2.2))) =
      some (.object (entries.map fun e ↦ (e.1, e.2.1))) := by
  have hf : canonicalFields? definition (fun _ ↦ some item)
      (entries.map (fun e ↦ (e.1, e.2.2)) ++ []) = some (entries.map fun e ↦ (e.1, e.2.1)) :=
    canonicalFields?_map_append (fun e he ↦ ⟨item, rfl, h e he⟩) (List.forall_mem_nil _)
  rw [List.append_nil] at hf
  change (do
    return Json.object (← canonicalFields? definition (fun _ ↦ some item)
      (entries.map fun e : String × Json × Json ↦ (e.1, e.2.2)))) = _
  rw [hf]
  rfl

end Fields

section Records

structure Field (ι : Type) where
  name : String
  presence : Presence
  shape : Shape ι
  value : Json
  given : Json

namespace Field

def declared (f : Field ι) : String × Presence × Shape ι := (f.name, f.presence, f.shape)

def entry (f : Field ι) : String × Json := (f.name, f.value)

def givenEntry (f : Field ι) : String × Json := (f.name, f.given)

end Field

variable {fields kept leftOut : List (Field ι)}

theorem lookup_declared (hn : (fields.map Field.name).Nodup) {f : Field ι} (hf : f ∈ fields) :
    (fields.map Field.declared).lookup f.name = some (f.presence, f.shape) := by
  have hkeys : ((fields.map Field.declared).map Prod.fst).Nodup := by
    rwa [List.map_map]
  exact (@OrderedMap.find?_eq_some_iff _ ⟨_, hkeys⟩ _ _).2 (List.mem_map_of_mem hf)

theorem lookup_declared_eq_none {name : String} (h : name ∉ fields.map Field.name) :
    (fields.map Field.declared).lookup name = none := by
  rw [List.lookup_eq_none_iff]
  intro d hd
  obtain ⟨f, hf, rfl⟩ := List.mem_map.1 hd
  have hne : name ≠ f.name := by
    rintro rfl
    exact h (List.mem_map_of_mem hf)
  exact bne_iff_ne.2 hne

theorem arrange?_map {given : List (String × Json)}
    (h : ∀ f ∈ fields, given.filter (·.1 == f.name) = [f.entry] ∨
      given.filter (·.1 == f.name) = [] ∧ f.presence.inObject? = some f.value) :
    arrange? given (fields.map Field.declared) = some (fields.map Field.entry) := by
  induction fields with
  | nil => rfl
  | cons f fields ih =>
    have hi := ih fun g hg ↦ h g (List.mem_cons_of_mem f hg)
    rw [List.map_cons, Field.declared, arrange?, hi]
    rcases h f List.mem_cons_self with hf | ⟨hf, hp⟩
    · rw [hf]
      rfl
    · rw [hf]
      simp only [hp]
      rfl

theorem canonicalFields?_declared {unknown : List (String × Json)}
    (hn : (fields.map Field.name).Nodup) (hs : ∀ f ∈ kept, f ∈ fields)
    (hk : ∀ f ∈ kept, canonical? definition f.shape f.given = some f.value)
    (hu : ∀ u ∈ unknown, u.1 ∉ fields.map Field.name) :
    canonicalFields? definition
      (fun name ↦ ((fields.map Field.declared).lookup name).map Prod.snd)
      (kept.map Field.givenEntry ++ unknown) = some (kept.map Field.entry) := by
  let shape? (name : String) := ((fields.map Field.declared).lookup name).map Prod.snd
  have he : ∀ e ∈ kept.map fun f ↦ (f.name, f.value, f.given),
      ∃ shape, shape? e.1 = some shape ∧ canonical? definition shape e.2.2 = some e.2.1 := by
    intro e he
    obtain ⟨f, hf, rfl⟩ := List.mem_map.1 he
    exact ⟨f.shape, congrArg (Option.map Prod.snd) (lookup_declared hn (hs f hf)), hk f hf⟩
  have hnone : ∀ u ∈ unknown, shape? u.1 = none := fun u hum ↦
    congrArg (Option.map Prod.snd) (lookup_declared_eq_none (hu u hum))
  have h := canonicalFields?_map_append he hnone
  rw [List.map_map, List.map_map] at h
  exact h

theorem arrange?_of_perm {read : List (String × Json)} (hn : (fields.map Field.name).Nodup)
    (hf : fields.Perm (kept ++ leftOut)) (hl : ∀ f ∈ leftOut, f.presence.inObject? = some f.value)
    (hr : read.Perm (kept.map Field.entry)) :
    arrange? read (fields.map Field.declared) = some (fields.map Field.entry) := by
  have hnames : (kept.map Field.name ++ leftOut.map Field.name).Nodup := by
    rw [← List.map_append]
    exact (hf.map Field.name).nodup_iff.1 hn
  obtain ⟨hkept, -, hne⟩ := List.nodup_append.1 hnames
  refine arrange?_map fun f hff ↦ ?_
  have hp := hr.filter (·.1 == f.name)
  rcases List.mem_append.1 (hf.mem_iff.1 hff) with h | h
  · have hone : (kept.map Field.entry).filter (·.1 == f.name) = [f.entry] :=
      OrderedMap.filter_key_eq ⟨kept.map Field.entry, by rwa [List.map_map]⟩ (List.mem_map_of_mem h)
    rw [hone] at hp
    exact .inl (List.perm_singleton.1 hp)
  · have hnone : (kept.map Field.entry).filter (·.1 == f.name) = [] := by
      refine List.filter_eq_nil_iff.2 fun e he ↦ ?_
      obtain ⟨g, hg, rfl⟩ := List.mem_map.1 he
      have hgf := hne g.name (List.mem_map_of_mem hg) f.name (List.mem_map_of_mem h)
      simpa [Field.entry] using hgf
    rw [hnone] at hp
    exact .inr ⟨List.perm_nil.1 hp, hl f h⟩

/-- The fields are given in any order and among others. Some may be left out, as far as this means
the value that they have. -/
theorem canonical?_fields {unknown given : List (String × Json)}
    (hn : (fields.map Field.name).Nodup) (hf : fields.Perm (kept ++ leftOut))
    (hk : ∀ f ∈ kept, canonical? definition f.shape f.given = some f.value)
    (hl : ∀ f ∈ leftOut, f.presence.inObject? = some f.value)
    (hu : ∀ u ∈ unknown, u.1 ∉ fields.map Field.name)
    (hg : given.Perm (kept.map Field.givenEntry ++ unknown)) :
    canonical? definition (.record (fields.map Field.declared)) (.object given) =
      some (.object (fields.map Field.entry)) := by
  have hs : ∀ f ∈ kept, f ∈ fields := fun f h ↦ hf.mem_iff.2 (List.mem_append_left _ h)
  obtain ⟨read, hr, hp⟩ :=
    exists_canonicalFields?_of_perm hg.symm (canonicalFields?_declared hn hs hk hu)
  change (do
    let given ← canonicalFields? definition
      (fun name ↦ ((fields.map Field.declared).lookup name).map Prod.snd) given
    return Json.object (← arrange? given (fields.map Field.declared))) = _
  rw [hr, Option.bind_eq_bind, Option.bind_some, arrange?_of_perm hn hf hl hp.symm]
  rfl

theorem canonical?_places
    (h : ∀ f ∈ fields, canonical? definition f.shape f.given = some f.value) :
    canonical? definition (.record (fields.map Field.declared)) (.array (fields.map Field.given)) =
      some (.object (fields.map Field.entry)) := by
  have hp : canonicalPlaces? definition (fields.map Field.declared) (fields.map Field.given) =
      some (fields.map Field.entry) := by
    induction fields with
    | nil => rfl
    | cons f fields ih =>
      change (do
        return (f.name, ← canonical? definition f.shape f.given) ::
          (← canonicalPlaces? definition (fields.map Field.declared)
            (fields.map Field.given))) = _
      rw [h f List.mem_cons_self, ih fun g hg ↦ h g (List.mem_cons_of_mem f hg)]
      rfl
  change (do
    return Json.object (← canonicalPlaces? definition (fields.map Field.declared)
      (fields.map Field.given))) = _
  rw [hp]
  rfl

end Records

section Cases

variable {cs : List (String × Option (Shape ι))} {tag : String}

theorem canonical?_plain (ht : cs.lookup tag = some none) :
    canonical? definition (.cases cs) (.string tag) = some (.string tag) := by
  simp [canonical?, head, ht]

theorem canonical?_plainObject (ht : cs.lookup tag = some none) :
    canonical? definition (.cases cs) (.object [(tag, .null)]) = some (.string tag) := by
  simp [canonical?, head, canonicalCase?, ht]

theorem canonical?_content {shape : Shape ι} {j j' : Json}
    (ht : cs.lookup tag = some (some shape)) (h : canonical? definition shape j' = some j) :
    canonical? definition (.cases cs) (.object [(tag, j')]) = some (.object [(tag, j)]) := by
  simp [canonical?, head, canonicalCase?, ht, h]

end Cases

end FunctorCalls.Json.Shape
