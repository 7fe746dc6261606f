import FunctorCalls.Proofs.Json.Shape

namespace FunctorCalls.Json.Shape

variable {ι : Type}

/-- The second document presents the first one, which is canonical. A record is presented by an
object of its fields in any order, without some that are understood where they are left out and with
any others that are not declared, or by the array of all its fields. A plain case is also presented
by an object that holds null. Lists and maps keep their order. -/
inductive Presents (definition : ι → Shape ι) : Shape ι → Json → Json → Prop
  | verbatim (j : Json) : Presents definition .verbatim j j
  | named {i : ι} {j j' : Json} :
      Presents definition (definition i) j j' → Presents definition (.named i) j j'
  | null (shape : Shape ι) : Presents definition (.nullable shape) .null .null
  | nonnull {shape : Shape ι} {j j' : Json} : shape.isNullable = false →
      Presents definition shape j j' → Presents definition (.nullable shape) j j'
  | list {item : Shape ι} (items : List (Json × Json)) :
      (∀ i ∈ items, Presents definition item i.1 i.2) →
        Presents definition (.list item) (.array (items.map Prod.fst)) (.array (items.map Prod.snd))
  | tuple (items : List (Shape ι × Json × Json)) :
      (∀ i ∈ items, Presents definition i.1 i.2.1 i.2.2) →
        Presents definition (.tuple (items.map Prod.fst)) (.array (items.map fun i ↦ i.2.1))
          (.array (items.map fun i ↦ i.2.2))
  | map {item : Shape ι} (entries : List (String × Json × Json)) :
      (∀ e ∈ entries, Presents definition item e.2.1 e.2.2) →
        Presents definition (.map item) (.object (entries.map fun e ↦ (e.1, e.2.1)))
          (.object (entries.map fun e ↦ (e.1, e.2.2)))
  | fields {fields : List (Field ι)} (kept leftOut : List (Field ι))
      {unknown given : List (String × Json)} :
      (fields.map Field.name).Nodup → fields.Perm (kept ++ leftOut) →
      (∀ f ∈ kept, Presents definition f.shape f.value f.given) →
      (∀ f ∈ leftOut, f.presence.inObject? = some f.value) →
      (∀ u ∈ unknown, u.1 ∉ fields.map Field.name) →
      given.Perm (kept.map Field.givenEntry ++ unknown) →
        Presents definition (.record (fields.map Field.declared))
          (.object (fields.map Field.entry)) (.object given)
  | places {fields : List (Field ι)} :
      (∀ f ∈ fields, Presents definition f.shape f.value f.given) →
        Presents definition (.record (fields.map Field.declared))
          (.object (fields.map Field.entry)) (.array (fields.map Field.given))
  | plain {cs : List (String × Option (Shape ι))} {tag : String} : cs.lookup tag = some none →
      Presents definition (.cases cs) (.string tag) (.string tag)
  | plainObject {cs : List (String × Option (Shape ι))} {tag : String} :
      cs.lookup tag = some none →
        Presents definition (.cases cs) (.string tag) (.object [(tag, .null)])
  | content {cs : List (String × Option (Shape ι))} {tag : String} {shape : Shape ι} {j j' : Json} :
      cs.lookup tag = some (some shape) → Presents definition shape j j' →
        Presents definition (.cases cs) (.object [(tag, j)]) (.object [(tag, j')])

variable {definition : ι → Shape ι} {shape : Shape ι} {j j' : Json}

theorem Presents.canonical?_eq (hd : IsProper definition) (h : Presents definition shape j j') :
    canonical? definition shape j' = some j := by
  induction h with
  | verbatim j => exact canonical?_verbatim j
  | named h ih => exact (canonical?_named hd _ _).trans ih
  | null shape => rfl
  | nonnull hs h ih => exact canonical?_nullable hs ih
  | list items h ih => exact canonical?_list ih
  | tuple items h ih => exact canonical?_tuple ih
  | map entries h ih => exact canonical?_map ih
  | fields kept leftOut hn hf hk hl hu hg ih => exact canonical?_fields hn hf ih hl hu hg
  | places h ih => exact canonical?_places ih
  | plain ht => exact canonical?_plain ht
  | plainObject ht => exact canonical?_plainObject ht
  | content ht h ih => exact canonical?_content ht ih

/-- The document has the shape, and is canonical already. -/
def Fits (definition : ι → Shape ι) (shape : Shape ι) (j : Json) : Prop :=
  Presents definition shape j j

theorem fits_verbatim (j : Json) : Fits definition .verbatim j := .verbatim j

theorem fits_named {i : ι} (h : Fits definition (definition i) j) : Fits definition (.named i) j :=
  .named h

theorem fits_null (shape : Shape ι) : Fits definition (.nullable shape) .null := .null shape

theorem Fits.ne_null (hd : IsProper definition) (h : Fits definition shape j)
    (hs : shape.canonical? definition .null = none) : j ≠ .null := by
  rintro rfl
  cases (Presents.canonical?_eq hd h).symm.trans hs

theorem fits_nullable (hs : shape.canonical? definition .null = none)
    (h : Fits definition shape j) : Fits definition (.nullable shape) j := by
  refine .nonnull ?_ h
  cases shape with
  | nullable shape => cases hs
  | _ => rfl

theorem fits_list {item : Shape ι} {js : List Json} (h : ∀ j ∈ js, Fits definition item j) :
    Fits definition (.list item) (.array js) := by
  have hi : ∀ i ∈ js.map fun j ↦ (j, j), Presents definition item i.1 i.2 :=
    List.forall_mem_map.2 h
  simpa [Fits, Function.comp_def] using Presents.list _ hi

theorem fits_tuple {items : List (Shape ι)} {js : List Json}
    (h : List.Forall₂ (Fits definition) items js) :
    Fits definition (.tuple items) (.array js) := by
  obtain ⟨parts, rfl, rfl, hp⟩ : ∃ parts : List (Shape ι × Json), parts.map Prod.fst = items ∧
      parts.map Prod.snd = js ∧ ∀ p ∈ parts, Fits definition p.1 p.2 := by
    induction h with
    | nil => exact ⟨[], rfl, rfl, List.forall_mem_nil _⟩
    | @cons item j items js hj h ih =>
      obtain ⟨parts, rfl, rfl, hp⟩ := ih
      exact ⟨(item, j) :: parts, rfl, rfl, List.forall_mem_cons.2 ⟨hj, hp⟩⟩
  have hi : ∀ i ∈ parts.map fun p ↦ (p.1, p.2, p.2), Presents definition i.1 i.2.1 i.2.2 :=
    List.forall_mem_map.2 hp
  simpa [Fits, Function.comp_def] using Presents.tuple _ hi

theorem fits_map {item : Shape ι} {fields : List (String × Json)}
    (h : ∀ f ∈ fields, Fits definition item f.2) :
    Fits definition (.map item) (.object fields) := by
  have he : ∀ e ∈ fields.map fun f ↦ (f.1, f.2, f.2), Presents definition item e.2.1 e.2.2 :=
    List.forall_mem_map.2 h
  simpa [Fits, Function.comp_def] using Presents.map _ he

section Records

/-- The declared fields, under their names and in their order, and what is given for them. -/
inductive FieldsPresent (definition : ι → Shape ι) : List (String × Json) →
    List (String × Presence × Shape ι) → List (String × Json) → Prop
  | nil : FieldsPresent definition [] [] []
  | cons {name : String} {j j' : Json} {presence : Presence} {shape : Shape ι}
      {fields given : List (String × Json)} {declared : List (String × Presence × Shape ι)} :
      Presents definition shape j j' → FieldsPresent definition fields declared given →
        FieldsPresent definition ((name, j) :: fields) ((name, presence, shape) :: declared)
          ((name, j') :: given)
  | skip {name : String} {j : Json} {presence : Presence} {shape : Shape ι}
      {fields given : List (String × Json)} {declared : List (String × Presence × Shape ι)} :
      presence.inObject? = some j → FieldsPresent definition fields declared given →
        FieldsPresent definition ((name, j) :: fields) ((name, presence, shape) :: declared) given

variable {fields given given' unknown : List (String × Json)}
  {declared : List (String × Presence × Shape ι)}

theorem FieldsPresent.exists_fields (h : FieldsPresent definition fields declared given) :
    ∃ fs kept leftOut : List (Field ι), fs.map Field.declared = declared ∧
      fs.map Field.entry = fields ∧ kept.map Field.givenEntry = given ∧
      fs.Perm (kept ++ leftOut) ∧ (∀ f ∈ kept, Presents definition f.shape f.value f.given) ∧
      ∀ f ∈ leftOut, f.presence.inObject? = some f.value := by
  induction h with
  | nil => exact ⟨[], [], [], rfl, rfl, rfl, .nil, List.forall_mem_nil _, List.forall_mem_nil _⟩
  | @cons name j j' presence shape fields given declared hj h ih =>
    obtain ⟨fs, kept, leftOut, rfl, rfl, rfl, hf, hk, hl⟩ := ih
    exact ⟨⟨name, presence, shape, j, j'⟩ :: fs, ⟨name, presence, shape, j, j'⟩ :: kept, leftOut,
      rfl, rfl, rfl, hf.cons _, List.forall_mem_cons.2 ⟨hj, hk⟩, hl⟩
  | @skip name j presence shape fields given declared hj h ih =>
    obtain ⟨fs, kept, leftOut, rfl, rfl, rfl, hf, hk, hl⟩ := ih
    exact ⟨⟨name, presence, shape, j, j⟩ :: fs, kept, ⟨name, presence, shape, j, j⟩ :: leftOut,
      rfl, rfl, rfl, (hf.cons _).trans List.perm_middle.symm, hk, List.forall_mem_cons.2 ⟨hj, hl⟩⟩

theorem presents_record (hn : (declared.map Prod.fst).Nodup)
    (h : FieldsPresent definition fields declared given)
    (hu : ∀ u ∈ unknown, u.1 ∉ declared.map Prod.fst) (hg : given'.Perm (given ++ unknown)) :
    Presents definition (.record declared) (.object fields) (.object given') := by
  obtain ⟨fs, kept, leftOut, rfl, rfl, rfl, hf, hk, hl⟩ := h.exists_fields
  rw [List.map_map] at hn hu
  exact .fields kept leftOut hn hf hk hl hu hg

theorem fits_record (hn : (declared.map Prod.fst).Nodup)
    (h : FieldsPresent definition fields declared fields) :
    Fits definition (.record declared) (.object fields) :=
  presents_record hn h (List.forall_mem_nil _) (.of_eq (List.append_nil fields).symm)

end Records

section Cases

variable {cs : List (String × Option (Shape ι))} {tag : String}

theorem fits_plain_case (ht : cs.lookup tag = some none) :
    Fits definition (.cases cs) (.string tag) :=
  .plain ht

theorem fits_case (ht : cs.lookup tag = some (some shape)) (h : Fits definition shape j) :
    Fits definition (.cases cs) (.object [(tag, j)]) :=
  .content ht h

end Cases

end FunctorCalls.Json.Shape
