import FunctorCalls.Build
import FunctorCalls.Proofs.Format.Program

namespace FunctorCalls.Format

open Json.Shape (Presents FieldsPresent)

/-- The text presents the value: it is one of the texts of a document that presents the canonical
one. -/
def IsTextOf {α : Type} [Format α] (text : String) (a : α) : Prop :=
  ∃ j, Presents Form.definition (shape α) (toJson a) j ∧ j.Written text

theorem ReadsBack.isTextOf {α : Type} [Format α] {a : α} (h : ReadsBack a) : IsTextOf (text a) a :=
  ⟨toJson a, h.fits, Json.written_print Json.Style.isBlank_compact _⟩

/-- Fields in any order and among others, records as arrays, nulls left out, plain cases as objects
and blanks between tokens, all of them at any depth: what is read is the program, and so its graph
is the same. The text that is written is one of those. -/
theorem presented_programs_read_back {p : Program} (hp : PlainNumbers p.Holds) :
    IsTextOf (text p) p ∧ ∀ text, IsTextOf text p →
      read? text = some p ∧ (read? text).map Program.callGraph = some p.callGraph := by
  refine ⟨hp.readsBack_program.isTextOf, fun text h ↦ ?_⟩
  obtain ⟨j, hj, ht⟩ := h
  have hr : read? text = some p := hp.readsBack_program.read?_eq hj ht
  exact ⟨hr, by rw [hr, Option.map_some]⟩

section Scrambled

def sampleName : Name := ⟨"Lib", "π\x22"⟩

def sampleImplementation : Implementation := .provided .discard sampleBody

def givenName : Json := .array [.string "Lib", .string "π\x22"]

def givenBody : Json :=
  .object [("parent", givenName), ("kind", .object [("Body", .null)]),
    ("implementation", toJson sampleImplementation)]

/-- A field that is not declared; nothing in it can be read. -/
def givenNote : String × Json :=
  ("note", .array [.illFormed, .object [("name", .null), ("name", .null)]])

def givenCallable : Json :=
  .object [givenNote,
    ("specializations", .array [givenBody,
      toJson (⟨sampleName, .adjoint, some [], .generated .invert⟩ : Specialization)]),
    ("signature", toJson sampleCallable.signature),
    ("kind", .object [("Operation", .null)]), ("name", givenName)]

def givenSample : Json :=
  .array [.object [("", .object
    [("callables", .object [("b", givenCallable), ("a", toJson sampleCallable)]),
      ("name", .string "Lib")])]]

theorem presents_name : Presents Form.definition (shape Name) (toJson sampleName) givenName :=
  @Presents.places Form Form.definition
    [⟨"namespace", .required, .verbatim, .string "Lib", .string "Lib"⟩,
      ⟨"name", .required, .verbatim, .string "π\x22", .string "π\x22"⟩]
    (List.forall_mem_cons.2 ⟨.verbatim _, List.forall_mem_singleton.2 (.verbatim _)⟩)

theorem presents_body (h : ReadsBack sampleImplementation) :
    Presents Form.definition (shape Specialization)
      (toJson (⟨sampleName, .body, none, sampleImplementation⟩ : Specialization)) givenBody :=
  Json.Shape.presents_record (by decide)
    (.cons presents_name (.cons (.plainObject rfl) (.skip rfl (.cons h.fits .nil))))
    (List.forall_mem_nil _) (.of_eq rfl)

theorem presents_callable (h : ReadsBack sampleImplementation) :
    Presents Form.definition (shape Callable) (toJson sampleCallable) givenCallable := by
  have ha : ReadsBack (⟨sampleName, .adjoint, some [], .generated .invert⟩ : Specialization) :=
    Specialization.readsBack fun body hb ↦ by cases hb
  have hs : Presents Form.definition (shape (List Specialization))
      (toJson sampleCallable.specializations) (.array [givenBody, toJson _]) :=
    .list [(_, givenBody), (_, _)]
      (List.forall_mem_cons.2 ⟨presents_body h, List.forall_mem_singleton.2 ha.fits⟩)
  have ht : ReadsBack sampleCallable.signature := Legible.readsBack _
  have hn : givenNote.1 ∉ ["name", "kind", "signature", "specializations"] := by
    decide
  exact Json.Shape.presents_record (by decide)
    (.cons presents_name (.cons (.plainObject rfl) (.cons ht.fits (.cons hs .nil))))
    (List.forall_mem_singleton.2 hn) (List.reverse_perm [_, _, _, _, givenNote])

theorem presents_sample : Presents Form.definition (shape Program) (toJson sample) givenSample := by
  have hp : PlainNumbers sampleCallable.Holds := plainNumbers_sample.mono fun x hx ↦
    ⟨_, List.mem_singleton_self _, sampleCallable, List.mem_cons_self, hx⟩
  have hb : PlainNumbers (Node.scope sampleBody).Holds := hp.mono fun x hx ↦
    ⟨_, List.mem_cons_self, sampleBody, rfl, hx⟩
  have hi : ReadsBack sampleImplementation := Implementation.readsBack fun body h ↦ by
    cases h
    exact hb.readsBack_node
  have hc : ReadsBack sampleCallable := hp.readsBack_callable
  have hcs : Presents Form.definition (shape (OrderedMap Callable))
      (.object [("b", toJson sampleCallable), ("a", toJson sampleCallable)])
      (.object [("b", givenCallable), ("a", toJson sampleCallable)]) :=
    .map [("b", _, givenCallable), ("a", _, _)]
      (List.forall_mem_cons.2 ⟨presents_callable hi, List.forall_mem_singleton.2 hc.fits⟩)
  have hn : Presents Form.definition (shape Namespace) _ _ :=
    Json.Shape.presents_record (by decide) (.cons (.verbatim (.string "Lib")) (.cons hcs .nil))
      (List.forall_mem_nil _) (.swap _ _ [])
  have hns : Presents Form.definition (shape (OrderedMap Namespace)) _ _ :=
    .map [("", _, _)] (List.forall_mem_singleton.2 hn)
  exact @Presents.places Form Form.definition
    [⟨"namespaces", .required, shape (OrderedMap Namespace), _, _⟩]
    (List.forall_mem_singleton.2 hns)

theorem isTextOf_sample : IsTextOf (givenSample.print .indented) sample :=
  ⟨givenSample, presents_sample, Json.written_print Json.Style.isBlank_indented _⟩

theorem presented_programs_read_back_scrambled : PlainNumbers sample.Holds ∧
    IsTextOf (givenSample.print .indented) sample ∧
      read? (givenSample.print .indented) = some sample :=
  ⟨plainNumbers_sample, isTextOf_sample,
    ((presented_programs_read_back plainNumbers_sample).2 _ isTextOf_sample).1⟩

end Scrambled

end FunctorCalls.Format
