import FunctorCalls.Proofs.Agreement
import FunctorCalls.Proofs.Frames
import FunctorCalls.Proofs.StoreAnswers

namespace FunctorCalls

open Change Relation

/-- One list holds what the other one does, up to `R`, in any order and any number of times. -/
def SameUpTo {α : Type} (R : α → α → Prop) (as bs : List α) : Prop :=
  (∀ a ∈ as, ∃ b ∈ bs, R a b) ∧ ∀ b ∈ bs, ∃ a ∈ as, R a b

theorem SameUpTo.refl {α : Type} {R : α → α → Prop} {as : List α} (h : ∀ a ∈ as, R a a) :
    SameUpTo R as as :=
  ⟨fun a ha ↦ ⟨a, ha, h a ha⟩, fun a ha ↦ ⟨a, ha, h a ha⟩⟩

theorem SameUpTo.singleton {α : Type} {R : α → α → Prop} {a b : α} (h : R a b) :
    SameUpTo R [a] [b] := by
  simp [SameUpTo, h]

theorem SameUpTo.mem_flatMap_iff {α β : Type} {R : α → α → Prop} {as bs : List α}
    (h : SameUpTo R as bs) {f : α → List β} (hf : ∀ a b, R a b → ∀ x, x ∈ f a ↔ x ∈ f b) (x : β) :
    x ∈ as.flatMap f ↔ x ∈ bs.flatMap f := by
  rw [List.mem_flatMap, List.mem_flatMap]
  constructor
  · intro ⟨a, ha, hx⟩
    obtain ⟨b, hb, hab⟩ := h.1 a ha
    exact ⟨b, hb, (hf a b hab x).1 hx⟩
  · intro ⟨b, hb, hx⟩
    obtain ⟨a, ha, hab⟩ := h.2 b hb
    exact ⟨a, ha, (hf a b hab x).2 hx⟩

theorem ReplacesOne.sameUpTo {α : Type} {R : α → α → Prop} {as bs : List α}
    (h : ReplacesOne R as bs) : SameUpTo (fun a b ↦ a = b ∨ R a b) as bs := by
  obtain @⟨x, y, before, behind, hxy⟩ := h
  constructor <;> intro a ha <;> simp only [List.mem_append, List.mem_cons] at ha ⊢ <;> grind

inductive Node.Reordered : Node → Node → Prop
  | statements {ss ss' : List Stmt} :
      (∀ s, s ∈ ss ↔ s ∈ ss') → Reordered (.scope ⟨ss⟩) (.scope ⟨ss'⟩)
  | items {es es' : List Expr} (ty : Ty) (span : Option Span) :
      es.Perm es' → Reordered (.expr ⟨.array es, ty, span⟩) (.expr ⟨.array es', ty, span⟩)

def Scope.Rearranged (s s' : Scope) : Prop :=
  ReflTransGen (Node.Changes Node.Reordered) (.scope s) (.scope s')

inductive Specialization.Rearranged : Specialization → Specialization → Prop
  | refl (s : Specialization) : Rearranged s s
  | body {body body' : Scope} (i : Instance) (argument : Pattern) :
      body.Rearranged body' →
      Rearranged ⟨i.callable, i.variant, i.typeArgs, .provided argument body⟩
        ⟨i.callable, i.variant, i.typeArgs, .provided argument body'⟩

structure Callable.Rearranged (c d : Callable) : Prop where
  name : c.name = d.name
  kind : c.kind = d.kind
  signature : c.signature = d.signature
  specializations : SameUpTo Specialization.Rearranged c.specializations d.specializations

/-- Keys are not repeated, so that the entries of the map are in another order at most. -/
structure Namespace.Rearranged (n m : Namespace) : Prop where
  name : n.name = m.name
  callables : SameUpTo (fun e f ↦ e.1 = f.1 ∧ e.2.Rearranged f.2) n.callables.entries
    m.callables.entries

def Program.Rearranged (p q : Program) : Prop :=
  SameUpTo (fun e f ↦ e.1 = f.1 ∧ e.2.Rearranged f.2) p.namespaces.entries q.namespaces.entries

namespace Node

theorem Reordered.mem_references_iff {m n : Node} (h : m.Reordered n) (c : Context)
    (i : Instance) : i ∈ m.references c ↔ i ∈ n.references c := by
  rw [references_eq, references_eq]
  cases h with
  | statements h => simp [parts, ownReferences, h]
  | items ty span h => simp [parts, ownReferences, h.mem_iff]

theorem mem_references_iff_of_reordered {m n : Node} (h : ReflTransGen (Changes Reordered) m n)
    (c : Context) (i : Instance) : i ∈ m.references c ↔ i ∈ n.references c := by
  -- One change does not show in any context, and so neither do all of them together.
  have hstep {m n : Node} (h : Changes Reordered m n) :
      ∀ i, i ∈ m.references c ↔ i ∈ n.references c := by
    refine h.references (P := fun is js ↦ ∀ i, i ∈ is ↔ i ∈ js) ?_ ?_ c
    · intro before is js behind h i
      simp only [List.mem_append, h]
    · intro m n h c i
      exact h.mem_references_iff c i
  induction h with
  | refl => rfl
  | tail _ h ih => exact ih.trans (hstep h i)

end Node

theorem Specialization.Rearranged.mem_bodyReferences_iff {s t : Specialization}
    (h : s.Rearranged t) (r : Instance × Instance) :
    r ∈ bodyReferences s ↔ r ∈ bodyReferences t := by
  cases h with
  | refl => rfl
  | @body body body' i argument h =>
    have hb (j : Instance) : j ∈ body.references ↔ j ∈ body'.references :=
      Node.mem_references_iff_of_reordered h .value j
    simp only [bodyReferences, Implementation.body?, List.mem_map, hb]
    rfl

namespace Program

variable {p q : Program}

def store (p : Program) : Store := .after [visitProgram p]

theorem specializations_eq (p : Program) : p.specializations =
    p.namespaces.entries.flatMap fun e ↦ e.2.callables.entries.flatMap fun f ↦
      f.2.specializations := by
  simp [specializations, callables, OrderedMap.values, List.flatMap_assoc, List.flatMap_map]

theorem recorded_visitProgram (p : Program) : (visitProgram p).recorded =
    p.namespaces.entries.flatMap fun e ↦ e.2.callables.entries.flatMap fun f ↦
      f.2.specializations.flatMap bodyReferences := by
  simp only [recorded, specializations_eq, List.flatMap_assoc]

theorem Rearranged.mem_recorded_iff (h : p.Rearranged q) (r : Instance × Instance) :
    r ∈ [visitProgram p].flatMap recorded ↔ r ∈ [visitProgram q].flatMap recorded := by
  rw [List.flatMap_singleton, List.flatMap_singleton, recorded_visitProgram, recorded_visitProgram]
  refine h.mem_flatMap_iff (fun e e' he ↦ ?_) r
  refine he.2.callables.mem_flatMap_iff fun f f' hf ↦ ?_
  exact hf.2.specializations.mem_flatMap_iff fun _ _ h ↦ h.mem_bodyReferences_iff

theorem Rearranged.agrees (h : p.Rearranged q) (hs : Separate [visitProgram p]) :
    p.callGraph.Agrees q.callGraph :=
  CallGraph.agrees_after (by simp [isTrim]) (by simp [isTrim]) h.mem_recorded_iff hs

/-- Rearranged programs have graphs with the same answers, whole or trimmed to the same entry points
in any order and any number of times. The numbers that nodes get in a store, the order in which it
keeps edges and the types that were first entered do not show either. -/
theorem rearranged_answers_alike (h : p.Rearranged q) (hs : Separate [visitProgram p]) :
    p.callGraph.answers = q.callGraph.answers ∧ p.store.AnswersAs q.store ∧
    ∀ points points' : List Name, (∀ n, n ∈ points ↔ n ∈ points') →
      (p.callGraph.trim points).answers = (q.callGraph.trim points').answers ∧
      (p.store.trim points).AnswersAs (q.store.trim points') := by
  have hg := h.agrees hs
  have hp : p.store.Represents p.callGraph := Store.represents_after [visitProgram p]
  have hq : q.store.Represents q.callGraph := Store.represents_after [visitProgram q]
  refine ⟨hg.answers, hp.answersAs hq hg.answers, fun points points' he ↦ ?_⟩
  have ht := (hg.trim he).answers
  exact ⟨ht, (hp.trim points).answersAs (hq.trim points') ht⟩

namespace Sample

def both (e e' : Expr) : Stmt := .block ⟨[.expr (.ofKind (.array [e, e']) (.array (.base .unit)))]⟩

def applyTo (t : Ty) : Expr :=
  .call (.generic ⟨"Lib", "Apply"⟩ [t] (.base .unit)) .unit (.base .unit)

def main (body : Scope) : Specialization := .ofBody ⟨⟨"App", "Main"⟩, .body, none⟩ body

def mainAdjoint : Specialization := ⟨⟨"App", "Main"⟩, .adjoint, none, .generated .invert⟩

def app (ss : List Specialization) : Namespace :=
  ⟨"App", ⟨[("Main", ⟨⟨"App", "Main"⟩, .operation, .base .unit, ss⟩)], by simp⟩⟩

def lib : Namespace :=
  let apply : Name := ⟨"Lib", "Apply"⟩
  let back : Expr := .call (.callable ⟨"App", "Main"⟩ (.base .unit)) .unit (.base .unit)
  ⟨"Lib", ⟨[("Apply", ⟨apply, .operation, .base .unit,
    [.ofBody ⟨apply, .body, some [.base .int]⟩ ⟨[.expr back]⟩]⟩)], by simp⟩⟩

def given : Program :=
  let body : Scope := ⟨[.expr (applyTo (.base .int)),
    both (applyTo (.base .bool)) (applyTo (.base .int))]⟩
  ⟨⟨[("App", app [main body, mainAdjoint]), ("Lib", lib)], by decide⟩⟩

def rearranged : Program :=
  let body : Scope := ⟨[both (applyTo (.base .int)) (applyTo (.base .bool)),
    .expr (applyTo (.base .int)), .expr (applyTo (.base .int))]⟩
  ⟨⟨[("Lib", lib), ("App", app [mainAdjoint, main body, mainAdjoint])], by decide⟩⟩

theorem both_changes (e e' : Expr) :
    Node.Changes Node.Reordered (.stmt (both e e')) (.stmt (both e' e)) := by
  have harray : Node.Changes Node.Reordered
      (.expr (.ofKind (.array [e, e']) (.array (.base .unit))))
      (.expr (.ofKind (.array [e', e]) (.array (.base .unit)))) :=
    .here (.items _ _ (.swap e' e []))
  have hstmt := Node.Changes.within .evaluated harray
  have hscope := Node.Changes.within (.statement [] []) hstmt
  have hblock := Node.Changes.within .block hscope
  exact hblock

theorem body_rearranged (s : Stmt) (e e' : Expr) :
    Scope.Rearranged ⟨[s, both e e']⟩ ⟨[both e' e, s, s]⟩ := by
  have hinside := Node.Changes.within (.statement [s] []) (both_changes e e')
  refine .tail (.single hinside) (.here (.statements fun t ↦ ?_))
  simp [or_comm]

theorem app_rearranged {body body' : Scope} (h : body.Rearranged body') :
    (app [main body, mainAdjoint]).Rearranged (app [mainAdjoint, main body', mainAdjoint]) := by
  have hmain : (main body).Rearranged (main body') := .body ⟨⟨"App", "Main"⟩, .body, none⟩ _ h
  have hadjoint : mainAdjoint.Rearranged mainAdjoint := .refl mainAdjoint
  refine ⟨rfl, .singleton ⟨rfl, rfl, rfl, rfl, ?_⟩⟩
  simp [SameUpTo, hmain, hadjoint]

theorem lib_rearranged : lib.Rearranged lib :=
  ⟨rfl, .refl fun _ _ ↦ ⟨rfl, rfl, rfl, rfl, .refl fun s _ ↦ .refl s⟩⟩

theorem given_rearranged : given.Rearranged rearranged := by
  have happ := app_rearranged (body_rearranged (.expr (applyTo (.base .int)))
    (applyTo (.base .bool)) (applyTo (.base .int)))
  simp [Program.Rearranged, SameUpTo, given, rearranged, happ, lib_rearranged]

theorem separate_given : Separate [visitProgram given] := by
  unfold Separate
  decide +kernel

example : given.store.keys ≠ rearranged.store.keys := by decide +kernel

end Sample

theorem rearranged_answers_alike_given :
    Sample.given.Rearranged Sample.rearranged ∧ Separate [visitProgram Sample.given] ∧
    Sample.given.callGraph.answers = Sample.rearranged.callGraph.answers ∧
    (∃ components components', Sample.given.store.IsComponents components ∧
      Sample.rearranged.store.IsComponents components' ∧
      Sample.given.store.answers components = Sample.rearranged.store.answers components') ∧
    (Sample.given.callGraph.trim [⟨"App", "Main"⟩, ⟨"Lib", "Apply"⟩]).answers =
      (Sample.rearranged.callGraph.trim
        [⟨"Lib", "Apply"⟩, ⟨"App", "Main"⟩, ⟨"App", "Main"⟩]).answers := by
  obtain ⟨hg, hs, ht⟩ := rearranged_answers_alike Sample.given_rearranged Sample.separate_given
  obtain ⟨c, hc⟩ := (Store.represents_after [visitProgram Sample.given]).exists_isComponents
  obtain ⟨c', hc'⟩ := (Store.represents_after [visitProgram Sample.rearranged]).exists_isComponents
  refine ⟨Sample.given_rearranged, Sample.separate_given, hg, ⟨c, c', hc, hc', hs c c' hc hc'⟩, ?_⟩
  exact (ht _ _ fun n ↦ by simp [or_comm]).1

end Program

end FunctorCalls
