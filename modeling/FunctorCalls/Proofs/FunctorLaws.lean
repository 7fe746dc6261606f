import FunctorCalls.Proofs.Frames
import FunctorCalls.Proofs.Rearranged

namespace FunctorCalls

open Change Relation

inductive FunctorKind
  | adjoint
  | controlled

namespace FunctorKind

def apply : FunctorKind → Expr → ExprKind
  | adjoint, e => .adjoint e
  | controlled, e => .controlled e

def context : FunctorKind → Context → Context
  | adjoint, c => c.underAdjoint
  | controlled, c => c.underControlled

theorem references_apply (f : FunctorKind) (e : Expr) (c : Context) :
    (f.apply e).references c = e.references (f.context c) := by
  cases f <;> simp [apply, context, ExprKind.references]

end FunctorKind

/-- Expressions that differ in where functors and parentheses stand. They may have any types and
spans. -/
inductive Expr.FunctorLaw : Expr → Expr → Prop
  /-- `Adjoint (Adjoint x)` is `x`. -/
  | adjointTwice {e i x : Expr} : e.kind = .adjoint i → i.kind = .adjoint x → FunctorLaw e x
  /-- `Controlled (Controlled x)` is `Controlled x`. -/
  | controlledTwice {e i e' x : Expr} : e.kind = .controlled i → i.kind = .controlled x →
      e'.kind = .controlled x → FunctorLaw e e'
  /-- `Adjoint (Controlled x)` is `Controlled (Adjoint x)`. -/
  | exchange {e i e' i' x : Expr} : e.kind = .adjoint i → i.kind = .controlled x →
      e'.kind = .controlled i' → i'.kind = .adjoint x → FunctorLaw e e'
  /-- `(x)` is `x`. -/
  | parentheses {e x : Expr} : e.kind = .tuple [x] → FunctorLaw e x
  /-- `f (c ? t | u)` is `c ? f t | f u`. -/
  | branches (f : FunctorKind) {e i e' c t u t' u' : Expr} : e.kind = f.apply i →
      i.kind = .conditional c t u → e'.kind = .conditional c t' u' → t'.kind = f.apply t →
      u'.kind = f.apply u → FunctorLaw e e'
  /-- `f [x, y, …]` is `[f x, f y, …]`. -/
  | items (f : FunctorKind) {e i e' : Expr} {xs xs' : List Expr} : e.kind = f.apply i →
      i.kind = .array xs → e'.kind = .array xs' →
      List.Forall₂ (fun x x' ↦ x'.kind = f.apply x) xs xs' → FunctorLaw e e'
  /-- `f (x[n])` is `(f x)[n]`. -/
  | indexed (f : FunctorKind) {e i e' x x' n : Expr} : e.kind = f.apply i → i.kind = .item x n →
      e'.kind = .item x' n → x'.kind = f.apply x → FunctorLaw e e'

inductive Node.FunctorLaw : Node → Node → Prop
  | expr {e e' : Expr} : e.FunctorLaw e' → FunctorLaw (.expr e) (.expr e')

inductive Specialization.Changes (R : Node → Node → Prop) : Specialization → Specialization → Prop
  | body {body body' : Scope} (i : Instance) (argument : Pattern) :
      Node.Changes R (.scope body) (.scope body') →
      Changes R ⟨i.callable, i.variant, i.typeArgs, .provided argument body⟩
        ⟨i.callable, i.variant, i.typeArgs, .provided argument body'⟩

structure Callable.Changes (R : Node → Node → Prop) (c d : Callable) : Prop where
  name : c.name = d.name
  kind : c.kind = d.kind
  signature : c.signature = d.signature
  specializations :
    ReplacesOne (Specialization.Changes R) c.specializations d.specializations

structure Namespace.Changes (R : Node → Node → Prop) (n m : Namespace) : Prop where
  name : n.name = m.name
  callables : ReplacesOne (fun e f ↦ e.1 = f.1 ∧ e.2.Changes R f.2) n.callables.entries
    m.callables.entries

def Program.Changes (R : Node → Node → Prop) (p q : Program) : Prop :=
  ReplacesOne (fun e f ↦ e.1 = f.1 ∧ e.2.Changes R f.2) p.namespaces.entries q.namespaces.entries

theorem Expr.references_kind (e : Expr) (c : Context) : e.references c = e.kind.references c := by
  cases e
  rw [references]

theorem FunctorKind.references_of_kind {f : FunctorKind} {e x : Expr} (h : e.kind = f.apply x)
    (c : Context) : e.references c = x.references (f.context c) := by
  rw [e.references_kind, h, f.references_apply]

theorem FunctorKind.itemsReferences_of_kind {f : FunctorKind} {xs xs' : List Expr}
    (h : List.Forall₂ (fun x x' ↦ x'.kind = f.apply x) xs xs') (c : Context) :
    Expr.itemsReferences c xs' = Expr.itemsReferences (f.context c) xs := by
  induction h with
  | nil => rfl
  | cons h _ ih => rw [Expr.itemsReferences, Expr.itemsReferences, f.references_of_kind h, ih]

theorem Expr.FunctorLaw.references_eq {e e' : Expr} (h : e.FunctorLaw e') (c : Context) :
    e.references c = e'.references c := by
  cases h with
  | adjointTwice ho hi =>
    rw [FunctorKind.adjoint.references_of_kind ho, FunctorKind.adjoint.references_of_kind hi]
    simp [FunctorKind.context, Context.underAdjoint]
  | controlledTwice ho hi he =>
    rw [FunctorKind.controlled.references_of_kind ho, FunctorKind.controlled.references_of_kind hi,
      FunctorKind.controlled.references_of_kind he]
    rfl
  | exchange ho hi he hj =>
    rw [FunctorKind.adjoint.references_of_kind ho, FunctorKind.controlled.references_of_kind hi,
      FunctorKind.controlled.references_of_kind he, FunctorKind.adjoint.references_of_kind hj]
    rfl
  | parentheses h => rw [references_kind, h, ExprKind.references]
  | branches f ho hi he ht hu =>
    rw [f.references_of_kind ho, references_kind, hi, e'.references_kind, he, ExprKind.references,
      ExprKind.references, f.references_of_kind ht, f.references_of_kind hu]
  | items f ho hi he hx =>
    rw [f.references_of_kind ho, references_kind, hi, e'.references_kind, he, ExprKind.references,
      ExprKind.references, f.itemsReferences_of_kind hx]
  | indexed f ho hi he hx =>
    rw [f.references_of_kind ho, references_kind, hi, e'.references_kind, he, ExprKind.references,
      ExprKind.references, f.references_of_kind hx]

namespace Program

variable {R : Node → Node → Prop} {p q : Program}

theorem Changes.specializations (h : p.Changes R q) :
    ReplacesOne (Specialization.Changes R) p.specializations q.specializations := by
  rw [specializations_eq, specializations_eq]
  refine ReplacesOne.flatMap h fun e e' he ↦ ?_
  refine he.2.callables.flatMap fun f f' hf ↦ ?_
  exact hf.2.specializations

theorem Changes.recorded_eq (h : p.Changes R q)
    (hR : ∀ m n, R m n → ∀ c, m.references c = n.references c) :
    (visitProgram p).recorded = (visitProgram q).recorded := by
  have hbody s t (h : Specialization.Changes R s t) : bodyReferences s = bodyReferences t := by
    cases h with
    | @body body body' i argument h =>
      have hb : body.references = body'.references :=
        h.references (P := Eq) (fun before _ _ behind h ↦ by rw [h]) hR .value
      simp only [bodyReferences, Implementation.body?, hb]
      rfl
  exact h.specializations.flatMap_eq hbody

theorem recorded_eq_of_functorLaws (h : EqvGen (Changes Node.FunctorLaw) p q) :
    (visitProgram p).recorded = (visitProgram q).recorded := by
  induction h with
  | rel p q h =>
    refine h.recorded_eq fun m n hmn c ↦ ?_
    obtain ⟨he⟩ := hmn
    exact he.references_eq c
  | refl => rfl
  | symm _ _ _ ih => exact ih.symm
  | trans _ _ _ _ _ ih ih' => exact ih.trans ih'

theorem callGraph_eq_of_recorded
    (h : (visitProgram p).recorded = (visitProgram q).recorded) :
    p.callGraph = q.callGraph ∧ p.store = q.store := by
  have hs (p : Program) : p.store = Store.empty.addAll (visitProgram p).recorded := rfl
  rw [callGraph_eq_recordEach, callGraph_eq_recordEach, hs, hs, h]
  exact ⟨rfl, rfl⟩

/-- Functor laws, applied anywhere in a program, in either direction and any number of times, leave
its graph as it is, with all nodes and edges and the whole table of types. -/
theorem functorLaws_keep_callGraph (h : EqvGen (Changes Node.FunctorLaw) p q) :
    p.callGraph = q.callGraph ∧ p.store = q.store :=
  callGraph_eq_of_recorded (recorded_eq_of_functorLaws h)

namespace Sample

def global (base : String) : Expr := .callable ⟨"App", base⟩ (.base .unit)

def choose (ifTrue ifFalse : Expr) : Expr :=
  .ofKind (.conditional (.bool true) ifTrue ifFalse) (.base .unit)

def evaluating (e : Expr) : Program :=
  let body : Scope := ⟨[.expr e]⟩
  ⟨⟨[("App", app [main body])], by simp⟩⟩

theorem evaluating_changes {R : Node → Node → Prop} {e e' : Expr}
    (h : Node.Changes R (.expr e) (.expr e')) : (evaluating e).Changes R (evaluating e') := by
  have hstmt := Node.Changes.within .evaluated h
  have hbody := Node.Changes.within (.statement [] []) hstmt
  have hmain := Specialization.Changes.body ⟨⟨"App", "Main"⟩, .body, none⟩ .discard hbody
  exact .mk [] [] ⟨rfl, rfl, .mk [] [] ⟨rfl, rfl, rfl, rfl, .mk [] [] hmain⟩⟩

def calling (f : Expr) : Program :=
  let body : Scope := ⟨[.expr (.call f .unit (.base .unit))]⟩
  ⟨⟨[("App", app [main body])], by simp⟩⟩

theorem calling_changes {R : Node → Node → Prop} {f g : Expr}
    (h : Node.Changes R (.expr f) (.expr g)) : (calling f).Changes R (calling g) := by
  have hcall := Node.Changes.within (.callee .unit (.base .unit) none) h
  exact evaluating_changes hcall

theorem choose_changes_left {R : Node → Node → Prop} {f f' : Expr} (g : Expr)
    (h : Node.Changes R (.expr f) (.expr f')) :
    Node.Changes R (.expr (choose f g)) (.expr (choose f' g)) := by
  have hchoice := Node.Changes.within (.ifTrue (.bool true) g (.base .unit) none) h
  exact hchoice

theorem choose_changes_right {R : Node → Node → Prop} {g g' : Expr} (f : Expr)
    (h : Node.Changes R (.expr g) (.expr g')) :
    Node.Changes R (.expr (choose f g)) (.expr (choose f g')) := by
  have hchoice := Node.Changes.within (.ifFalse (.bool true) f (.base .unit) none) h
  exact hchoice

/-- The adjoint of a choice goes to both of its branches, cancels in one of them and changes places
in the other one, and then a branch gets parentheses. -/
theorem choose_changes (f g : Expr) : EqvGen (Changes Node.FunctorLaw)
    (calling (choose f.adjoint g.controlled).adjoint)
    (calling (choose (.tuple [f]) g.adjoint.controlled)) := by
  have hpush : Changes Node.FunctorLaw (calling (choose f.adjoint g.controlled).adjoint)
      (calling (choose f.adjoint.adjoint g.controlled.adjoint)) :=
    calling_changes (.here (.expr (.branches .adjoint rfl rfl rfl rfl rfl)))
  have hcancel : Changes Node.FunctorLaw (calling (choose f.adjoint.adjoint g.controlled.adjoint))
      (calling (choose f g.controlled.adjoint)) :=
    calling_changes (choose_changes_left _ (.here (.expr (.adjointTwice rfl rfl))))
  have hexchange : Changes Node.FunctorLaw (calling (choose f g.controlled.adjoint))
      (calling (choose f g.adjoint.controlled)) :=
    calling_changes (choose_changes_right _ (.here (.expr (.exchange rfl rfl rfl rfl))))
  have hparens : Changes Node.FunctorLaw (calling (choose (.tuple [f]) g.adjoint.controlled))
      (calling (choose f g.adjoint.controlled)) :=
    calling_changes (choose_changes_left _ (.here (.expr (.parentheses rfl))))
  refine .trans _ _ _ (.rel _ _ hpush) (.trans _ _ _ (.rel _ _ hcancel) ?_)
  exact .trans _ _ _ (.rel _ _ hexchange) (.symm _ _ (.rel _ _ hparens))

example :
    let p := calling (choose (global "F").adjoint (global "G").controlled).adjoint
    p.callGraph.edges.toList.map (·.callee.variant) = [.body, .controlledAdjoint] := by
  decide +kernel

end Sample

theorem functorLaws_keep_callGraph_choose :
    let p := Sample.calling
      (Sample.choose (Sample.global "F").adjoint (Sample.global "G").controlled).adjoint
    let q := Sample.calling
      (Sample.choose (.tuple [Sample.global "F"]) (Sample.global "G").adjoint.controlled)
    EqvGen (Changes Node.FunctorLaw) p q ∧ p.callGraph = q.callGraph ∧ p.store = q.store :=
  ⟨Sample.choose_changes _ _, functorLaws_keep_callGraph (Sample.choose_changes _ _)⟩

end Program

end FunctorCalls
