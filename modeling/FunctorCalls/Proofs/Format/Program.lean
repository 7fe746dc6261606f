import FunctorCalls.Format.Program
import FunctorCalls.Proofs.Format.Stmt

namespace FunctorCalls

open Format (Legible ReadsBack)
open Json (Shape)

namespace Format

instance : Tagged.Lawful Directive := ⟨fun d ↦ by cases d <;> rfl⟩

instance : Tagged.Lawful CallableKind := ⟨fun k ↦ by cases k <;> rfl⟩

end Format

theorem Implementation.readsBack {i : Implementation} (h : ∀ body ∈ i.body?, ReadsBack body) :
    ReadsBack i := by
  cases i with
  | provided argument body =>
    have ha : ReadsBack argument := Legible.readsBack argument
    have hb : ReadsBack body := h body rfl
    exact ⟨Shape.fits_case rfl (Shape.fits_record (by decide)
      (.cons ha.fits (.cons hb.fits .nil))), read₂ provided ha.reads hb.reads⟩
  | intrinsic | external => exact ⟨Shape.fits_plain_case rfl, rfl⟩
  | generated d =>
    have hd : ReadsBack d := Legible.readsBack d
    exact ⟨Shape.fits_case rfl hd.fits, read₁ generated hd.reads⟩

theorem Specialization.readsBack {s : Specialization}
    (h : ∀ body ∈ s.implementation.body?, ReadsBack body) : ReadsBack s := by
  have hp : ReadsBack s.parent := Legible.readsBack s.parent
  have hv : ReadsBack s.variant := Legible.readsBack s.variant
  have ht : ReadsBack s.typeArgs := Legible.readsBack s.typeArgs
  have hi : ReadsBack s.implementation := Implementation.readsBack h
  exact ⟨Shape.fits_record (by decide)
    (.cons hp.fits (.cons hv.fits (.cons ht.fits (.cons hi.fits .nil)))),
    read₄ Specialization.mk hp.reads hv.reads ht.reads hi.reads⟩

theorem Callable.readsBack {c : Callable} (h : ∀ s ∈ c.specializations, ReadsBack s) :
    ReadsBack c := by
  have hn : ReadsBack c.name := Legible.readsBack c.name
  have hk : ReadsBack c.kind := Legible.readsBack c.kind
  have ht : ReadsBack c.signature := Legible.readsBack c.signature
  have hs : ReadsBack c.specializations := .list h
  exact ⟨Shape.fits_record (by decide)
    (.cons hn.fits (.cons hk.fits (.cons ht.fits (.cons hs.fits .nil)))),
    read₄ Callable.mk hn.reads hk.reads ht.reads hs.reads⟩

theorem Namespace.readsBack {n : Namespace} (h : ∀ e ∈ n.callables.entries, ReadsBack e.2) :
    ReadsBack n := by
  have hc : ReadsBack n.callables := .orderedMap h
  exact ⟨Shape.fits_record (by decide) (.cons (Shape.fits_verbatim _) (.cons hc.fits .nil)),
    read₁ (Namespace.mk n.name) hc.reads⟩

theorem Program.readsBack {p : Program} (h : ∀ e ∈ p.namespaces.entries, ReadsBack e.2) :
    ReadsBack p := by
  have hn : ReadsBack p.namespaces := .orderedMap h
  exact ⟨Shape.fits_record (by decide) (.cons hn.fits .nil), read₁ Program.mk hn.reads⟩

def Specialization.Holds (x : Float) (s : Specialization) : Prop :=
  ∃ body ∈ s.implementation.body?, (Node.scope body).Holds x

def Callable.Holds (x : Float) (c : Callable) : Prop := ∃ s ∈ c.specializations, s.Holds x

def Namespace.Holds (x : Float) (n : Namespace) : Prop := ∃ c ∈ n.callables.values, c.Holds x

def Program.Holds (x : Float) (p : Program) : Prop := ∃ n ∈ p.namespaces.values, n.Holds x

/-- The numbers that are held are finite, and their texts read back. The latter is asked of them
only: there are finite numbers whose texts do not. -/
structure PlainNumbers (holds : Float → Prop) : Prop where
  finite : ∀ x, holds x → x.isFinite = true
  reads : ∀ x, holds x → x.isFinite = true → Format.read? (Format.text x) = some x

example : Format.read? (Format.text (1.602176634e-19 : Float)) ≠ some 1.602176634e-19 := by
  decide +kernel

namespace PlainNumbers

variable {holds holds' : Float → Prop}

theorem mono (h : PlainNumbers holds) (hs : ∀ x, holds' x → holds x) : PlainNumbers holds' where
  finite x hx := h.finite x (hs x hx)
  reads x hx := h.reads x (hs x hx)

theorem readsBack_node {n : Node} (h : PlainNumbers n.Holds) : n.ReadsBack :=
  Node.readsBack fun x hx ↦ Format.readsBack_float (h.reads x hx (h.finite x hx))

theorem readsBack_specialization {s : Specialization} (h : PlainNumbers s.Holds) : ReadsBack s :=
  Specialization.readsBack fun body hb ↦
    readsBack_node (n := .scope body) (h.mono fun _ hx ↦ ⟨body, hb, hx⟩)

theorem readsBack_callable {c : Callable} (h : PlainNumbers c.Holds) : ReadsBack c :=
  Callable.readsBack fun s hs ↦
    readsBack_specialization (h.mono fun _ hx ↦ ⟨s, hs, hx⟩)

theorem readsBack_namespace {n : Namespace} (h : PlainNumbers n.Holds) : ReadsBack n :=
  Namespace.readsBack fun e he ↦
    readsBack_callable (h.mono fun _ hx ↦ ⟨e.2, List.mem_map_of_mem he, hx⟩)

theorem readsBack_program {p : Program} (h : PlainNumbers p.Holds) : ReadsBack p :=
  Program.readsBack fun e he ↦
    readsBack_namespace (h.mono fun _ hx ↦ ⟨e.2, List.mem_map_of_mem he, hx⟩)

end PlainNumbers

namespace Format

/-- Whatever is written is read back: the same tree with the same names, its maps in the same order
and under the same keys, and no list apart from an empty list. -/
theorem text_reads_back :
    (∀ t : Ty, read? (text t) = some t) ∧
    (∀ e : Expr, PlainNumbers (Node.expr e).Holds → read? (text e) = some e) ∧
    (∀ s : Stmt, PlainNumbers (Node.stmt s).Holds → read? (text s) = some s) ∧
    (∀ s : Scope, PlainNumbers (Node.scope s).Holds → read? (text s) = some s) ∧
    (∀ s : Specialization, PlainNumbers s.Holds → read? (text s) = some s) ∧
    (∀ c : Callable, PlainNumbers c.Holds → read? (text c) = some c) ∧
    (∀ n : Namespace, PlainNumbers n.Holds → read? (text n) = some n) ∧
    (∀ p : Program, PlainNumbers p.Holds → read? (text p) = some p) := by
  have compact {α : Type} [Format α] {a : α} (h : ReadsBack a) : read? (text a) = some a :=
    h.read?_print Json.Style.isBlank_compact
  refine ⟨?_, ?_, ?_, ?_, ?_, ?_, ?_, ?_⟩
  · exact fun t ↦ compact (Legible.readsBack t)
  · exact fun e h ↦ compact h.readsBack_node
  · exact fun s h ↦ compact h.readsBack_node
  · exact fun s h ↦ compact h.readsBack_node
  · exact fun s h ↦ compact h.readsBack_specialization
  · exact fun c h ↦ compact h.readsBack_callable
  · exact fun n h ↦ compact h.readsBack_namespace
  · exact fun p h ↦ compact h.readsBack_program

def sampleBody : Scope :=
  let step : Expr := .ofKind (.literal (.double 0.1)) (.base .double)
  let quoted : Expr := .ofKind (.literal (.string "\n\u0007é")) (.base .string)
  ⟨[.qubits .borrow (.tuple [.declare "q", .discard]) (.register (.int 2)) none,
    .ret ⟨.range quoted (some step) (.missing (.base .int)), .base .range, some ⟨3, 4⟩⟩]⟩

def sampleCallable : Callable :=
  let name : Name := ⟨"Lib", "π\x22"⟩
  ⟨name, .operation, .function (.parameter name "T") (.base .unit),
    [⟨name, .body, none, .provided .discard sampleBody⟩,
      ⟨name, .adjoint, some [], .generated .invert⟩]⟩

def sample : Program :=
  ⟨⟨[("", ⟨"Lib", ⟨[("b", sampleCallable), ("a", sampleCallable)], by decide⟩⟩)], by decide⟩⟩

theorem eq_of_holds_sample {x : Float} (h : sample.Holds x) : x = 0.1 := by
  obtain ⟨n, hn, c, hc, s, hs, body, hb, hx⟩ := h
  obtain rfl := List.mem_singleton.1 hn
  obtain rfl : c = sampleCallable := by simpa [OrderedMap.values] using hc
  have hs : s ∈ sampleCallable.specializations := hs
  obtain rfl : body = sampleBody := by
    simp [sampleCallable] at hs
    rcases hs with rfl | rfl <;> simp_all [Implementation.body?]
  have h : 0.1 = x := by
    simpa [sampleBody, Node.holds_iff (n := .scope _), Node.holds_iff (n := .stmt _),
      Node.holds_iff (n := .init _), Node.holds_iff (n := .expr ⟨_, _, _⟩), Node.parts,
      Expr.ofKind, Expr.int, Expr.missing] using hx
  exact h.symm

theorem plainNumbers_sample : PlainNumbers sample.Holds := by
  refine ⟨fun x hx ↦ ?_, fun x hx _ ↦ ?_⟩
  · rw [eq_of_holds_sample hx]
    decide +kernel
  · rw [eq_of_holds_sample hx]
    decide +kernel

theorem text_reads_back_sample : PlainNumbers sample.Holds ∧ read? (text sample) = some sample :=
  ⟨plainNumbers_sample, text_reads_back.2.2.2.2.2.2.2 sample plainNumbers_sample⟩

end Format

end FunctorCalls
