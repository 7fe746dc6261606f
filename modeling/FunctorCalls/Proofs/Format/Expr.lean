import FunctorCalls.Proofs.Format.ReadsBack
import FunctorCalls.Proofs.Parts

namespace FunctorCalls

open Format (Lawful Legible ReadsBack)
open Json (Shape)
open Json.Shape (Fits)

namespace Format

instance : Legible Name where
  readsBack _ := by
    refine ⟨Shape.fits_record (by decide) ?_, rfl⟩
    exact .cons (Shape.fits_verbatim _) (.cons (Shape.fits_verbatim _) .nil)

instance : Legible Functors where
  readsBack _ := by
    refine ⟨Shape.fits_record (by decide) ?_, rfl⟩
    exact .cons (Shape.fits_verbatim _) (.cons (Shape.fits_verbatim _) .nil)

end Format

namespace Ty

theorem lookup_base (b : Base) (cs : List (String × Option (Shape Form))) :
    (Tagged.cases Base ++ cs).lookup (Tagged.tag b) = some none := by
  cases b <;> rfl

mutual

theorem fits : ∀ t : Ty, Fits Form.definition (.named .ty) t.toJson
  | base b => Form.fits_plain rfl (lookup_base b _)
  | array t => Form.fits_content rfl rfl (fits t)
  | tuple ts => Form.fits_content rfl rfl (Shape.fits_list (fits_items ts))
  | userDefined n => Form.fits_content rfl rfl (Legible.readsBack n).fits
  | parameter o _ => Form.fits_fields rfl rfl (by decide)
      (.cons (Legible.readsBack o).fits (.cons (Shape.fits_verbatim _) .nil))
  | function i o => Form.fits_fields rfl rfl (by decide) (.cons (fits i) (.cons (fits o) .nil))
  | operation i o f => Form.fits_fields rfl rfl (by decide)
      (.cons (fits i) (.cons (fits o) (.cons (Legible.readsBack f).fits .nil)))

theorem fits_items : ∀ ts : List Ty, ∀ j ∈ itemsToJson ts, Fits Form.definition (.named .ty) j
  | [] => fun _ h ↦ by simp [itemsToJson] at h
  | t :: ts => fun j h ↦ by
    rw [itemsToJson, List.mem_cons] at h
    rcases h with rfl | h
    · exact fits t
    · exact fits_items ts j h

end

end Ty

namespace Format

instance : Legible Ty := ⟨fun t ↦ ⟨t.fits, Lawful.ofJson?_toJson t⟩⟩

instance : Legible Span where
  readsBack s := by
    refine ⟨Shape.fits_record (by decide) ?_, ?_⟩
    · exact .cons (Shape.fits_verbatim _) (.cons (Shape.fits_verbatim _) .nil)
    · exact read₂ Span.mk (Legible.readsBack s.start).reads (Legible.readsBack s.stop).reads

instance : Legible (Option Span) :=
  ⟨fun _ ↦ .option (by simp [shape, Shape.canonical?, Shape.isNullable, Shape.head])
    fun s _ ↦ Legible.readsBack s⟩

instance : Legible Symbol where
  readsBack
    | .localVar _ => ⟨Shape.fits_case rfl (Shape.fits_verbatim _), rfl⟩
    | .callable n => ⟨Shape.fits_case rfl (Legible.readsBack n).fits, rfl⟩
    | .invalid => ⟨Shape.fits_plain_case rfl, rfl⟩

instance : Tagged.Lawful Pauli := ⟨fun p ↦ by cases p <;> rfl⟩

instance : Tagged.Lawful UnaryOp := ⟨fun op ↦ by cases op <;> rfl⟩

instance : Tagged.Lawful BinaryOp := ⟨fun op ↦ by cases op <;> rfl⟩

theorem readsBack_float {x : Float} (h : read? (text x) = some x) : ReadsBack x := by
  have hf : Fits Form.definition (shape Float) (toJson x) := Shape.fits_verbatim _
  refine ⟨hf, ?_⟩
  rwa [read?, text, Json.compact, Json.parse?_print Json.Style.isBlank_compact, Option.bind_some,
    decode?, hf.canonical?_eq Form.isProper_definition, Option.bind_some] at h

theorem readsBack_literal {l : Literal} (h : ∀ x, l = .double x → ReadsBack x) :
    ReadsBack l := by
  cases l with
  | int n =>
    have hn : ReadsBack n := Legible.readsBack n
    exact ⟨Shape.fits_case rfl hn.fits, congrArg (Option.map Literal.int) hn.reads⟩
  | double x =>
    have hx : ReadsBack x := h x rfl
    exact ⟨Shape.fits_case rfl hx.fits, congrArg (Option.map Literal.double) hx.reads⟩
  | pauli p =>
    have hp : ReadsBack p := Legible.readsBack p
    exact ⟨Shape.fits_case rfl hp.fits, congrArg (Option.map Literal.pauli) hp.reads⟩
  | _ => exact ⟨Shape.fits_case rfl (Shape.fits_verbatim _), rfl⟩

end Format

namespace Node

@[simp]
def ReadsBack : Node → Prop
  | expr e => Format.ReadsBack e
  | stmt s => Format.ReadsBack s
  | scope s => Format.ReadsBack s
  | init i => Format.ReadsBack i

end Node

namespace Expr

theorem readsBack_items {es : List Expr} (h : ∀ e ∈ es, ReadsBack e) :
    Fits Form.definition (.list (.named .expr)) (.array (itemsToJson es)) ∧
      itemsOfJson? (itemsToJson es) = some es :=
  ReadsBack.items h itemsToJson itemsOfJson? rfl (fun _ _ ↦ rfl) rfl fun _ _ ↦ rfl

theorem fits_some {e : Expr} (h : ReadsBack e) :
    Fits Form.definition (.nullable (.named .expr)) e.toJson :=
  Shape.fits_nullable (by simp [Shape.canonical?, Shape.isNullable, Shape.head, Form.definition,
    Expr.shape]) h.fits

end Expr

namespace ExprKind

theorem readsBack {kind : ExprKind} {ty : Ty} {span : Option Span}
    (hl : ∀ x, kind = .literal (.double x) → ReadsBack x)
    (hp : ∀ p ∈ (Node.expr ⟨kind, ty, span⟩).parts, p.2.ReadsBack) : ReadsBack kind := by
  cases kind with
  | unit | missing => exact ⟨Form.fits_plain rfl rfl, rfl⟩
  | literal l =>
    have h : ReadsBack l := Format.readsBack_literal fun x hx ↦ hl x (congrArg literal hx)
    exact ⟨Form.fits_content rfl rfl h.fits, read₁ literal h.reads⟩
  | identifier s ts =>
    have hs : ReadsBack s := Legible.readsBack s
    have hts : ReadsBack ts := Legible.readsBack ts
    exact ⟨Form.fits_fields rfl rfl (by decide) (.cons hs.fits (.cons hts.fits .nil)),
      read₂ identifier hs.reads hts.reads⟩
  | call f a =>
    obtain ⟨hf, ha⟩ : ReadsBack f ∧ ReadsBack a := by simpa [Node.parts] using hp
    exact ⟨Form.fits_fields rfl rfl (by decide) (.cons hf.fits (.cons ha.fits .nil)),
      read₂ call hf.reads ha.reads⟩
  | adjoint e =>
    have he : ReadsBack e := by simpa [Node.parts] using hp
    exact ⟨Form.fits_content rfl rfl he.fits, read₁ adjoint he.reads⟩
  | controlled e =>
    have he : ReadsBack e := by simpa [Node.parts] using hp
    exact ⟨Form.fits_content rfl rfl he.fits, read₁ controlled he.reads⟩
  | tuple es =>
    have hes : ∀ e ∈ es, ReadsBack e := by
      rcases es with _ | ⟨e, _ | ⟨e', es⟩⟩
      · simp
      · simpa [Node.parts] using hp
      · simpa [Node.parts] using hp
    obtain ⟨hf, hr⟩ := Expr.readsBack_items hes
    exact ⟨Form.fits_content rfl rfl hf, read₁ tuple hr⟩
  | array es =>
    have hes : ∀ e ∈ es, ReadsBack e := by simpa [Node.parts] using hp
    obtain ⟨hf, hr⟩ := Expr.readsBack_items hes
    exact ⟨Form.fits_content rfl rfl hf, read₁ array hr⟩
  | filledArray v s =>
    obtain ⟨hv, hs⟩ : ReadsBack v ∧ ReadsBack s := by simpa [Node.parts] using hp
    exact ⟨Form.fits_fields rfl rfl (by decide) (.cons hv.fits (.cons hs.fits .nil)),
      read₂ filledArray hv.reads hs.reads⟩
  | newArray t l =>
    have ht : ReadsBack t := Legible.readsBack t
    have hl : ReadsBack l := by simpa [Node.parts] using hp
    exact ⟨Form.fits_fields rfl rfl (by decide) (.cons ht.fits (.cons hl.fits .nil)),
      read₂ newArray ht.reads hl.reads⟩
  | item a i =>
    obtain ⟨ha, hi⟩ : ReadsBack a ∧ ReadsBack i := by simpa [Node.parts] using hp
    exact ⟨Form.fits_fields rfl rfl (by decide) (.cons ha.fits (.cons hi.fits .nil)),
      read₂ item ha.reads hi.reads⟩
  | field r n =>
    have hr : ReadsBack r := by simpa [Node.parts] using hp
    exact ⟨Form.fits_fields rfl rfl (by decide)
      (.cons hr.fits (.cons (Shape.fits_verbatim _) .nil)), read₁ (field · n) hr.reads⟩
  | range a s b =>
    cases s with
    | none =>
      obtain ⟨ha, hb⟩ : ReadsBack a ∧ ReadsBack b := by simpa [Node.parts] using hp
      exact ⟨Form.fits_fields rfl rfl (by decide)
        (.cons ha.fits (.cons (Shape.fits_null _) (.cons hb.fits .nil))),
        read₂ (range · none ·) ha.reads hb.reads⟩
    | some s =>
      obtain ⟨ha, hs, hb⟩ : ReadsBack a ∧ ReadsBack s ∧ ReadsBack b := by
        simpa [Node.parts] using hp
      refine ⟨Form.fits_fields rfl rfl (by decide)
        (.cons ha.fits (.cons (Expr.fits_some hs) (.cons hb.fits .nil))), ?_⟩
      obtain ⟨kind, ty, span⟩ := s
      exact read₃ (fun a s b ↦ range a (some s) b) ha.reads hs.reads hb.reads
  | unary op e =>
    have hop : ReadsBack op := Legible.readsBack op
    have he : ReadsBack e := by simpa [Node.parts] using hp
    exact ⟨Form.fits_fields rfl rfl (by decide) (.cons hop.fits (.cons he.fits .nil)),
      read₂ unary hop.reads he.reads⟩
  | binary op l r =>
    have hop : ReadsBack op := Legible.readsBack op
    obtain ⟨hl, hr⟩ : ReadsBack l ∧ ReadsBack r := by simpa [Node.parts] using hp
    exact ⟨Form.fits_fields rfl rfl (by decide)
      (.cons hop.fits (.cons hl.fits (.cons hr.fits .nil))),
      read₃ binary hop.reads hl.reads hr.reads⟩
  | conditional c t f =>
    obtain ⟨hc, ht, hf⟩ : ReadsBack c ∧ ReadsBack t ∧ ReadsBack f := by
      simpa [Node.parts] using hp
    exact ⟨Form.fits_fields rfl rfl (by decide)
      (.cons hc.fits (.cons ht.fits (.cons hf.fits .nil))),
      read₃ conditional hc.reads ht.reads hf.reads⟩
  | update v a p =>
    obtain ⟨hv, ha, hp⟩ : ReadsBack v ∧ ReadsBack a ∧ ReadsBack p := by
      simpa [Node.parts] using hp
    exact ⟨Form.fits_fields rfl rfl (by decide)
      (.cons hv.fits (.cons ha.fits (.cons hp.fits .nil))),
      read₃ update hv.reads ha.reads hp.reads⟩

end ExprKind

theorem Expr.readsBack {e : Expr} (hl : ∀ x, e.kind = .literal (.double x) → ReadsBack x)
    (hp : ∀ p ∈ (Node.expr e).parts, p.2.ReadsBack) : ReadsBack e := by
  obtain ⟨kind, ty, span⟩ := e
  have hk : ReadsBack kind := ExprKind.readsBack hl hp
  have ht : ReadsBack ty := Legible.readsBack ty
  have hs : ReadsBack span := Legible.readsBack span
  refine ⟨Shape.fits_named (Shape.fits_record (by decide)
    (.cons hk.fits (.cons ht.fits (.cons hs.fits .nil)))), ?_⟩
  exact read₃ Expr.mk hk.reads ht.reads hs.reads

end FunctorCalls
