import FunctorCalls.Proofs.Parts
import Mathlib.Logic.Relation

namespace FunctorCalls

/-- The node `whole a` has the part `part a`, and does not depend on `a` otherwise. -/
inductive Frame : {α : Type} → (α → Node) → (α → Node) → Prop
  | callee (a : Expr) (ty : Ty) (span : Option Span) :
      Frame .expr fun e ↦ .expr ⟨.call e a, ty, span⟩
  | argument (f : Expr) (ty : Ty) (span : Option Span) :
      Frame .expr fun e ↦ .expr ⟨.call f e, ty, span⟩
  | adjoint (ty : Ty) (span : Option Span) : Frame .expr fun e ↦ .expr ⟨.adjoint e, ty, span⟩
  | controlled (ty : Ty) (span : Option Span) : Frame .expr fun e ↦ .expr ⟨.controlled e, ty, span⟩
  | tupleItem (before behind : List Expr) (ty : Ty) (span : Option Span) :
      Frame .expr fun e ↦ .expr ⟨.tuple (before ++ e :: behind), ty, span⟩
  | arrayItem (before behind : List Expr) (ty : Ty) (span : Option Span) :
      Frame .expr fun e ↦ .expr ⟨.array (before ++ e :: behind), ty, span⟩
  | filledValue (size : Expr) (ty : Ty) (span : Option Span) :
      Frame .expr fun e ↦ .expr ⟨.filledArray e size, ty, span⟩
  | filledSize (value : Expr) (ty : Ty) (span : Option Span) :
      Frame .expr fun e ↦ .expr ⟨.filledArray value e, ty, span⟩
  | newArrayLength (item ty : Ty) (span : Option Span) :
      Frame .expr fun e ↦ .expr ⟨.newArray item e, ty, span⟩
  | indexed (index : Expr) (ty : Ty) (span : Option Span) :
      Frame .expr fun e ↦ .expr ⟨.item e index, ty, span⟩
  | index (array : Expr) (ty : Ty) (span : Option Span) :
      Frame .expr fun e ↦ .expr ⟨.item array e, ty, span⟩
  | record (name : String) (ty : Ty) (span : Option Span) :
      Frame .expr fun e ↦ .expr ⟨.field e name, ty, span⟩
  | rangeStart (step : Option Expr) (stop : Expr) (ty : Ty) (span : Option Span) :
      Frame .expr fun e ↦ .expr ⟨.range e step stop, ty, span⟩
  | rangeStep (start stop : Expr) (ty : Ty) (span : Option Span) :
      Frame .expr fun e ↦ .expr ⟨.range start (some e) stop, ty, span⟩
  | rangeStop (start : Expr) (step : Option Expr) (ty : Ty) (span : Option Span) :
      Frame .expr fun e ↦ .expr ⟨.range start step e, ty, span⟩
  | operand (op : UnaryOp) (ty : Ty) (span : Option Span) :
      Frame .expr fun e ↦ .expr ⟨.unary op e, ty, span⟩
  | lhs (op : BinaryOp) (rhs : Expr) (ty : Ty) (span : Option Span) :
      Frame .expr fun e ↦ .expr ⟨.binary op e rhs, ty, span⟩
  | rhs (op : BinaryOp) (lhs : Expr) (ty : Ty) (span : Option Span) :
      Frame .expr fun e ↦ .expr ⟨.binary op lhs e, ty, span⟩
  | condition (ifTrue ifFalse : Expr) (ty : Ty) (span : Option Span) :
      Frame .expr fun e ↦ .expr ⟨.conditional e ifTrue ifFalse, ty, span⟩
  | ifTrue (condition ifFalse : Expr) (ty : Ty) (span : Option Span) :
      Frame .expr fun e ↦ .expr ⟨.conditional condition e ifFalse, ty, span⟩
  | ifFalse (condition ifTrue : Expr) (ty : Ty) (span : Option Span) :
      Frame .expr fun e ↦ .expr ⟨.conditional condition ifTrue e, ty, span⟩
  | updated (accessor part : Expr) (ty : Ty) (span : Option Span) :
      Frame .expr fun e ↦ .expr ⟨.update e accessor part, ty, span⟩
  | accessor (value part : Expr) (ty : Ty) (span : Option Span) :
      Frame .expr fun e ↦ .expr ⟨.update value e part, ty, span⟩
  | newPart (value accessor : Expr) (ty : Ty) (span : Option Span) :
      Frame .expr fun e ↦ .expr ⟨.update value accessor e, ty, span⟩
  | evaluated : Frame .expr fun e ↦ .stmt (.expr e)
  | returned : Frame .expr fun e ↦ .stmt (.ret e)
  | failure : Frame .expr fun e ↦ .stmt (.fail e)
  | bound (m : Mutability) (p : Pattern) : Frame .expr fun e ↦ .stmt (.bind m p e)
  | assigned (value : Expr) : Frame .expr fun e ↦ .stmt (.assign e value)
  | assignedValue (target : Expr) : Frame .expr fun e ↦ .stmt (.assign target e)
  | branchCondition (before behind : List (Expr × Scope)) (body : Scope) (default : Option Scope) :
      Frame .expr fun e ↦ .stmt (.conditional (before ++ (e, body) :: behind) default)
  | branch (before behind : List (Expr × Scope)) (condition : Expr) (default : Option Scope) :
      Frame .scope fun s ↦ .stmt (.conditional (before ++ (condition, s) :: behind) default)
  | defaultBranch (branches : List (Expr × Scope)) :
      Frame .scope fun s ↦ .stmt (.conditional branches (some s))
  | iterable (p : Pattern) (ty : Ty) (body : Scope) :
      Frame .expr fun e ↦ .stmt (.forLoop p ty e body)
  | forBody (p : Pattern) (ty : Ty) (e : Expr) : Frame .scope fun s ↦ .stmt (.forLoop p ty e s)
  | whileCondition (body : Scope) : Frame .expr fun e ↦ .stmt (.whileLoop e body)
  | whileBody (condition : Expr) : Frame .scope fun s ↦ .stmt (.whileLoop condition s)
  | repeated (condition : Expr) (fixup : Scope) :
      Frame .scope fun s ↦ .stmt (.repeatUntil s condition fixup)
  | untilCondition (body fixup : Scope) : Frame .expr fun e ↦ .stmt (.repeatUntil body e fixup)
  | fixup (body : Scope) (condition : Expr) :
      Frame .scope fun s ↦ .stmt (.repeatUntil body condition s)
  | outer (inner : Scope) : Frame .scope fun s ↦ .stmt (.conjugate s inner)
  | inner (outer : Scope) : Frame .scope fun s ↦ .stmt (.conjugate outer s)
  | initializer (source : QubitSource) (p : Pattern) (body : Option Scope) :
      Frame .init fun i ↦ .stmt (.qubits source p i body)
  | qubitsBody (source : QubitSource) (p : Pattern) (i : QubitInit) :
      Frame .scope fun s ↦ .stmt (.qubits source p i (some s))
  | block : Frame .scope fun s ↦ .stmt (.block s)
  | statement (before behind : List Stmt) : Frame .stmt fun s ↦ .scope ⟨before ++ s :: behind⟩
  | register : Frame .expr fun e ↦ .init (.register e)
  | initItem (before behind : List QubitInit) :
      Frame .init fun i ↦ .init (.tuple (before ++ i :: behind))

namespace Frame

variable {α : Type} {part whole : α → Node}

def branchParts (branches : List (Expr × Scope)) : List (Place × Node) :=
  branches.flatMap fun b ↦ [(.other, .expr b.1), (.other, .scope b.2)]

theorem parts_eq (h : Frame part whole) :
    ∃ p before behind, ∀ a, (whole a).parts = before ++ (p, part a) :: behind := by
  cases h with
  | tupleItem before behind ty span =>
    rcases before with _ | ⟨e, before⟩
    · cases behind with
      | nil => exact ⟨.soleItem, [], [], fun _ ↦ rfl⟩
      | cons e behind => exact ⟨.other, [], _, fun _ ↦ rfl⟩
    · refine ⟨.other, (e :: before).map fun e ↦ (.other, .expr e),
        behind.map fun e ↦ (.other, .expr e), fun a ↦ ?_⟩
      cases before <;> simp [Node.parts]
  | arrayItem => exact ⟨_, _, _, fun _ ↦ List.map_append⟩
  | statement => exact ⟨_, _, _, fun _ ↦ List.map_append⟩
  | initItem => exact ⟨_, _, _, fun _ ↦ List.map_append⟩
  | rangeStop start step => exact ⟨_, (.other, .expr start) :: step.toList.map _, [], fun _ ↦ rfl⟩
  | defaultBranch => exact ⟨_, _, [], fun _ ↦ rfl⟩
  | branchCondition before behind body default =>
    refine ⟨.other, branchParts before, (.other, .scope body) :: (branchParts behind ++
      default.toList.map fun s ↦ (.other, .scope s)), fun _ ↦ ?_⟩
    simp [Node.parts, branchParts]
  | branch before behind condition default =>
    refine ⟨.other, branchParts before ++ [(.other, .expr condition)], branchParts behind ++
      default.toList.map fun s ↦ (.other, .scope s), fun _ ↦ ?_⟩
    simp [Node.parts, branchParts]
  | argument | filledSize | index | rangeStep | rhs | ifTrue | accessor | assignedValue | forBody
  | whileBody | untilCondition | inner | qubitsBody => exact ⟨_, [_], _, fun _ ↦ rfl⟩
  | ifFalse | newPart | fixup => exact ⟨_, [_, _], _, fun _ ↦ rfl⟩
  | _ => exact ⟨_, [], _, fun _ ↦ rfl⟩

def Opens (n m : Node) : Prop :=
  ∃ (α : Type) (part whole : α → Node) (a : α), Frame part whole ∧ part a = m ∧ whole a = n

theorem opens (h : Frame part whole) (a : α) : Opens (whole a) (part a) :=
  ⟨α, part, whole, a, h, rfl, rfl⟩

theorem opens_expr {e : Expr} {p : Place} {m : Node} (h : (p, m) ∈ (Node.expr e).parts) :
    Opens (.expr e) m := by
  obtain ⟨kind, ty, span⟩ := e
  cases kind with
  | unit | literal | identifier | missing => simp [Node.parts] at h
  | tuple es =>
    have h : ∃ e ∈ es, Node.expr e = m := by
      rcases es with _ | ⟨e, _ | ⟨e', es⟩⟩
      · cases h
      · exact ⟨e, List.mem_cons_self, (Prod.mk.inj (List.mem_singleton.1 h)).2.symm⟩
      · obtain ⟨d, hd, hm⟩ := List.mem_map.1 h
        exact ⟨d, hd, (Prod.mk.inj hm).2⟩
    obtain ⟨e, he, rfl⟩ := h
    obtain ⟨before, behind, rfl⟩ := List.append_of_mem he
    exact (tupleItem before behind ty span).opens e
  | array es =>
    obtain ⟨e, he, hm⟩ := List.mem_map.1 h
    cases hm
    obtain ⟨before, behind, rfl⟩ := List.append_of_mem he
    exact (arrayItem before behind ty span).opens e
  | range start step stop =>
    cases step with
    | none =>
      simp only [Node.parts, Option.toList, List.map_nil, List.cons_append,
        List.nil_append, List.mem_cons, Prod.mk.injEq, List.not_mem_nil, or_false] at h
      rcases h with ⟨-, rfl⟩ | ⟨-, rfl⟩
      · exact (rangeStart none stop ty span).opens start
      · exact (rangeStop start none ty span).opens stop
    | some step =>
      simp only [Node.parts, Option.toList, List.map_cons, List.map_nil, List.cons_append,
        List.nil_append, List.mem_cons, Prod.mk.injEq, List.not_mem_nil, or_false] at h
      rcases h with ⟨-, rfl⟩ | ⟨-, rfl⟩ | ⟨-, rfl⟩
      · exact (rangeStart (some step) stop ty span).opens start
      · exact (rangeStep start stop ty span).opens step
      · exact (rangeStop start (some step) ty span).opens stop
  | adjoint e =>
    obtain ⟨-, rfl⟩ := Prod.mk.inj (List.mem_singleton.1 h)
    exact (adjoint ty span).opens e
  | controlled e =>
    obtain ⟨-, rfl⟩ := Prod.mk.inj (List.mem_singleton.1 h)
    exact (controlled ty span).opens e
  | newArray item length =>
    obtain ⟨-, rfl⟩ := Prod.mk.inj (List.mem_singleton.1 h)
    exact (newArrayLength item ty span).opens length
  | field r name =>
    obtain ⟨-, rfl⟩ := Prod.mk.inj (List.mem_singleton.1 h)
    exact (record name ty span).opens r
  | unary op e =>
    obtain ⟨-, rfl⟩ := Prod.mk.inj (List.mem_singleton.1 h)
    exact (operand op ty span).opens e
  | call f a =>
    simp only [Node.parts, List.mem_cons, Prod.mk.injEq, List.not_mem_nil, or_false] at h
    rcases h with ⟨-, rfl⟩ | ⟨-, rfl⟩
    · exact (callee a ty span).opens f
    · exact (argument f ty span).opens a
  | filledArray value size =>
    simp only [Node.parts, List.mem_cons, Prod.mk.injEq, List.not_mem_nil, or_false] at h
    rcases h with ⟨-, rfl⟩ | ⟨-, rfl⟩
    · exact (filledValue size ty span).opens value
    · exact (filledSize value ty span).opens size
  | item a i =>
    simp only [Node.parts, List.mem_cons, Prod.mk.injEq, List.not_mem_nil, or_false] at h
    rcases h with ⟨-, rfl⟩ | ⟨-, rfl⟩
    · exact (indexed i ty span).opens a
    · exact (index a ty span).opens i
  | binary op l r =>
    simp only [Node.parts, List.mem_cons, Prod.mk.injEq, List.not_mem_nil, or_false] at h
    rcases h with ⟨-, rfl⟩ | ⟨-, rfl⟩
    · exact (lhs op r ty span).opens l
    · exact (rhs op l ty span).opens r
  | conditional c t f =>
    simp only [Node.parts, List.mem_cons, Prod.mk.injEq, List.not_mem_nil, or_false] at h
    rcases h with ⟨-, rfl⟩ | ⟨-, rfl⟩ | ⟨-, rfl⟩
    · exact (condition t f ty span).opens c
    · exact (ifTrue c f ty span).opens t
    · exact (ifFalse c t ty span).opens f
  | update v a b =>
    simp only [Node.parts, List.mem_cons, Prod.mk.injEq, List.not_mem_nil, or_false] at h
    rcases h with ⟨-, rfl⟩ | ⟨-, rfl⟩ | ⟨-, rfl⟩
    · exact (updated a b ty span).opens v
    · exact (accessor v b ty span).opens a
    · exact (newPart v a ty span).opens b

theorem opens_stmt {s : Stmt} {p : Place} {m : Node} (h : (p, m) ∈ (Node.stmt s).parts) :
    Opens (.stmt s) m := by
  cases s with
  | expr e =>
    obtain ⟨-, rfl⟩ := Prod.mk.inj (List.mem_singleton.1 h)
    exact evaluated.opens e
  | ret e =>
    obtain ⟨-, rfl⟩ := Prod.mk.inj (List.mem_singleton.1 h)
    exact returned.opens e
  | fail e =>
    obtain ⟨-, rfl⟩ := Prod.mk.inj (List.mem_singleton.1 h)
    exact failure.opens e
  | bind mutability p e =>
    obtain ⟨-, rfl⟩ := Prod.mk.inj (List.mem_singleton.1 h)
    exact (bound mutability p).opens e
  | block s =>
    obtain ⟨-, rfl⟩ := Prod.mk.inj (List.mem_singleton.1 h)
    exact block.opens s
  | assign l r =>
    simp only [Node.parts, List.mem_cons, Prod.mk.injEq, List.not_mem_nil, or_false] at h
    rcases h with ⟨-, rfl⟩ | ⟨-, rfl⟩
    · exact (assigned r).opens l
    · exact (assignedValue l).opens r
  | conditional branches default =>
    rcases List.mem_append.1 h with h | h
    · obtain ⟨⟨c, s⟩, hb, hm⟩ := List.mem_flatMap.1 h
      obtain ⟨before, behind, rfl⟩ := List.append_of_mem hb
      simp only [List.mem_cons, Prod.mk.injEq, List.not_mem_nil, or_false] at hm
      rcases hm with ⟨-, rfl⟩ | ⟨-, rfl⟩
      · exact (branchCondition before behind s default).opens c
      · exact (branch before behind c default).opens s
    · obtain ⟨s, hs, hm⟩ := List.mem_map.1 h
      cases hm
      obtain rfl := Option.mem_toList.1 hs
      exact (defaultBranch branches).opens s
  | forLoop p ty e body =>
    simp only [Node.parts, List.mem_cons, Prod.mk.injEq, List.not_mem_nil, or_false] at h
    rcases h with ⟨-, rfl⟩ | ⟨-, rfl⟩
    · exact (iterable p ty body).opens e
    · exact (forBody p ty e).opens body
  | whileLoop c body =>
    simp only [Node.parts, List.mem_cons, Prod.mk.injEq, List.not_mem_nil, or_false] at h
    rcases h with ⟨-, rfl⟩ | ⟨-, rfl⟩
    · exact (whileCondition body).opens c
    · exact (whileBody c).opens body
  | repeatUntil body c f =>
    simp only [Node.parts, List.mem_cons, Prod.mk.injEq, List.not_mem_nil, or_false] at h
    rcases h with ⟨-, rfl⟩ | ⟨-, rfl⟩ | ⟨-, rfl⟩
    · exact (repeated c f).opens body
    · exact (untilCondition body f).opens c
    · exact (fixup body c).opens f
  | conjugate o i =>
    simp only [Node.parts, List.mem_cons, Prod.mk.injEq, List.not_mem_nil, or_false] at h
    rcases h with ⟨-, rfl⟩ | ⟨-, rfl⟩
    · exact (outer i).opens o
    · exact (inner o).opens i
  | qubits source p i body =>
    rcases List.mem_cons.1 h with h | h
    · cases h
      exact (initializer source p body).opens i
    · obtain ⟨s, hs, hm⟩ := List.mem_map.1 h
      cases hm
      obtain rfl := Option.mem_toList.1 hs
      exact (qubitsBody source p i).opens s

theorem opens_of_mem_parts {n m : Node} {p : Place} (h : (p, m) ∈ n.parts) : Opens n m := by
  cases n with
  | expr e => exact opens_expr h
  | stmt s => exact opens_stmt h
  | scope s =>
    obtain ⟨ss⟩ := s
    obtain ⟨s, hs, hm⟩ := List.mem_map.1 h
    cases hm
    obtain ⟨before, behind, rfl⟩ := List.append_of_mem hs
    exact (statement before behind).opens s
  | init i =>
    cases i with
    | single => cases h
    | register e =>
      obtain ⟨-, rfl⟩ := Prod.mk.inj (List.mem_singleton.1 h)
      exact register.opens e
    | tuple is =>
      obtain ⟨i, hi, hm⟩ := List.mem_map.1 h
      cases hm
      obtain ⟨before, behind, rfl⟩ := List.append_of_mem hi
      exact (initItem before behind).opens i

/-- What stands in a frame are the parts of a node, and these all do. -/
theorem opens_iff {n m : Node} : Opens n m ↔ ∃ p, (p, m) ∈ n.parts := by
  constructor
  · rintro ⟨α, part, whole, a, h, rfl, rfl⟩
    obtain ⟨p, before, behind, he⟩ := h.parts_eq
    exact ⟨p, he a ▸ List.mem_append_right before List.mem_cons_self⟩
  · intro ⟨p, h⟩
    exact opens_of_mem_parts h

theorem ownReferences_eq_nil (h : Frame part whole) (c : Context) (a : α) :
    (whole a).ownReferences c = [] := by
  cases h <;> rfl

theorem references_eq (h : Frame part whole) (c : Context) : ∃ p before behind, ∀ a,
    (whole a).references c = before ++ (part a).references (Place.context p c) ++ behind := by
  obtain ⟨p, before, behind, hp⟩ := h.parts_eq
  refine ⟨p, before.flatMap fun q ↦ q.2.references (q.1.context c),
    behind.flatMap fun q ↦ q.2.references (q.1.context c), fun a ↦ ?_⟩
  rw [Node.references_eq, h.ownReferences_eq_nil, List.nil_append, hp, List.flatMap_append,
    List.flatMap_cons, List.append_assoc]

end Frame

namespace Node

/-- One change by `R`, of a node itself or somewhere inside of it. -/
inductive Changes (R : Node → Node → Prop) : Node → Node → Prop
  | here {m n : Node} : R m n → Changes R m n
  | within {α : Type} {part whole : α → Node} {a b : α} :
      Frame part whole → Changes R (part a) (part b) → Changes R (whole a) (whole b)

/-- What holds between the references of two lists, with the same in front and behind, holds between
the references of changed code, if it holds where the change is. -/
theorem Changes.references {R : Node → Node → Prop} {P : List Instance → List Instance → Prop}
    (hP : ∀ before is js behind, P is js → P (before ++ is ++ behind) (before ++ js ++ behind))
    (hR : ∀ m n, R m n → ∀ c, P (m.references c) (n.references c)) {m n : Node}
    (h : Changes R m n) (c : Context) : P (m.references c) (n.references c) := by
  induction h generalizing c with
  | here h => exact hR _ _ h c
  | @within α part whole a b hf _ ih =>
    obtain ⟨p, before, behind, he⟩ := hf.references_eq c
    rw [he, he]
    exact hP before _ _ behind (ih (p.context c))

end Node

end FunctorCalls
