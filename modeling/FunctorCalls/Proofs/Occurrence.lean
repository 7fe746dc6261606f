import FunctorCalls.CallGraph
import FunctorCalls.Proofs.Parts

namespace FunctorCalls

/-- A callable with type arguments stands somewhere in a node. The path leads outward: it begins
with the place of the occurrence itself. -/
inductive Occurs (name : Name) (typeArgs : Option (List Ty)) : List Place → Node → Prop
  | here (ty : Ty) (span : Option Span) :
      Occurs name typeArgs [] (.expr ⟨.identifier (.callable name) typeArgs, ty, span⟩)
  | within {path : List Place} {p : Place} {m n : Node} :
      (p, m) ∈ n.parts → Occurs name typeArgs path m → Occurs name typeArgs (path ++ [p]) n

theorem Node.eq_identifier_of_mem_ownReferences {c : Context} {n : Node} {i : Instance}
    (h : i ∈ n.ownReferences c) :
    ∃ name typeArgs ty span, n = .expr ⟨.identifier (.callable name) typeArgs, ty, span⟩ := by
  revert h
  fun_cases ownReferences c n with
  | case1 name typeArgs ty span => exact fun _ ↦ ⟨name, typeArgs, ty, span, rfl⟩
  | case2 => simp

theorem Node.mem_references_iff_occurs {c : Context} {n : Node} {i : Instance} :
    i ∈ n.references c ↔ ∃ name typeArgs path, Occurs name typeArgs path n ∧
      i ∈ (path.foldr Place.context c).references name typeArgs := by
  constructor
  · intro h
    induction n using Node.partsInduction generalizing c with
    | h n ih =>
      rw [references_eq, List.mem_append, List.mem_flatMap] at h
      rcases h with h | ⟨⟨p, m⟩, hm, h⟩
      · obtain ⟨name, typeArgs, ty, span, rfl⟩ := eq_identifier_of_mem_ownReferences h
        exact ⟨name, typeArgs, [], .here ty span, h⟩
      · obtain ⟨name, typeArgs, path, ho, hi⟩ := ih (p, m) hm h
        exact ⟨name, typeArgs, path ++ [p], .within hm ho, by simpa using hi⟩
  · intro ⟨name, typeArgs, path, ho, hi⟩
    induction ho generalizing c with
    | here ty span =>
      rw [references_eq]
      exact List.mem_append_left _ hi
    | @within path p m n hm ho ih =>
      rw [references_eq]
      refine List.mem_append_right _ (List.mem_flatMap.2 ⟨(p, m), hm, ih ?_⟩)
      simpa using hi

namespace Place

/-- Whether the value of the part may be that of the whole, functors apart. -/
def isTransparent : Place → Bool
  | callee | other => false
  | _ => true

def crossed (path : List Place) : List Place := path.takeWhile isTransparent

def landing (path : List Place) : Option Place := (path.dropWhile isTransparent).head?

def flips (path : List Place) : Bool := (crossed path).count adjoint % 2 = 1

def controls (path : List Place) : Bool := controlled ∈ crossed path

/-- What an occurrence refers to. At a callee the crossed functors tell; at the end of the path
those of the context count too, if its value is called; all else stands for all variants. -/
def variants (c : Context) (path : List Place) : List Variant :=
  match landing path with
  | some callee => [.ofFunctors (flips path) (controls path)]
  | some _ => Variant.all
  | none =>
    if c.inCall then [.ofFunctors (c.adjoint ^^ flips path) (c.controlled || controls path)]
    else Variant.all

def start (c : Context) (path : List Place) : Context :=
  match landing path with
  | some callee => .callee
  | some _ => .value
  | none => c

theorem crossed_cons (p : Place) (path : List Place) :
    crossed (p :: path) = if p.isTransparent then p :: crossed path else [] :=
  List.takeWhile_cons

theorem landing_cons (p : Place) (path : List Place) :
    landing (p :: path) = if p.isTransparent then landing path else some p := by
  rw [landing, List.dropWhile_cons]
  split <;> rfl

/-- Handing contexts inward agrees with reading outward. -/
theorem foldr_context (c : Context) (path : List Place) :
    path.foldr context c =
      ⟨(start c path).inCall, (start c path).adjoint ^^ flips path,
        (start c path).controlled || controls path⟩ := by
  induction path with
  | nil => simp [start, landing, flips, controls, crossed]
  | cons p path ih =>
    rw [List.foldr_cons, ih]
    cases p with
    | adjoint =>
      have h : flips (adjoint :: path) = !flips path := by
        rw [flips, flips, crossed_cons, ← decide_not]
        exact decide_eq_decide.2 (by simp [isTransparent]; omega)
      simp [h, context, Context.underAdjoint, start, landing_cons, controls, crossed_cons,
        isTransparent]
    | callee | other =>
      simp [context, Context.callee, Context.value, start, landing_cons, flips, controls,
        crossed_cons, isTransparent]
    | _ =>
      simp [context, Context.underControlled, start, landing_cons, flips, controls, crossed_cons,
        isTransparent]

theorem variants_foldr_context (c : Context) (path : List Place) :
    (path.foldr context c).variants = variants c path := by
  rw [foldr_context, variants, start]
  cases hl : landing path with
  | none => simp [Context.variants]
  | some p => cases p <;> simp [Context.variants, Context.callee, Context.value]

theorem mem_variants_iff {c : Context} {path : List Place} {v : Variant} : v ∈ variants c path ↔
    (landing path = some callee → v.isAdjoint = flips path ∧ v.isControlled = controls path) ∧
    (landing path = none → c.inCall = true →
      v.isAdjoint = (c.adjoint ^^ flips path) ∧
        v.isControlled = (c.controlled || controls path)) := by
  rw [variants]
  cases landing path with
  | none => by_cases hc : c.inCall <;> simp [hc, Variant.eq_ofFunctors_iff, Variant.mem_all]
  | some p => cases p <;> simp [Variant.eq_ofFunctors_iff, Variant.mem_all]

example : variants .value [adjoint, soleItem, controlled, adjoint, branch, callee, other] =
    [.controlled] := by decide

end Place

def Fragment.node : Fragment → Node
  | scope s => .scope s
  | stmt s => .stmt s
  | expr e _ => .expr e

def Fragment.context : Fragment → Context
  | expr _ c => c
  | _ => .value

theorem Fragment.references_eq (f : Fragment) : f.references = f.node.references f.context := by
  cases f <;> rfl

/-- A walk adds an edge for each variant that an occurrence refers to, read outward from it, and
no other edge. Where the value is called, this is the one variant that is adjoint for an odd number
of adjoints and controlled for any control; elsewhere it is all four. -/
theorem CallGraph.mem_edges_walk_iff_occurs (g : CallGraph) (caller : Instance) (f : Fragment) :
    (∀ e, e ∈ (g.walk caller f).edges ↔ e ∈ g.edges ∨
      ∃ name typeArgs path, Occurs name typeArgs path f.node ∧
        ∃ v ∈ Place.variants f.context path,
          e = ⟨caller.key, Instance.key ⟨name, v, typeArgs⟩⟩) ∧
    ∀ path v, v ∈ Place.variants f.context path ↔
      (Place.landing path = some .callee →
        v.isAdjoint = Place.flips path ∧ v.isControlled = Place.controls path) ∧
      (Place.landing path = none → f.context.inCall = true →
        v.isAdjoint = (f.context.adjoint ^^ Place.flips path) ∧
          v.isControlled = (f.context.controlled || Place.controls path)) := by
  refine ⟨fun e ↦ ?_, fun _ _ ↦ Place.mem_variants_iff⟩
  rw [walk, mem_edges_recordAll, f.references_eq]
  refine or_congr_right ⟨?_, ?_⟩
  · intro ⟨i, hi, he⟩
    obtain ⟨name, typeArgs, path, ho, hi⟩ := Node.mem_references_iff_occurs.1 hi
    obtain ⟨v, hv, rfl⟩ := List.mem_map.1 hi
    rw [Place.variants_foldr_context] at hv
    exact ⟨name, typeArgs, path, ho, v, hv, he⟩
  · intro ⟨name, typeArgs, path, ho, v, hv, he⟩
    rw [← Place.variants_foldr_context] at hv
    refine ⟨⟨name, v, typeArgs⟩, Node.mem_references_iff_occurs.2 ?_, he⟩
    exact ⟨name, typeArgs, path, ho, List.mem_map.2 ⟨v, hv, rfl⟩⟩

end FunctorCalls
