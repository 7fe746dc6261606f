import FunctorCalls.Key
import FunctorCalls.Proofs.Utf8
import Mathlib.Order.Defs.Unbundled

namespace FunctorCalls

theorem compare_list_eq_lt_iff {α : Type} [Ord α] [Std.LawfulEqOrd α] {r : α → α → Prop}
    (h : ∀ a b, compare a b = .lt ↔ r a b) {l l' : List α} :
    compare l l' = .lt ↔ List.Lex r l l' := by
  induction l generalizing l' with
  | nil =>
    cases l' with
    | nil => exact iff_of_false nofun List.not_lex_nil
    | cons b l' => exact iff_of_true rfl .nil
  | cons a l ih =>
    cases l' with
    | nil => exact iff_of_false nofun List.not_lex_nil
    | cons b l' =>
      have hc : compare (a :: l) (b :: l') = (compare a b).then (compare l l') :=
        List.compareLex_cons_cons
      rw [hc, Ordering.then_eq_lt, Std.LawfulEqCmp.compare_eq_iff_eq, h, ih,
        List.cons_lex_cons_iff]

namespace Digest

def Before (d d' : Digest) : Prop := List.Lex (· < ·) d.bytes d'.bytes

theorem compare_eq_lt_iff {d d' : Digest} : compare d d' = .lt ↔ d.Before d' := by
  have h : compare d.bytes d'.bytes = .lt ↔ d.Before d' :=
    compare_list_eq_lt_iff fun _ _ ↦ Std.LawfulLTCmp.eq_lt_iff_lt
  exact h

end Digest

namespace Name

def Before (n n' : Name) : Prop :=
  List.Lex (· < ·) (utf8 n.space) (utf8 n'.space) ∨
    n.space = n'.space ∧ List.Lex (· < ·) (utf8 n.base) (utf8 n'.base)

theorem compare_eq_lt_iff {n n' : Name} : compare n n' = .lt ↔ n.Before n' := by
  have h : compare n n' = (compare n.space n'.space).then (compare n.base n'.base) := rfl
  rw [h, Ordering.then_eq_lt, Std.LawfulEqCmp.compare_eq_iff_eq, compare_string_eq_lt_iff,
    compare_string_eq_lt_iff, Before]

end Name

namespace Key

/-- No list comes before all lists. A list comes before those that it begins, else the first digest
that is not the same decides. -/
inductive TypeArgsBefore : Option (List Digest) → Option (List Digest) → Prop
  | none (ds : List Digest) : TypeArgsBefore none (some ds)
  | some {ds ds' : List Digest} : List.Lex Digest.Before ds ds' →
      TypeArgsBefore (some ds) (some ds')

theorem compare_typeArgs_eq_lt_iff {o o' : Option (List Digest)} :
    compare o o' = .lt ↔ TypeArgsBefore o o' := by
  cases o with
  | none =>
    cases o' with
    | none => exact iff_of_false nofun nofun
    | some ds' => exact iff_of_true rfl (.none ds')
  | some ds =>
    cases o' with
    | none => exact iff_of_false nofun nofun
    | some ds' =>
      have h : compare ds ds' = .lt ↔ List.Lex Digest.Before ds ds' :=
        compare_list_eq_lt_iff fun _ _ ↦ Digest.compare_eq_lt_iff
      refine h.trans ⟨.some, fun hd ↦ ?_⟩
      cases hd with
      | some hd => exact hd

/-- Callables first, then variants as they are declared, then type arguments. -/
def Before (a b : Key) : Prop :=
  a.callable.Before b.callable ∨ a.callable = b.callable ∧
    (a.variant.ctorIdx < b.variant.ctorIdx ∨
      a.variant = b.variant ∧ TypeArgsBefore a.typeArgs b.typeArgs)

theorem compare_variant_eq_lt_iff {v v' : Variant} :
    compare v v' = .lt ↔ v.ctorIdx < v'.ctorIdx := by
  cases v <;> cases v' <;> decide

theorem compare_eq_lt_iff {a b : Key} : compare a b = .lt ↔ a.Before b := by
  have h : compare a b = (compare a.callable b.callable).then
      ((compare a.variant b.variant).then (compare a.typeArgs b.typeArgs)) := rfl
  rw [h, Ordering.then_eq_lt, Ordering.then_eq_lt, Std.LawfulEqCmp.compare_eq_iff_eq,
    Std.LawfulEqCmp.compare_eq_iff_eq, Name.compare_eq_lt_iff, compare_variant_eq_lt_iff,
    compare_typeArgs_eq_lt_iff, Before]

theorem compare_eq_gt_iff {a b : Key} : compare a b = .gt ↔ b.Before a := by
  rw [Std.OrientedCmp.gt_iff_lt, compare_eq_lt_iff]

instance : IsStrictTotalOrder Key Before where
  trichotomous a b hab hba := by
    rw [← compare_eq_lt_iff] at hab
    rw [← compare_eq_gt_iff] at hba
    cases h : compare a b with
    | lt => exact absurd h hab
    | eq => exact Std.LawfulEqOrd.eq_of_compare h
    | gt => exact absurd h hba
  irrefl a h := by
    have he : compare a a = .eq := Std.ReflCmp.compare_self
    rw [← compare_eq_lt_iff, he] at h
    cases h
  trans a b c hab hbc := by
    rw [← compare_eq_lt_iff] at hab hbc ⊢
    exact Std.TransCmp.lt_trans hab hbc

end Key

end FunctorCalls
