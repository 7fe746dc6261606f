import FunctorCalls.Name
import Mathlib.Data.Set.Function

namespace FunctorCalls.Name

theorem splitLastDot?_eq_none {cs : List Char} (h : '.' ∉ cs) : splitLastDot? cs = none := by
  induction cs with
  | nil => rfl
  | cons c cs ih =>
    rw [List.mem_cons, not_or] at h
    rw [splitLastDot?, ih h.2]
    exact if_neg (Ne.symm h.1)

theorem splitLastDot?_append {before behind : List Char} (h : '.' ∉ behind) :
    splitLastDot? (before ++ '.' :: behind) = some (before, behind) := by
  induction before with
  | nil => rw [List.nil_append, splitLastDot?, splitLastDot?_eq_none h, if_pos rfl]
  | cons c before ih => rw [List.cons_append, splitLastDot?, ih]

theorem exists_last_dot {s : String} (h : '.' ∈ s.toList) :
    ∃ space base : String, '.' ∉ base.toList ∧ s = space ++ "." ++ base := by
  obtain ⟨behind, before, hs, hb⟩ := List.eq_append_cons_of_mem (List.mem_reverse.2 h)
  refine ⟨.ofList before.reverse, .ofList behind.reverse, by simpa using hb, String.toList_inj.1 ?_⟩
  have hs : s.toList = before.reverse ++ '.' :: behind.reverse := by
    simpa using congrArg List.reverse hs
  simp [hs]

theorem parse_of_notMem {s : String} (h : '.' ∉ s.toList) : parse s = ⟨"", s⟩ := by
  rw [parse, splitLastDot?_eq_none h]

theorem parse_append {space base : String} (h : '.' ∉ base.toList) :
    parse (space ++ "." ++ base) = ⟨space, base⟩ := by
  have hs : (space ++ "." ++ base).toList = space.toList ++ '.' :: base.toList := by simp
  rw [parse, hs, splitLastDot?_append h]
  simp

theorem display_of_space_eq {n : Name} (h : n.space = "") : n.display = n.base := if_pos h

theorem display_of_space_ne {n : Name} (h : n.space ≠ "") :
    n.display = n.space ++ "." ++ n.base := if_neg h

theorem notMem_base_parse (s : String) : '.' ∉ (parse s).base.toList := by
  by_cases h : '.' ∈ s.toList
  · obtain ⟨space, base, hb, rfl⟩ := exists_last_dot h
    rwa [parse_append hb]
  · rwa [parse_of_notMem h]

/-- Nothing that is read has a dot in its simple part, so that no other name can come back. -/
theorem parse_display_iff {n : Name} : parse n.display = n ↔ '.' ∉ n.base.toList := by
  constructor
  · intro h
    exact h ▸ notMem_base_parse n.display
  · intro h
    by_cases hs : n.space = ""
    · rw [display_of_space_eq hs, parse_of_notMem h, ← hs]
    · rw [display_of_space_ne hs, parse_append h]

theorem injOn_display : Set.InjOn display {n | '.' ∉ n.base.toList} := by
  intro m hm n hn h
  rw [← parse_display_iff.2 hm, h, parse_display_iff.2 hn]

theorem display_parse_iff {s : String} : (parse s).display = s ↔
    '.' ∉ s.toList ∨
      ∃ before behind, before ≠ "" ∧ '.' ∉ behind.toList ∧ s = before ++ "." ++ behind := by
  constructor
  · intro h
    refine or_iff_not_imp_left.2 fun hd ↦ ?_
    obtain ⟨space, base, hb, rfl⟩ := exists_last_dot (not_not.1 hd)
    refine ⟨space, base, ?_, hb, rfl⟩
    rintro rfl
    rw [parse_append hb, display_of_space_eq rfl] at h
    exact hd (h ▸ hb)
  · rintro (h | ⟨before, behind, hs, hb, rfl⟩)
    · rw [parse_of_notMem h, display_of_space_eq rfl]
    · rw [parse_append hb, display_of_space_ne hs]

/-- A name is read back from its text if and only if its simple part has no dot. A text is written
again if and only if it has no dot or something in front of its last one. What is read is read back
in any case, and no two names without a dot in their simple parts have one text, whether they have a
namespace or not and whatever dots there are in it. -/
theorem parse_inverts_display_iff :
    (∀ n : Name, parse n.display = n ↔ '.' ∉ n.base.toList) ∧
    (∀ s : String, (parse s).display = s ↔ '.' ∉ s.toList ∨
      ∃ before behind, before ≠ "" ∧ '.' ∉ behind.toList ∧ s = before ++ "." ++ behind) ∧
    (∀ s : String, parse (parse s).display = parse s) ∧
    Set.InjOn display {n | '.' ∉ n.base.toList} := by
  refine ⟨fun _ ↦ parse_display_iff, fun _ ↦ display_parse_iff, fun s ↦ ?_, injOn_display⟩
  exact parse_display_iff.2 (notMem_base_parse s)

example : (parse "...").display = "..." ∧ (parse ".a").display = "a" := by decide

end FunctorCalls.Name
