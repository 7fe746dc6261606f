import FunctorCalls.Proofs.Display.Name
import FunctorCalls.Ty

namespace FunctorCalls

def IsIdentifier (s : String) : Prop := s ≠ "" ∧ ∀ c ∈ s.toList, c.isAlphanum ∨ c = '_'

-- What is looked at are the letters of the string, and not all that there are.
instance : DecidablePred IsIdentifier := fun s ↦
  @instDecidableAnd _ _ _ (List.decidableBAll _ s.toList)

def IsPath (s : String) : Prop :=
  ∃ parts : List String, parts ≠ [] ∧ (∀ p ∈ parts, IsIdentifier p) ∧ s = ".".intercalate parts

def InWord (c : Char) : Prop := c.isAlphanum ∨ c = '_' ∨ c = '.'

def Stops (rest : List Char) : Prop := ∀ c ∈ rest.head?, ¬ InWord c

variable {s : String}

theorem IsIdentifier.inWord (h : IsIdentifier s) : ∀ c ∈ s.toList, InWord c := fun c hc ↦
  (h.2 c hc).imp_right .inl

theorem IsIdentifier.notMem_dot (h : IsIdentifier s) : '.' ∉ s.toList := fun hd ↦ by
  simpa using h.2 '.' hd

theorem IsPath.inWord (h : IsPath s) : ∀ c ∈ s.toList, InWord c := by
  obtain ⟨parts, hn, hp, rfl⟩ := h
  intro c hc
  induction parts with
  | nil => exact absurd rfl hn
  | cons p parts ih =>
    have hp' : IsIdentifier p := hp p List.mem_cons_self
    by_cases hs : parts = []
    · rw [hs, String.intercalate_singleton] at hc
      exact hp'.inWord c hc
    · rw [String.intercalate_cons_of_ne_nil hs, String.toList_append, String.toList_append,
        List.mem_append, List.mem_append] at hc
      rcases hc with (hc | hc) | hc
      · exact hp'.inWord c hc
      · exact .inr (.inr (by simpa using hc))
      · exact ih hs (fun q hq ↦ hp q (List.mem_cons_of_mem p hq)) hc

theorem IsPath.ne_empty (h : IsPath s) : s ≠ "" := by
  obtain ⟨parts, hn, hp, rfl⟩ := h
  obtain ⟨p, parts, rfl⟩ := List.exists_cons_of_ne_nil hn
  have hp' : p ≠ "" := (hp p List.mem_cons_self).1
  cases parts with
  | nil => rwa [String.intercalate_singleton]
  | cons q parts => simp [String.intercalate_cons_cons]

theorem eq_of_word_append {u v rest rest' : List Char} (hu : ∀ c ∈ u, InWord c)
    (hv : ∀ c ∈ v, InWord c) (hr : Stops rest) (hr' : Stops rest')
    (h : u ++ rest = v ++ rest') : u = v ∧ rest = rest' := by
  induction u generalizing v with
  | nil =>
    cases v with
    | nil => exact ⟨rfl, h⟩
    | cons c v =>
      rw [List.nil_append, List.cons_append] at h
      exact absurd (hv c List.mem_cons_self) (hr c (by rw [h]; rfl))
  | cons c u ih =>
    cases v with
    | nil =>
      rw [List.nil_append, List.cons_append] at h
      exact absurd (hu c List.mem_cons_self) (hr' c (by rw [← h]; rfl))
    | cons d v =>
      rw [List.cons_append, List.cons_append, List.cons.injEq] at h
      obtain ⟨rfl, h⟩ := h
      obtain ⟨rfl, hrest⟩ := ih (fun e he ↦ hu e (List.mem_cons_of_mem c he))
        (fun e he ↦ hv e (List.mem_cons_of_mem c he)) h
      exact ⟨rfl, hrest⟩

theorem exists_letter_of_word {u : List Char} (hn : u ≠ []) (hu : ∀ c ∈ u, InWord c)
    (rest : List Char) : ∃ c cs, u ++ rest = c :: cs ∧ InWord c := by
  obtain ⟨c, cs, rfl⟩ := List.exists_cons_of_ne_nil hn
  exact ⟨c, cs ++ rest, rfl, hu c List.mem_cons_self⟩

theorem Base.inWord_display (b : Base) : ∀ c ∈ b.display.toList, InWord c := by
  cases b <;> simp [display, InWord]

theorem Base.notMem_dot (b : Base) : '.' ∉ b.display.toList := by
  cases b <;> decide

theorem Base.display_injective : Function.Injective display := by
  intro a b
  cases a <;> cases b <;> simp [display]

theorem Name.inWord_display {n : Name} (hb : IsIdentifier n.base)
    (hs : ∀ c ∈ n.space.toList, InWord c) : ∀ c ∈ n.display.toList, InWord c := by
  intro c hc
  by_cases he : n.space = ""
  · rw [display_of_space_eq he] at hc
    exact hb.inWord c hc
  · rw [display_of_space_ne he] at hc
    simp only [String.toList_append, List.mem_append] at hc
    rcases hc with (hc | hc) | hc
    · exact hs c hc
    · exact .inr (.inr (by simpa using hc))
    · exact hb.inWord c hc

theorem Name.mem_dot_display {n : Name} (hs : n.space ≠ "") : '.' ∈ n.display.toList := by
  simp [display_of_space_ne hs]

theorem Name.toList_display_ne_nil {n : Name} (hb : IsIdentifier n.base) :
    n.display.toList ≠ [] := by
  have h : n.base.toList ≠ [] := by simpa using hb.1
  by_cases he : n.space = ""
  · rwa [display_of_space_eq he]
  · simp [display_of_space_ne he]

end FunctorCalls
