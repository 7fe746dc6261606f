import FunctorCalls.Proofs.Display.Ty
import FunctorCalls.Specialization

namespace FunctorCalls

structure Instance.IsPlain (i : Instance) : Prop where
  base : IsIdentifier i.callable.base
  space : i.callable.space = "" ∨ IsPath i.callable.space
  typeArgs : ∀ ts ∈ i.typeArgs, ∀ t ∈ ts, t.IsPlain

theorem Variant.display_injective : Function.Injective display := by
  intro v w
  cases v <;> cases w <;> simp [display]

namespace Instance

def argLetters (v : Variant) : Option (List Ty) → List Char
  | none => ' ' :: '[' :: (v.display.toList ++ [']'])
  | some ts => '<' :: Ty.itemLetters ts ('>' :: ' ' :: '[' :: (v.display.toList ++ [']']))

theorem toList_display (i : Instance) :
    i.display.toList = i.callable.display.toList ++ argLetters i.variant i.typeArgs := by
  cases h : i.typeArgs <;> simp [display, displayTypeArgs, argLetters, Ty.itemLetters, h]

theorem displayTypeArgs_withoutOrigins (ts : Option (List Ty)) :
    displayTypeArgs (ts.map (·.map Ty.withoutOrigins)) = displayTypeArgs ts := by
  cases ts with
  | none => rfl
  | some ts =>
    simp [displayTypeArgs, ← Ty.itemsWithoutOrigins_eq_map, Ty.displayItems_withoutOrigins]

theorem stops_argLetters (v : Variant) (ts : Option (List Ty)) : Stops (argLetters v ts) := by
  cases ts <;> simp [Stops, argLetters, InWord]

theorem IsPlain.inWord {i : Instance} (h : i.IsPlain) :
    ∀ c ∈ i.callable.display.toList, InWord c := by
  refine Name.inWord_display h.base fun c hc ↦ ?_
  rcases h.space with hs | hs
  · simp [hs] at hc
  · exact hs.inWord c hc

theorem variant_eq_of_letters {v w : Variant}
    (h : v.display.toList ++ [']'] = w.display.toList ++ [']']) : v = w :=
  Variant.display_injective (String.toList_inj.1 (List.append_cancel_right h))

theorem eq_of_argLetters_eq {v w : Variant} {ts us : Option (List Ty)}
    (ht : ∀ l ∈ ts, ∀ t ∈ l, t.IsPlain) (hu : ∀ l ∈ us, ∀ t ∈ l, t.IsPlain)
    (h : argLetters v ts = argLetters w us) :
    v = w ∧ ts.map (·.map Ty.withoutOrigins) = us.map (·.map Ty.withoutOrigins) := by
  cases ts with
  | none =>
    cases us with
    | none =>
      simp only [argLetters, List.cons.injEq, true_and] at h
      exact ⟨variant_eq_of_letters h, rfl⟩
    -- No list is told from an empty one by the brackets.
    | some us => simp [argLetters] at h
  | some ts =>
    cases us with
    | none => simp [argLetters] at h
    | some us =>
      simp only [argLetters, List.cons.injEq, true_and] at h
      obtain ⟨hts, hv⟩ := Ty.eq_of_itemLetters (.inr rfl)
        (fun t hm ↦ ⟨ht ts rfl t hm, (ht ts rfl t hm).reads⟩) (hu us rfl) h
      simp only [List.cons.injEq, true_and] at hv
      exact ⟨variant_eq_of_letters hv, congrArg some hts⟩

/-- Two instances with plain names are shown alike if and only if they are variants of one kind of
one callable, and their type arguments are the same but for the origins of type parameters: both
have none, or both have lists of one length in which each type is that of the other list. -/
theorem display_tells_apart {i j : Instance} (hi : i.IsPlain) (hj : j.IsPlain) :
    i.display = j.display ↔ i.callable = j.callable ∧ i.variant = j.variant ∧
      i.typeArgs.map (·.map Ty.withoutOrigins) = j.typeArgs.map (·.map Ty.withoutOrigins) := by
  constructor
  · intro h
    have hl : i.callable.display.toList ++ argLetters i.variant i.typeArgs =
        j.callable.display.toList ++ argLetters j.variant j.typeArgs := by
      rw [← toList_display, ← toList_display, h]
    obtain ⟨hc, ha⟩ := eq_of_word_append hi.inWord hj.inWord (stops_argLetters _ _)
      (stops_argLetters _ _) hl
    exact ⟨Name.injOn_display hi.base.notMem_dot hj.base.notMem_dot (String.toList_inj.1 hc),
      eq_of_argLetters_eq hi.typeArgs hj.typeArgs ha⟩
  · intro ⟨hc, hv, ht⟩
    have hd : displayTypeArgs i.typeArgs = displayTypeArgs j.typeArgs := by
      rw [← displayTypeArgs_withoutOrigins, ht, displayTypeArgs_withoutOrigins]
    rw [display, display, hc, hv, hd]

def mappedAt (t : Ty) : Instance :=
  let lift : Ty := .operation (.tuple [.userDefined ⟨"Lib", "Int"⟩]) (.base .unit) .both
  ⟨⟨"Std.Arrays", "Mapped"⟩, .controlledAdjoint, some [t, .tuple [.tuple [], lift]]⟩

def mapped (origin : Name) : Instance :=
  mappedAt (.array (.function (.base .int) (.parameter origin "T")))

def remapped : Instance :=
  mappedAt (.function (.base .int) (.array (.parameter ⟨"", "f"⟩ "T")))

theorem isPlain_mappedAt {t : Ty} (h : t.IsPlain) : (mappedAt t).IsPlain where
  base := (by decide : IsIdentifier "Mapped")
  space := .inr ⟨["Std", "Arrays"], by decide, by decide, (by decide : "Std.Arrays" = _)⟩
  typeArgs := by
    rintro ts ⟨rfl⟩
    have hlib : IsPath "Lib" := ⟨["Lib"], by decide, by decide, by decide⟩
    have hint : Ty.IsPlain (.tuple [.userDefined ⟨"Lib", "Int"⟩]) :=
      .tuple (by simpa using .userDefined (by decide) hlib)
    have hlift : Ty.IsPlain (.operation _ (.base .unit) .both) := .operation _ hint (.base _)
    have hnil : (Ty.tuple []).IsPlain := .tuple (by simp)
    have hpair : Ty.IsPlain (.tuple [.tuple [], _]) := .tuple (by simpa using ⟨hnil, hlift⟩)
    simpa using ⟨h, hpair⟩

theorem display_tells_apart_mapped :
    (mapped ⟨"", "f"⟩).IsPlain ∧ (mapped ⟨"Lib", "g"⟩).IsPlain ∧ remapped.IsPlain ∧
      (mapped ⟨"", "f"⟩).display = "Std.Arrays.Mapped<(Int -> 'T)[], " ++
        "((), ((Lib.Int) => Unit is Adj + Ctl))> [controlled adjoint]" ∧
      (mapped ⟨"", "f"⟩).display = (mapped ⟨"Lib", "g"⟩).display ∧
      (mapped ⟨"", "f"⟩).display ≠ remapped.display := by
  have hm (origin : Name) : (mapped origin).IsPlain :=
    isPlain_mappedAt (.array (.function (.base _) (.parameter _ (by decide))))
  have hr : remapped.IsPlain :=
    isPlain_mappedAt (.function (.base _) (.array (.parameter _ (by decide))))
  refine ⟨hm _, hm _, hr, by decide +kernel, ?_, ?_⟩
  · exact (display_tells_apart (hm _) (hm _)).2 ⟨rfl, rfl, rfl⟩
  · intro h
    have ht := ((display_tells_apart (hm _) hr).1 h).2.2
    revert ht
    decide

end Instance

end FunctorCalls
