import FunctorCalls.Proofs.Json.Printer

namespace FunctorCalls.Json

namespace Reader

theorem run?_cons {r r' : Reader} {t : Token} (h : r.step? t = some r') (ts : List Token) :
    r.run? (t :: ts) = r'.run? ts := by
  simp [run?, h]

/-- The reader makes the document of the tokens wherever a value has to follow. -/
def Reads (j : Json) (ts : List Token) : Prop :=
  ∀ stack ts', (value stack).run? (ts ++ ts') = (done j stack).run? ts'

theorem reads_singleton {j : Json} {t : Token}
    (h : ∀ stack, (value stack).step? t = some (done j stack)) : Reads j [t] :=
  fun stack ts ↦ run?_cons (h stack) ts

/-- No document begins with the end of an array, so that the first item is read as the others. -/
theorem run?_item {j : Json} {ts : List Token} (h : MadeOf j ts) (stack : List Frame)
    (ts' : List Token) :
    (item stack).run? (ts ++ ts') = (value (.array [] :: stack)).run? (ts ++ ts') := by
  obtain ⟨t, ts, rfl, ht⟩ := h.exists_cons
  have hs : (item stack).step? t = (value (.array [] :: stack)).step? t := by
    cases t with
    | mark m => cases m <;> simp_all [step?]
    | _ => rfl
  rw [List.cons_append, run?, run?, List.foldlM_cons, List.foldlM_cons, hs]

theorem run?_items {items : List (Json × List Token)} (h : ∀ i ∈ items, Reads i.1 i.2) (v : Json)
    (read : List Json) (stack : List Frame) (ts : List Token) :
    (done v (.array read :: stack)).run?
        ((items.map Prod.snd).flatMap (.mark .comma :: ·) ++ .mark .closeArray :: ts) =
      (done (.array ((v :: read).reverse ++ items.map Prod.fst)) stack).run? ts := by
  induction items generalizing v read with
  | nil =>
    rw [List.map_nil, List.map_nil, List.append_nil]
    rfl
  | cons i items ih =>
    simp only [List.map_cons, List.flatMap_cons, List.cons_append, List.append_assoc]
    rw [run?_cons rfl, h i List.mem_cons_self, ih fun k hk ↦ h k (List.mem_cons_of_mem i hk)]
    simp

theorem run?_fields {fields : List (Option String × Json × List Token)}
    (h : ∀ f ∈ fields, Reads f.2.1 f.2.2) (v : Json) (name : Option String)
    (read : List (Option String × Json)) (stack : List Frame) (ts : List Token) :
    (done v (.object read name :: stack)).run?
        ((fields.map fun f ↦ .string f.1 :: .mark .colon :: f.2.2).flatMap (.mark .comma :: ·) ++
          .mark .closeObject :: ts) =
      (done (ofFields (((name, v) :: read).reverse ++ fields.map fun f ↦ (f.1, f.2.1)))
        stack).run? ts := by
  induction fields generalizing v name read with
  | nil =>
    rw [List.map_nil, List.map_nil, List.append_nil]
    rfl
  | cons f fields ih =>
    simp only [List.map_cons, List.flatMap_cons, List.cons_append, List.append_assoc]
    rw [run?_cons rfl, run?_cons rfl, run?_cons rfl, h f List.mem_cons_self,
      ih fun g hg ↦ h g (List.mem_cons_of_mem f hg)]
    simp

end Reader

open Reader

theorem MadeOf.reads {j : Json} {ts : List Token} (h : MadeOf j ts) : Reads j ts := by
  induction h with
  | array items h ih =>
    intro stack ts
    cases items with
    | nil => rfl
    | cons i items =>
      simp only [List.map_cons, separated, List.cons_append, List.append_assoc]
      rw [run?_cons rfl, run?_item (h i List.mem_cons_self), ih i List.mem_cons_self]
      exact run?_items (fun k hk ↦ ih k (List.mem_cons_of_mem i hk)) i.1 [] stack ts
  | object fields h ih =>
    intro stack ts
    cases fields with
    | nil => rfl
    | cons f fields =>
      simp only [List.map_cons, separated, List.cons_append, List.append_assoc]
      rw [run?_cons rfl, run?_cons rfl, run?_cons rfl, ih f List.mem_cons_self]
      exact run?_fields (fun g hg ↦ ih g (List.mem_cons_of_mem f hg)) f.2.1 f.1 [] stack ts
  | _ => exact reads_singleton fun _ ↦ rfl

theorem MadeOf.ofTokens?_eq {j : Json} {ts : List Token} (h : MadeOf j ts) :
    ofTokens? ts = some j := by
  have hr := h.reads [] []
  rw [List.append_nil] at hr
  rw [ofTokens?, hr]
  rfl

theorem Written.parse?_eq {j : Json} {text : String} (h : j.Written text) :
    parse? text = some j := by
  obtain ⟨ts, hj, ht⟩ := h
  rw [parse?, ofChars?, ht.scan?_eq hj.apart, Option.bind_some, hj.ofTokens?_eq]

theorem parse?_print {style : Style} (hs : style.IsBlank) (j : Json) :
    parse? (j.print style) = some j :=
  (j.written_print hs).parse?_eq

theorem print_injective {style : Style} (hs : style.IsBlank) :
    Function.Injective (print style) := by
  intro j j' h
  exact Option.some.inj ((parse?_print hs j).symm.trans (h ▸ parse?_print hs j'))

end FunctorCalls.Json
