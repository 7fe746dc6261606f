import FunctorCalls.Json.Reader
import FunctorCalls.Proofs.Json.Token

namespace FunctorCalls.Json

open Token

def separated : List (List Token) → List Token
  | [] => []
  | ts :: parts => ts ++ parts.flatMap (.mark .comma :: ·)

/-- The tokens that a document may be made of. What is ill-formed may be a string or an object; any
other document is made of one list of tokens only. -/
inductive MadeOf : Json → List Token → Prop
  | null : MadeOf .null [.null]
  | bool (b : Bool) : MadeOf (.bool b) [.bool b]
  | number (n : Number) : MadeOf (.number n) [.number n]
  | string (s : String) : MadeOf (.string s) [.string (some s)]
  | illFormed : MadeOf .illFormed [.string none]
  | array (items : List (Json × List Token)) : (∀ i ∈ items, MadeOf i.1 i.2) →
      MadeOf (.array (items.map Prod.fst))
        (.mark .openArray :: (separated (items.map Prod.snd) ++ [.mark .closeArray]))
  | object (fields : List (Option String × Json × List Token)) :
      (∀ f ∈ fields, MadeOf f.2.1 f.2.2) →
        MadeOf (ofFields (fields.map fun f ↦ (f.1, f.2.1)))
          (.mark .openObject ::
            (separated (fields.map fun f ↦ .string f.1 :: .mark .colon :: f.2.2) ++
              [.mark .closeObject]))

theorem MadeOf.exists_cons {j : Json} {ts : List Token} (h : MadeOf j ts) :
    ∃ t ts', ts = t :: ts' ∧ t ≠ .mark .closeArray := by
  cases h with
  | _ => exact ⟨_, _, rfl, by simp⟩

def Written (j : Json) (text : String) : Prop :=
  ∃ ts, MadeOf j ts ∧ WrittenAll ts text.toList

section Apart

def Follows (ts : List Token) : Prop := ∀ t, Apart (t :: ts)

theorem follows_nil : Follows [] := fun t ↦ List.isChain_singleton t

theorem apart_cons {t : Token} (ht : t.isWord = false) {ts : List Token} :
    Apart (t :: ts) ↔ Apart ts := by
  cases ts with
  | nil => simp [Apart]
  | cons u ts => simp [Apart, ht]

theorem follows_cons {t : Token} (ht : t.isWord = false) {ts : List Token} :
    Follows (t :: ts) ↔ Apart ts := by
  constructor
  · intro h
    exact (apart_cons ht).1 ((h t).tail)
  · intro h u
    exact List.isChain_cons_cons.2 ⟨fun _ ↦ ht, (apart_cons ht).2 h⟩

theorem Follows.apart {ts : List Token} (h : Follows ts) : Apart ts := (h .null).tail

/-- Tokens that leave apart whatever may follow them. -/
def Spaces (ts : List Token) : Prop := ∀ ts', Follows ts' → Apart (ts ++ ts')

theorem spaces_cons {t : Token} (ht : t.isWord = false) {ts : List Token} (h : Spaces ts) :
    Spaces (t :: ts) :=
  fun ts' hf ↦ (apart_cons ht).2 (h ts' hf)

theorem spaces_singleton (t : Token) : Spaces [t] := fun _ h ↦ h t

variable {parts : List (List Token)} {ts : List Token}

theorem follows_commas (h : ∀ p ∈ parts, Spaces p) (ht : Follows ts) :
    Follows (parts.flatMap (.mark .comma :: ·) ++ ts) := by
  induction parts with
  | nil => exact ht
  | cons p parts ih =>
    have hf := ih fun q hq ↦ h q (List.mem_cons_of_mem p hq)
    rw [List.flatMap_cons, List.append_assoc]
    exact (follows_cons rfl).2 (h p List.mem_cons_self _ hf)

theorem spaces_separated (h : ∀ p ∈ parts, Spaces p) : Spaces (separated parts) := by
  intro ts ht
  cases parts with
  | nil => exact ht.apart
  | cons p parts =>
    have hf := follows_commas (fun q hq ↦ h q (List.mem_cons_of_mem p hq)) ht
    rw [separated, List.append_assoc]
    exact h p List.mem_cons_self _ hf

theorem spaces_between {t u : Token} (ht : t.isWord = false) (hu : u.isWord = false)
    (h : Spaces ts) : Spaces (t :: (ts ++ [u])) := by
  refine spaces_cons ht fun ts' hf ↦ ?_
  rw [List.append_assoc]
  exact h _ ((follows_cons hu).2 hf.apart)

theorem MadeOf.spaces {j : Json} (h : MadeOf j ts) : Spaces ts := by
  induction h with
  | array items h ih =>
    exact spaces_between rfl rfl (spaces_separated (List.forall_mem_map.2 ih))
  | object fields h ih =>
    refine spaces_between rfl rfl (spaces_separated (List.forall_mem_map.2 fun f hf ↦ ?_))
    exact spaces_cons rfl (spaces_cons rfl (ih f hf))
  | _ => exact spaces_singleton _

theorem MadeOf.apart {j : Json} (h : MadeOf j ts) : Apart ts := by
  have ha := h.spaces [] follows_nil
  rwa [List.append_nil] at ha

end Apart

end FunctorCalls.Json
