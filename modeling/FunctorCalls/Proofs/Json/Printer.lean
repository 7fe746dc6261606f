import FunctorCalls.Json.Printer
import FunctorCalls.Proofs.Json.Document

namespace FunctorCalls.Json

theorem induction {P : Json → Prop} (hnull : P null) (hbool : ∀ b, P (bool b))
    (hnumber : ∀ n, P (number n)) (hstring : ∀ s, P (string s))
    (harray : ∀ js, (∀ j ∈ js, P j) → P (array js))
    (hobject : ∀ fields : List (String × Json), (∀ f ∈ fields, P f.2) → P (object fields))
    (hillFormed : P illFormed) : ∀ j, P j
  | null => hnull
  | bool b => hbool b
  | number n => hnumber n
  | string s => hstring s
  | array js => harray js fun j _ ↦
    induction hnull hbool hnumber hstring harray hobject hillFormed j
  | object fields => hobject fields fun f hf ↦
    have : sizeOf f.2 < 1 + sizeOf fields := by
      have hlt := List.sizeOf_lt_of_mem hf
      obtain ⟨name, j⟩ := f
      simp only [Prod.mk.sizeOf_spec] at hlt ⊢
      omega
    induction hnull hbool hnumber hstring harray hobject hillFormed f.2
  | illFormed => hillFormed

section Tokens

def HasTokens (j : Json) (ts : List Token) : Prop :=
  ∀ style depth lead, (j.spaced style depth lead).map Prod.snd = ts

theorem HasTokens.tokens_eq {j : Json} {ts : List Token} (h : j.HasTokens ts) : j.tokens = ts :=
  h .compact 0 []

theorem map_snd_spacedItems {js : List Json} (h : ∀ j ∈ js, j.HasTokens j.tokens) (style : Style)
    (depth : Nat) : (spacedItems style depth js).map Prod.snd =
      (js.map tokens).flatMap (.mark .comma :: ·) := by
  induction js with
  | nil => rfl
  | cons j js ih =>
    simp only [spacedItems, List.map_cons, List.map_append, List.flatMap_cons,
      h j List.mem_cons_self style, ih fun i hi ↦ h i (List.mem_cons_of_mem j hi), List.cons_append]

def fieldTokens (f : String × Json) : List Token := .string (some f.1) :: .mark .colon :: f.2.tokens

theorem map_snd_spacedFields {fields : List (String × Json)}
    (h : ∀ f ∈ fields, f.2.HasTokens f.2.tokens) (style : Style) (depth : Nat) :
    (spacedFields style depth fields).map Prod.snd =
      (fields.map fieldTokens).flatMap (.mark .comma :: ·) := by
  induction fields with
  | nil => rfl
  | cons f fields ih =>
    simp only [spacedFields, List.map_cons, List.map_append, List.flatMap_cons, fieldTokens,
      h f List.mem_cons_self style, ih fun g hg ↦ h g (List.mem_cons_of_mem f hg),
      List.cons_append]

theorem hasTokens_array {js : List Json} (h : ∀ j ∈ js, j.HasTokens j.tokens) :
    (array js).HasTokens
      (.mark .openArray :: (separated (js.map tokens) ++ [.mark .closeArray])) := by
  intro style depth lead
  cases js with
  | nil => rfl
  | cons j js =>
    have hs := map_snd_spacedItems (fun i hi ↦ h i (List.mem_cons_of_mem j hi)) style (depth + 1)
    simp only [spaced, List.map_cons, List.map_append, h j List.mem_cons_self style, hs]
    rfl

theorem hasTokens_object {fields : List (String × Json)}
    (h : ∀ f ∈ fields, f.2.HasTokens f.2.tokens) :
    (object fields).HasTokens
      (.mark .openObject :: (separated (fields.map fieldTokens) ++ [.mark .closeObject])) := by
  intro style depth lead
  cases fields with
  | nil => rfl
  | cons f fields =>
    have hs := map_snd_spacedFields (fun g hg ↦ h g (List.mem_cons_of_mem f hg)) style (depth + 1)
    simp only [spaced, List.map_cons, List.map_append, h f List.mem_cons_self style, hs]
    rfl

theorem hasTokens_tokens (j : Json) : j.HasTokens j.tokens := by
  induction j using induction with
  | harray js ih =>
    have h := hasTokens_array ih
    rw [h.tokens_eq]
    exact h
  | hobject fields ih =>
    have h := hasTokens_object ih
    rw [h.tokens_eq]
    exact h
  | _ =>
    intro style depth lead
    rfl

theorem tokens_array (js : List Json) : (array js).tokens =
    .mark .openArray :: (separated (js.map tokens) ++ [.mark .closeArray]) :=
  (hasTokens_array fun j _ ↦ j.hasTokens_tokens).tokens_eq

theorem tokens_object (fields : List (String × Json)) : (object fields).tokens =
    .mark .openObject :: (separated (fields.map fieldTokens) ++ [.mark .closeObject]) :=
  (hasTokens_object fun f _ ↦ f.2.hasTokens_tokens).tokens_eq

theorem ofFields_some (fields : List (String × Json)) :
    ofFields (fields.map fun f ↦ (some f.1, f.2)) = object fields := by
  have hm : (fields.map fun f ↦ (some f.1, f.2)).mapM (fun f ↦ f.1.map (·, f.2)) =
      some fields := by
    induction fields with
    | nil => rfl
    | cons f fields ih =>
      rw [List.map_cons, List.mapM_cons, ih]
      rfl
  rw [ofFields, hm]

theorem madeOf_tokens (j : Json) : MadeOf j j.tokens := by
  induction j using induction with
  | hnull => exact .null
  | hbool b => exact .bool b
  | hnumber n => exact .number n
  | hstring s => exact .string s
  | harray js ih =>
    have h := MadeOf.array (js.map fun j ↦ (j, j.tokens)) (List.forall_mem_map.2 ih)
    rw [tokens_array]
    simpa [Function.comp_def] using h
  | hobject fields ih =>
    have h := MadeOf.object (fields.map fun f ↦ (some f.1, f.2, f.2.tokens))
      (List.forall_mem_map.2 ih)
    rw [List.map_map, List.map_map] at h
    rw [tokens_object, ← ofFields_some]
    exact h
  | hillFormed => exact .illFormed

end Tokens

section Blanks

open Lexeme

structure Style.IsBlank (style : Style) : Prop where
  line : ∀ depth, AllBlank (style.line depth)
  afterColon : AllBlank style.afterColon

theorem Style.isBlank_compact : Style.compact.IsBlank := ⟨fun _ ↦ allBlank_nil, allBlank_nil⟩

theorem Style.isBlank_indented : Style.indented.IsBlank where
  line depth c hc := by
    rcases List.mem_cons.1 hc with rfl | hc
    · rfl
    · rw [(List.mem_replicate.1 hc).2]
      rfl
  afterColon c hc := by
    rw [List.mem_singleton.1 hc]
    rfl

variable {style : Style}

def HasBlanks (style : Style) (j : Json) : Prop :=
  ∀ depth lead, AllBlank lead → ∀ p ∈ j.spaced style depth lead, AllBlank p.1

theorem allBlank_spacedItems (hs : style.IsBlank) {js : List Json}
    (h : ∀ j ∈ js, j.HasBlanks style) (depth : Nat) :
    ∀ p ∈ spacedItems style depth js, AllBlank p.1 := by
  induction js with
  | nil => exact List.forall_mem_nil _
  | cons j js ih =>
    have hj := h j List.mem_cons_self depth _ (hs.line depth)
    have hjs := ih fun i hi ↦ h i (List.mem_cons_of_mem j hi)
    simp only [spacedItems, List.forall_mem_cons, List.forall_mem_append]
    exact ⟨allBlank_nil, hj, hjs⟩

theorem allBlank_spacedFields (hs : style.IsBlank) {fields : List (String × Json)}
    (h : ∀ f ∈ fields, f.2.HasBlanks style) (depth : Nat) :
    ∀ p ∈ spacedFields style depth fields, AllBlank p.1 := by
  induction fields with
  | nil => exact List.forall_mem_nil _
  | cons f fields ih =>
    have hf := h f List.mem_cons_self depth _ hs.afterColon
    have hfs := ih fun g hg ↦ h g (List.mem_cons_of_mem f hg)
    simp only [spacedFields, List.forall_mem_cons, List.forall_mem_append]
    exact ⟨allBlank_nil, hs.line depth, allBlank_nil, hf, hfs⟩

theorem hasBlanks (hs : style.IsBlank) (j : Json) : j.HasBlanks style := by
  induction j using induction with
  | harray js ih =>
    intro depth lead hl
    cases js with
    | nil =>
      simp only [spaced, List.forall_mem_cons]
      exact ⟨hl, allBlank_nil, List.forall_mem_nil _⟩
    | cons j js =>
      have hj := ih j List.mem_cons_self (depth + 1) _ (hs.line (depth + 1))
      have hjs := allBlank_spacedItems hs (fun i hi ↦ ih i (List.mem_cons_of_mem j hi)) (depth + 1)
      simp only [spaced, List.forall_mem_cons, List.forall_mem_append]
      exact ⟨hl, ⟨hj, hjs⟩, hs.line depth, List.forall_mem_nil _⟩
  | hobject fields ih =>
    intro depth lead hl
    cases fields with
    | nil =>
      simp only [spaced, List.forall_mem_cons]
      exact ⟨hl, allBlank_nil, List.forall_mem_nil _⟩
    | cons f fields =>
      have hf := ih f List.mem_cons_self (depth + 1) _ hs.afterColon
      have hfs := allBlank_spacedFields hs (fun g hg ↦ ih g (List.mem_cons_of_mem f hg)) (depth + 1)
      have hline := hs.line
      simp only [spaced, List.forall_mem_cons, List.forall_mem_append]
      exact ⟨hl, hline (depth + 1), allBlank_nil, ⟨hf, hfs⟩, hline depth, List.forall_mem_nil _⟩
  | _ =>
    intro depth lead hl
    simp only [spaced, List.forall_mem_cons]
    exact ⟨hl, List.forall_mem_nil _⟩

theorem written_print (hs : style.IsBlank) (j : Json) : j.Written (j.print style) := by
  have hb := j.hasBlanks hs 0 [] allBlank_nil
  have ht : (j.spaced style 0 []).map Prod.snd = j.tokens := j.hasTokens_tokens style 0 []
  refine ⟨j.tokens, j.madeOf_tokens, ?_⟩
  rw [print, String.toList_ofList, ← ht]
  exact Token.writtenAll_flatMap hb

end Blanks

end FunctorCalls.Json
