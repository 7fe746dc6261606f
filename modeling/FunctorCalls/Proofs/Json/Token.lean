import FunctorCalls.Proofs.Json.Number
import FunctorCalls.Proofs.Json.Text
import Mathlib.Data.List.Chain

namespace FunctorCalls.Json

namespace Lexeme

def isPlain (c : Char) : Bool := !isBlank c && c != '"' && (Mark.ofChar? c).isNone

def startsPlain (cs : List Char) : Bool := cs.head?.any isPlain

def AllBlank (cs : List Char) : Prop := ∀ c ∈ cs, isBlank c = true

theorem allBlank_nil : AllBlank [] := List.forall_mem_nil _

variable {blanks w cs : List Char}

theorem isPlain_iff {c : Char} :
    isPlain c = true ↔ isBlank c = false ∧ c ≠ '"' ∧ Mark.ofChar? c = none := by
  simp [isPlain, and_assoc]

theorem cutFrom?_blanks (h : AllBlank blanks) (cs : List Char) :
    cutFrom? .outside (blanks ++ cs) = cutFrom? .outside cs := by
  induction blanks with
  | nil => rfl
  | cons c blanks ih =>
    have hc : cutFrom? .outside (c :: (blanks ++ cs)) = cutFrom? .outside (blanks ++ cs) :=
      if_pos (h c List.mem_cons_self)
    exact hc.trans (ih fun d hd ↦ h d (List.mem_cons_of_mem c hd))

theorem cutFrom?_cons_of_isPlain {c : Char} (h : isPlain c = true) (cs : List Char) :
    cutFrom? .outside (c :: cs) = cutFrom? (.inWord [c]) cs ∧
      ∀ read, cutFrom? (.inWord read) (c :: cs) = cutFrom? (.inWord (c :: read)) cs := by
  obtain ⟨hb, hq, hm⟩ := isPlain_iff.1 h
  simp [cutFrom?, hb, hq, hm]

theorem cutFrom?_plain (h : ∀ c ∈ w, isPlain c = true) (read cs : List Char) :
    cutFrom? (.inWord read) (w ++ cs) = cutFrom? (.inWord (w.reverse ++ read)) cs := by
  induction w generalizing read with
  | nil => rfl
  | cons c w ih =>
    obtain ⟨-, hc⟩ := cutFrom?_cons_of_isPlain (h c List.mem_cons_self) (w ++ cs)
    rw [List.cons_append, hc, ih fun d hd ↦ h d (List.mem_cons_of_mem c hd)]
    simp

theorem cutFrom?_inWord (read : List Char) (h : startsPlain cs = false) :
    cutFrom? (.inWord read) cs = (cutFrom? .outside cs).map (.word read.reverse :: ·) := by
  cases cs with
  | nil => rfl
  | cons c cs =>
    have hc : isPlain c = false := h
    rw [isPlain] at hc
    by_cases hb : isBlank c = true
    · simp [cutFrom?, hb, bind_some_eq_map]
    by_cases hq : c = '"'
    · subst hq
      simp [cutFrom?, hb, bind_some_eq_map]
    cases hm : Mark.ofChar? c with
    | none => simp [hb, hq, hm] at hc
    | some m =>
      simp only [cutFrom?, hb, hq, hm]
      cases cutFrom? .outside cs <;> rfl

theorem cutFrom?_word (hne : w ≠ []) (h : ∀ c ∈ w, isPlain c = true)
    (hcs : startsPlain cs = false) :
    cutFrom? .outside (w ++ cs) = (cutFrom? .outside cs).map (.word w :: ·) := by
  obtain ⟨c, w, rfl⟩ := List.exists_cons_of_ne_nil hne
  obtain ⟨hc, -⟩ := cutFrom?_cons_of_isPlain (h c List.mem_cons_self) (w ++ cs)
  rw [List.cons_append, hc, cutFrom?_plain fun d hd ↦ h d (List.mem_cons_of_mem c hd),
    cutFrom?_inWord _ hcs]
  simp

theorem isPlain_of_isDigit {c : Char} (h : c.isDigit = true) : isPlain c = true := by
  have hne {d : Char} (hd : d.isDigit = false) : c ≠ d := by
    rintro rfl
    rw [h] at hd
    cases hd
  refine isPlain_iff.2 ⟨?_, hne rfl, ?_⟩
  · simp only [isBlank, beq_false_of_ne (hne (d := ' ') rfl), beq_false_of_ne (hne (d := '\t') rfl),
      beq_false_of_ne (hne (d := '\n') rfl), beq_false_of_ne (hne (d := '\r') rfl), Bool.or_false]
  · refine List.find?_eq_none.2 fun m _ hm ↦ ?_
    have hd : m.char.isDigit = false := by cases m <;> rfl
    exact hne hd (of_decide_eq_true hm).symm

end Lexeme

namespace Token

open Lexeme

def isWord : Token → Bool
  | mark _ | string _ => false
  | _ => true

inductive Written : Token → List Char → Prop
  | mark (m : Mark) : Written (mark m) [m.char]
  | null : Written null null.chars
  | bool (b : Bool) : Written (bool b) (bool b).chars
  | number {n : Number} {cs : List Char} : n.Written cs → Written (number n) cs
  | string {ps : List Text.Piece} {cs : List Char} : Text.Written ps cs →
      Written (string ((Text.join? none ps).map .ofList)) ('"' :: (cs ++ ['"']))

theorem written_chars (t : Token) : t.Written t.chars := by
  cases t with
  | mark m => exact .mark m
  | null => exact .null
  | bool b => exact .bool b
  | number n => exact .number n.written_chars
  | string s =>
    cases s with
    | none =>
      -- The half of a pair that stands for all texts that are none.
      have hd (n : Nat) (hn : n < 16) := Text.isHexDigit_digitChar hn
      exact .string (.cons (.unit (hd 13 (by decide)) (hd 8 (by decide)) (hd 0 (by decide))
        (hd 0 (by decide))) .nil)
    | some s =>
      obtain ⟨ps, hps, hs⟩ := Text.exists_written_escape s.toList
      have hw := Written.string hps
      rw [hs, Option.map_some, String.ofList_toList] at hw
      exact hw

theorem isPlain_of_isNumeric {c : Char} (h : Number.isNumeric c = true) : isPlain c = true := by
  simp only [Number.isNumeric, Bool.or_eq_true, beq_iff_eq] at h
  rcases h with ((((h | rfl) | rfl) | rfl) | rfl) | rfl
  · exact isPlain_of_isDigit h
  all_goals rfl

theorem ofLexeme?_number {n : Number} {w : List Char} (h : n.Written w) :
    ofLexeme? (.word w) = some (number n) := by
  have hne {c : Char} (hc : Number.isNumeric c = false) (cs : List Char) : w ≠ c :: cs := by
    rintro rfl
    rw [h.isNumeric c List.mem_cons_self] at hc
    cases hc
  unfold ofLexeme?
  split
  · next he => cases he
  · next he => cases he
  · next he => exact absurd (Lexeme.word.inj he) (hne (c := 'n') rfl _)
  · next he => exact absurd (Lexeme.word.inj he) (hne (c := 't') rfl _)
  · next he => exact absurd (Lexeme.word.inj he) (hne (c := 'f') rfl _)
  · next he => rw [← Lexeme.word.inj he, h.ofChars?_eq, Option.map_some]

/-- What is written is cut off from the text behind it, unless both go on with a word, and is read
as the token. -/
def Cuts (t : Token) (w : List Char) : Prop :=
  ∃ l, ofLexeme? l = some t ∧ ∀ cs, (t.isWord = true → startsPlain cs = false) →
    cutFrom? .outside (w ++ cs) = (cutFrom? .outside cs).map (l :: ·)

theorem cuts_word {t : Token} {w : List Char} (ht : t.isWord = true)
    (hw : ofLexeme? (.word w) = some t) (hne : w ≠ []) (hp : ∀ c ∈ w, isPlain c = true) :
    t.Cuts w :=
  ⟨.word w, hw, fun _ hcs ↦ cutFrom?_word hne hp (hcs ht)⟩

theorem cuts_mark (m : Mark) : (mark m).Cuts [m.char] := by
  refine ⟨.mark m, rfl, fun cs _ ↦ ?_⟩
  have hm : cutFrom? .outside (m.char :: cs) =
      (cutFrom? .outside cs).bind fun ls ↦ some (.mark m :: ls) := by
    cases m <;> rfl
  exact hm.trans (bind_some_eq_map _ _)

theorem cuts_string {ps : List Text.Piece} {w : List Char} (h : Text.Written ps w) :
    (string ((Text.join? none ps).map .ofList)).Cuts ('"' :: (w ++ ['"'])) := by
  refine ⟨.quoted w, ?_, fun cs _ ↦ ?_⟩
  · rw [ofLexeme?, h.pieces?_eq, Option.map_some]
  · have hs : cutFrom? .outside ('"' :: (w ++ ['"']) ++ cs) =
        cutFrom? (.inString []) (w ++ '"' :: cs) := by
      rw [List.cons_append, List.append_assoc]
      rfl
    exact hs.trans (cutFrom?_text h [] cs)

theorem Written.cuts {t : Token} {w : List Char} (h : t.Written w) : t.Cuts w := by
  cases h with
  | mark m => exact cuts_mark m
  | null => exact cuts_word rfl rfl (List.cons_ne_nil _ _) (List.all_eq_true.1 rfl)
  | bool b =>
    cases b <;> exact cuts_word rfl rfl (List.cons_ne_nil _ _) (List.all_eq_true.1 rfl)
  | number h =>
    have hp : ∀ c ∈ w, isPlain c = true := fun c hc ↦ isPlain_of_isNumeric (h.isNumeric c hc)
    exact cuts_word rfl (ofLexeme?_number h) h.ne_nil hp
  | string h => exact cuts_string h

theorem Written.startsPlain_append {t : Token} {w : List Char} (h : t.Written w)
    (ht : t.isWord = false) (cs : List Char) : startsPlain (w ++ cs) = false := by
  cases h with
  | mark m => cases m <;> rfl
  | string => rfl
  | _ => cases ht

/-- How a text of tokens may be written: with any blanks before each token and at the end. -/
inductive WrittenAll : List Token → List Char → Prop
  | nil {blanks : List Char} : AllBlank blanks → WrittenAll [] blanks
  | cons {blanks w cs : List Char} {t : Token} {ts : List Token} : AllBlank blanks →
      t.Written w → WrittenAll ts cs → WrittenAll (t :: ts) (blanks ++ (w ++ cs))

theorem writtenAll_flatMap {l : List (List Char × Token)} (h : ∀ p ∈ l, AllBlank p.1) :
    WrittenAll (l.map Prod.snd) (l.flatMap fun p ↦ p.1 ++ p.2.chars) := by
  induction l with
  | nil => exact .nil allBlank_nil
  | cons p l ih =>
    rw [List.map_cons, List.flatMap_cons, List.append_assoc]
    exact .cons (h p List.mem_cons_self) p.2.written_chars
      (ih fun q hq ↦ h q (List.mem_cons_of_mem p hq))

/-- No two words are next to each other. -/
def Apart (ts : List Token) : Prop := ts.IsChain fun t u ↦ t.isWord = true → u.isWord = false

theorem startsPlain_of_isBlank {blanks : List Char} (h : AllBlank blanks)
    {cs : List Char} (hcs : startsPlain cs = false) : startsPlain (blanks ++ cs) = false := by
  cases blanks with
  | nil => exact hcs
  | cons c blanks =>
    have hc : isBlank c = true := h c List.mem_cons_self
    simp [startsPlain, isPlain, hc]

variable {ts : List Token} {cs : List Char}

theorem WrittenAll.startsPlain_eq_false (h : WrittenAll ts cs)
    (ht : ∀ t ∈ ts.head?, t.isWord = false) : startsPlain cs = false := by
  cases h with
  | nil hb =>
    rw [← List.append_nil cs]
    exact startsPlain_of_isBlank hb rfl
  | cons hb hw h => exact startsPlain_of_isBlank hb (hw.startsPlain_append (ht _ rfl) _)

theorem WrittenAll.exists_lexemes (h : WrittenAll ts cs) (ha : Apart ts) :
    ∃ ls, cutFrom? .outside cs = some ls ∧ ls.mapM ofLexeme? = some ts := by
  induction h with
  | @nil blanks hb =>
    have hc := cutFrom?_blanks hb []
    rw [List.append_nil] at hc
    exact ⟨[], hc, rfl⟩
  | @cons blanks w cs t ts hb hw h ih =>
    obtain ⟨ls, hls, hts⟩ := ih ha.tail
    obtain ⟨l, hl, hcut⟩ := hw.cuts
    have hs : t.isWord = true → startsPlain cs = false := fun ht ↦
      h.startsPlain_eq_false fun u hu ↦ ha.rel_head? hu ht
    refine ⟨l :: ls, ?_, ?_⟩
    · rw [cutFrom?_blanks hb, hcut cs hs, hls, Option.map_some]
    · rw [List.mapM_cons, hl, hts]
      rfl

theorem WrittenAll.scan?_eq (h : WrittenAll ts cs) (ha : Apart ts) : scan? cs = some ts := by
  obtain ⟨ls, hls, hts⟩ := h.exists_lexemes ha
  rw [scan?, cut?, hls, Option.bind_some, hts]

end Token

end FunctorCalls.Json
