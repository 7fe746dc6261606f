import FunctorCalls.Json.Token

namespace FunctorCalls.Json

theorem bind_some_eq_map {α β : Type} (x : Option α) (f : α → β) :
    (x.bind fun a ↦ some (f a)) = x.map f := Option.map_eq_bind.symm

namespace Text

section Digits

def IsHexDigit (n : Nat) (c : Char) : Prop :=
  n < 16 ∧ (c = Nat.digitChar n ∨ c = (Nat.digitChar n).toUpper)

theorem hexDigit?_digitChar : ∀ n < 16, hexDigit? (Nat.digitChar n) = some n ∧
    hexDigit? (Nat.digitChar n).toUpper = some n := by
  decide

theorem digitChar_ne : ∀ n < 16, (Nat.digitChar n ≠ '"' ∧ Nat.digitChar n ≠ '\\') ∧
    (Nat.digitChar n).toUpper ≠ '"' ∧ (Nat.digitChar n).toUpper ≠ '\\' := by
  decide

variable {n : Nat} {c : Char}

theorem isHexDigit_digitChar (h : n < 16) : IsHexDigit n (Nat.digitChar n) := ⟨h, .inl rfl⟩

theorem IsHexDigit.hexDigit?_eq (h : IsHexDigit n c) : hexDigit? c = some n := by
  obtain ⟨hn, rfl | rfl⟩ := h
  · exact (hexDigit?_digitChar n hn).1
  · exact (hexDigit?_digitChar n hn).2

theorem IsHexDigit.ne (h : IsHexDigit n c) : c ≠ '"' ∧ c ≠ '\\' := by
  obtain ⟨hn, rfl | rfl⟩ := h
  · exact (digitChar_ne n hn).1
  · exact (digitChar_ne n hn).2

end Digits

inductive Piece.Written : Piece → List Char → Prop
  | plain {c : Char} : c ≠ '"' → c ≠ '\\' → 0x20 ≤ c.toNat → Written (.char c) [c]
  | short {c e : Char} : escaped? e = some c → Written (.char c) ['\\', e]
  | unit {k l m n : Nat} {a b c d : Char} : IsHexDigit k a → IsHexDigit l b → IsHexDigit m c →
      IsHexDigit n d →
        Written (.unit (16 * (16 * (16 * k + l) + m) + n)) ['\\', 'u', a, b, c, d]

theorem Piece.Written.pieces?_append {p : Piece} {w : List Char} (h : p.Written w)
    (cs : List Char) : pieces? (w ++ cs) = (pieces? cs).map (p :: ·) := by
  cases h with
  | @plain c hq hb h =>
    have hc : (c.toNat < 0x20 || c == '\\') = false := by simp [hb, Nat.not_lt.2 h]
    simp [pieces?, hb, hc, bind_some_eq_map]
  | @short c e he =>
    have hu : e ≠ 'u' := by
      rintro rfl
      cases he
    simp [pieces?, hu, he, bind_some_eq_map]
  | unit ha hb hc hd =>
    simp [pieces?, hex?, ha.hexDigit?_eq, hb.hexDigit?_eq, hc.hexDigit?_eq, hd.hexDigit?_eq,
      bind_some_eq_map]

theorem join?_char (c : Char) (ps : List Piece) :
    join? none (.char c :: ps) = (join? none ps).map (c :: ·) := by
  rw [join?]
  exact bind_some_eq_map _ _

theorem join?_control {c : Char} (h : c.toNat < 0x20) (ps : List Piece) :
    join? none (.unit c.toNat :: ps) = (join? none ps).map (c :: ·) := by
  have hhigh : isHigh c.toNat = false := by
    simp only [isHigh, Bool.and_eq_false_iff, decide_eq_false_iff_not]
    omega
  have hlow : isLow c.toNat = false := by
    simp only [isLow, Bool.and_eq_false_iff, decide_eq_false_iff_not]
    omega
  simp [join?, hhigh, hlow, bind_some_eq_map]

theorem exists_written_escapeChar (c : Char) : ∃ p : Piece, p.Written (escapeChar c) ∧
    ∀ ps, join? none (p :: ps) = (join? none ps).map (c :: ·) := by
  unfold escapeChar
  split
  case h_8 hq hb _ _ _ _ _ =>
    split
    · next h =>
      have hn : 16 * (16 * (16 * 0 + 0) + c.toNat / 16) + c.toNat % 16 = c.toNat := by omega
      have hzero : IsHexDigit 0 '0' := isHexDigit_digitChar (by decide)
      have hw := Piece.Written.unit hzero hzero
        (isHexDigit_digitChar (by omega : c.toNat / 16 < 16))
        (isHexDigit_digitChar (by omega : c.toNat % 16 < 16))
      rw [hn] at hw
      exact ⟨_, hw, join?_control h⟩
    · next h => exact ⟨_, .plain hq hb (Nat.le_of_not_lt h), join?_char _⟩
  all_goals exact ⟨_, .short rfl, join?_char _⟩

inductive Written : List Piece → List Char → Prop
  | nil : Written [] []
  | cons {p : Piece} {w : List Char} {ps : List Piece} {cs : List Char} :
      p.Written w → Written ps cs → Written (p :: ps) (w ++ cs)

theorem Written.pieces?_eq {ps : List Piece} {cs : List Char} (h : Written ps cs) :
    pieces? cs = some ps := by
  induction h with
  | nil => rfl
  | cons hp h ih => rw [hp.pieces?_append, ih, Option.map_some]

theorem exists_written_escape (cs : List Char) :
    ∃ ps, Written ps (escape cs) ∧ join? none ps = some cs := by
  induction cs with
  | nil => exact ⟨[], .nil, rfl⟩
  | cons c cs ih =>
    obtain ⟨ps, hps, hcs⟩ := ih
    obtain ⟨p, hp, hc⟩ := exists_written_escapeChar c
    refine ⟨p :: ps, ?_, ?_⟩
    · rw [escape, List.flatMap_cons, ← escape]
      exact .cons hp hps
    · rw [hc, hcs, Option.map_some]

end Text

namespace Lexeme

/-- Nothing that is written for a piece ends the string. -/
theorem cutFrom?_piece {p : Text.Piece} {w : List Char} (h : p.Written w) (read cs : List Char) :
    cutFrom? (.inString read) (w ++ cs) = cutFrom? (.inString (w.reverse ++ read)) cs := by
  cases h with
  | plain hq hb => simp [cutFrom?, hq, hb]
  | short he => simp [cutFrom?]
  | unit ha hb hc hd => simp [cutFrom?, ha.ne, hb.ne, hc.ne, hd.ne]

theorem cutFrom?_text {ps : List Text.Piece} {w : List Char} (h : Text.Written ps w)
    (read cs : List Char) : cutFrom? (.inString read) (w ++ '"' :: cs) =
      (cutFrom? .outside cs).map (.quoted (read.reverse ++ w) :: ·) := by
  induction h generalizing read with
  | nil =>
    rw [List.append_nil]
    exact bind_some_eq_map _ _
  | cons hp h ih =>
    rw [List.append_assoc, cutFrom?_piece hp, ih]
    simp

end Lexeme

end FunctorCalls.Json
