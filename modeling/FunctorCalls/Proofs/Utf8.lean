import Mathlib.Data.List.Lex
import Mathlib.Data.String.Basic

namespace FunctorCalls

def utf8 (s : String) : List UInt8 := s.toUTF8.data.toList

theorem utf8_eq_flatMap (s : String) : utf8 s = s.toList.flatMap String.utf8EncodeChar := by
  have h : s.toUTF8 = (String.ofList s.toList).toByteArray := by
    rw [String.toUTF8_eq_toByteArray, String.ofList_toList]
  rw [utf8, h, String.toByteArray_ofList, List.utf8Encode, List.toList_data_toByteArray]

namespace Utf8

theorem lex_ofNat_cons_iff {a b : Nat} {l l' : List UInt8} (ha : a < 256) (hb : b < 256) :
    List.Lex (· < ·) (UInt8.ofNat a :: l) (UInt8.ofNat b :: l') ↔
      a < b ∨ a = b ∧ List.Lex (· < ·) l l' := by
  rw [List.cons_lex_cons_iff, UInt8.lt_iff_toNat_lt, ← UInt8.toNat_inj,
    UInt8.toNat_ofNat_of_lt' ha, UInt8.toNat_ofNat_of_lt' hb]

/-- The bytes that go on with a character: the last digits of its number in base 64. -/
def continuation : Nat → Nat → List UInt8
  | 0, _ => []
  | k + 1, v => .ofNat (v / 64 ^ k % 64 + 128) :: continuation k v

theorem lex_continuation {k v w : Nat} (h : v / 64 ^ k = w / 64 ^ k) (hlt : v < w)
    (l l' : List UInt8) :
    List.Lex (· < ·) (continuation k v ++ l) (continuation k w ++ l') := by
  -- The first digit that differs decides; if it is not the one in front, the rest begins alike.
  induction k with
  | zero =>
    have hvw : v = w := by simpa using h
    omega
  | succ k ih =>
    have hle : v / 64 ^ k ≤ w / 64 ^ k := Nat.div_le_div_right hlt.le
    rw [Nat.pow_succ, ← Nat.div_div_eq_div_mul, ← Nat.div_div_eq_div_mul] at h
    rw [continuation, continuation, List.cons_append, List.cons_append,
      lex_ofNat_cons_iff (by omega) (by omega)]
    rcases Nat.lt_or_eq_of_le hle with hk | hk
    · exact .inl (by omega)
    · exact .inr ⟨by omega, ih hk⟩

def follow (v : Nat) : Nat :=
  if v ≤ 0x7f then 0 else if v ≤ 0x7ff then 1 else if v ≤ 0xffff then 2 else 3

/-- The first byte tells how many follow, and holds the first digit. -/
def lead (v : Nat) : Nat :=
  if v ≤ 0x7f then v
  else if v ≤ 0x7ff then v / 64 + 192
  else if v ≤ 0xffff then v / 4096 + 224
  else v / 262144 + 240

theorem toNat_lt (c : Char) : c.toNat < 0x110000 := by
  rcases c.valid with h | h
  · exact Nat.lt_trans h (by decide)
  · exact h.2

theorem lead_lt {v : Nat} (h : v < 0x110000) : lead v < 256 := by
  unfold lead
  split_ifs <;> omega

theorem utf8EncodeChar_eq (c : Char) : String.utf8EncodeChar c =
    .ofNat (lead c.toNat) :: continuation (follow c.toNat) c.toNat := by
  have h := toNat_lt c
  have hv : c.val.toNat = c.toNat := rfl
  unfold String.utf8EncodeChar lead follow
  rw [hv]
  generalize c.toNat = v at h
  dsimp only
  split_ifs with h₁ h₂ h₃
  · rfl
  · have hd : v / 64 % 32 = v / 64 := by omega
    rw [hd]
    simp [continuation]
  · have hd : v / 4096 % 16 = v / 4096 := by omega
    rw [hd]
    simp [continuation]
  · have hd : v / 262144 % 8 = v / 262144 := by omega
    rw [hd]
    simp [continuation]

theorem lead_lt_or_eq {v w : Nat} (h : v < w) : lead v < lead w ∨
    lead v = lead w ∧ follow v = follow w ∧ v / 64 ^ follow v = w / 64 ^ follow v := by
  unfold lead follow
  split_ifs <;> omega

/-- Two characters differ in some byte that both have, so that what stands behind them does not
count. -/
theorem lex_utf8EncodeChar {c d : Char} (h : c < d) (l l' : List UInt8) :
    List.Lex (· < ·) (String.utf8EncodeChar c ++ l) (String.utf8EncodeChar d ++ l') := by
  have hlt : c.toNat < d.toNat := h
  rw [utf8EncodeChar_eq, utf8EncodeChar_eq, List.cons_append, List.cons_append,
    lex_ofNat_cons_iff (lead_lt (toNat_lt c)) (lead_lt (toNat_lt d))]
  rcases lead_lt_or_eq hlt with hl | ⟨hl, hf, hdiv⟩
  · exact .inl hl
  · rw [← hf]
    exact .inr ⟨hl, lex_continuation hdiv hlt l l'⟩

theorem lex_append_left (u : List UInt8) {l l' : List UInt8} (h : List.Lex (· < ·) l l') :
    List.Lex (· < ·) (u ++ l) (u ++ l') := by
  induction u with
  | nil => exact h
  | cons a u ih => exact .cons ih

theorem lex_flatMap {cs ds : List Char} (h : List.Lex (· < ·) cs ds) :
    List.Lex (· < ·) (cs.flatMap String.utf8EncodeChar) (ds.flatMap String.utf8EncodeChar) := by
  induction h with
  | @nil d ds =>
    rw [List.flatMap_nil, List.flatMap_cons, utf8EncodeChar_eq, List.cons_append]
    exact .nil
  | rel h =>
    rw [List.flatMap_cons, List.flatMap_cons]
    exact lex_utf8EncodeChar h _ _
  | cons h ih =>
    rw [List.flatMap_cons, List.flatMap_cons]
    exact lex_append_left _ ih

end Utf8

theorem compare_string_eq_lt_iff {s t : String} :
    compare s t = .lt ↔ List.Lex (· < ·) (utf8 s) (utf8 t) := by
  have hlt {s t : String} (h : s < t) : List.Lex (· < ·) (utf8 s) (utf8 t) := by
    rw [utf8_eq_flatMap, utf8_eq_flatMap]
    exact Utf8.lex_flatMap (String.lt_iff_toList_lt.1 h)
  rw [Std.LawfulLTCmp.eq_lt_iff_lt]
  refine ⟨hlt, fun h ↦ ?_⟩
  rcases lt_trichotomy s t with hst | rfl | hts
  · exact hst
  · exact absurd h (List.lex_irrefl UInt8.lt_irrefl _)
  · exact absurd h (List.lex_asymm UInt8.lt_asymm (hlt hts))

end FunctorCalls
