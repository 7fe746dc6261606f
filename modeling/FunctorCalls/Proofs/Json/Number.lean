import FunctorCalls.Json.Number

namespace FunctorCalls.Json.Number

section

variable {mark : Char → Bool} {cs : List Char}

theorem cut_append (h : ∀ c ∈ cs, mark c = false) (rest : List Char) :
    cut mark (cs ++ rest) = (cs ++ (cut mark rest).1, (cut mark rest).2) := by
  have hm : ∀ c ∈ cs, (!mark c) = true := fun c hc ↦ by rw [h c hc, Bool.not_false]
  rw [cut, List.takeWhile_append_of_pos hm, List.dropWhile_append_of_pos hm, cut]

theorem cut_mark {c : Char} (hc : mark c = true) (rest : List Char) :
    cut mark (c :: rest) = ([], some rest) := by
  simp [cut, hc]

end

theorem digit?_digitChar : ∀ d : Fin 10, digit? (digitChar d) = some d := by
  decide

theorem isDigit_digitChar : ∀ d : Fin 10, (digitChar d).isDigit = true := by
  decide

theorem digits?_map_digitChar {ds : List (Fin 10)} (h : ds ≠ []) :
    digits? (ds.map digitChar) = some ds := by
  have hm : (ds.map digitChar).mapM digit? = some ds := by
    clear h
    induction ds with
    | nil => rfl
    | cons d ds ih =>
      rw [List.map_cons, List.mapM_cons, digit?_digitChar, ih]
      rfl
  rw [digits?, if_neg (by simp [h]), hm]

def natural (ds : List (Fin 10)) : Nat := ds.foldl (fun n d ↦ 10 * n + d.val) 0

theorem toNat_digitChar : ∀ d : Fin 10, (digitChar d).toNat - '0'.toNat = d := by
  decide

theorem natural?_map_digitChar {ds : List (Fin 10)} (h : ds ≠ []) :
    natural? (ds.map digitChar) = some (natural ds) := by
  have hn : Nat.ofDigitChars 10 (ds.map digitChar) 0 = natural ds := by
    simp only [Nat.ofDigitChars, List.foldl_map, toNat_digitChar, natural]
  rw [natural?, digits?_map_digitChar h, Option.map_some, hn]

theorem exists_digits (n : Nat) :
    ∃ ds, ds ≠ [] ∧ ds.map digitChar = Nat.toDigits 10 n ∧ natural ds = n := by
  induction n using Nat.base_induction 10 (by decide) with
  | single n hn =>
    refine ⟨[⟨n, hn⟩], List.cons_ne_nil _ _, (Nat.toDigits_of_lt_base hn).symm, ?_⟩
    simp [natural]
  | digit n d hd hn ih =>
    obtain ⟨ds, -, hds, rfl⟩ := ih
    refine ⟨ds ++ [⟨d, hd⟩], by simp, ?_, ?_⟩
    · rw [← Nat.toDigits_append_toDigits (by decide) hn hd, List.map_append, hds,
        Nat.toDigits_of_lt_base hd]
      rfl
    · simp [natural]

theorem isDigit_toDigits {n : Nat} {c : Char} (h : c ∈ Nat.toDigits 10 n) : c.isDigit = true :=
  Nat.isDigit_of_mem_toDigits (by decide) (by decide) h

theorem natural?_toDigits (n : Nat) : natural? (Nat.toDigits 10 n) = some n := by
  obtain ⟨ds, hne, hds, hn⟩ := exists_digits n
  rw [← hds, natural?_map_digitChar hne, hn]

theorem head?_toDigits_ne {n : Nat} (h : n ≠ 0) : (Nat.toDigits 10 n).head? ≠ some '0' := by
  induction n using Nat.base_induction 10 (by decide) with
  | single n hn => simpa [Nat.toDigits_of_lt_base hn] using h
  | digit n d hd hn ih =>
    rw [← Nat.toDigits_append_toDigits (by decide) hn hd, List.head?_append]
    have hs : (Nat.toDigits 10 n).head?.isSome = true := by simp
    rw [Option.or_of_isSome hs]
    exact ih (Nat.ne_of_gt hn)

theorem not_leading_zero (n : Nat) :
    ¬ ((Nat.toDigits 10 n).length ≠ 1 ∧ (Nat.toDigits 10 n).head? = some '0') := by
  intro ⟨hl, hh⟩
  by_cases hn : n = 0
  · exact hl (by simp [hn])
  · exact head?_toDigits_ne hn hh

theorem beq_eq_false_of_isDigit {c mark : Char} (hc : c.isDigit = true)
    (hm : mark.isDigit = false) : (c == mark) = false := by
  apply beq_false_of_ne
  rintro rfl
  rw [hc] at hm
  cases hm

def fractionChars (ds : List (Fin 10)) : List Char :=
  if ds.isEmpty then [] else '.' :: ds.map digitChar

theorem isDigit_or_eq_of_mem_fractionChars {ds : List (Fin 10)} {c : Char}
    (h : c ∈ fractionChars ds) : c.isDigit = true ∨ c = '.' := by
  unfold fractionChars at h
  split at h
  · cases h
  · rcases List.mem_cons.1 h with h | h
    · exact .inr h
    · obtain ⟨d, -, rfl⟩ := List.mem_map.1 h
      exact .inl (isDigit_digitChar d)

theorem cut_fraction (ds : List (Fin 10)) : cut (· == '.') (fractionChars ds) =
    ([], if ds.isEmpty then none else some (ds.map digitChar)) := by
  unfold fractionChars
  split
  · rfl
  · exact cut_mark rfl _

section Exponents

/-- How an exponent may be written: a letter of either case, with or without a sign, and with any
zeros in front. -/
inductive ExponentWritten : Option Int → List Char → Prop
  | none : ExponentWritten none []
  | unsigned {e : Char} {ds : List (Fin 10)} : e = 'e' ∨ e = 'E' → ds ≠ [] →
      ExponentWritten (some (natural ds)) (e :: ds.map digitChar)
  | positive {e : Char} {ds : List (Fin 10)} : e = 'e' ∨ e = 'E' → ds ≠ [] →
      ExponentWritten (some (natural ds)) (e :: '+' :: ds.map digitChar)
  | negative {e : Char} {ds : List (Fin 10)} : e = 'e' ∨ e = 'E' → ds ≠ [] →
      ExponentWritten (some (-natural ds)) (e :: '-' :: ds.map digitChar)

theorem exponentWritten_exponentChars (e : Int) : ExponentWritten (some e) (exponentChars e) := by
  obtain ⟨ds, hne, hds, hn⟩ := exists_digits e.natAbs
  rw [exponentChars, ← hds]
  split
  · have he : e = -natural ds := by omega
    rw [he]
    exact .negative (.inl rfl) hne
  · have he : e = natural ds := by omega
    rw [he]
    exact .positive (.inl rfl) hne

variable {e : Option Int} {cs : List Char}

theorem exponent?_map_digitChar {ds : List (Fin 10)} (h : ds ≠ []) :
    exponent? (ds.map digitChar) = some (natural ds : Int) := by
  have hn := natural?_map_digitChar h
  obtain ⟨d, ds, rfl⟩ := List.exists_cons_of_ne_nil h
  have hsign : ∀ d : Fin 10, digitChar d ≠ '+' ∧ digitChar d ≠ '-' := by decide
  obtain ⟨hplus, hminus⟩ := hsign d
  rw [List.map_cons] at hn ⊢
  rw [exponent?, hn]
  · rfl
  · intro cs hc
    exact hplus (List.cons.inj hc).1
  · intro cs hc
    exact hminus (List.cons.inj hc).1

theorem ExponentWritten.exists_cut (h : ExponentWritten e cs) :
    ∃ part, cut (fun c ↦ c == 'e' || c == 'E') cs = ([], part) ∧
      part.mapM exponent? = some e := by
  have hmark {c : Char} (hc : c = 'e' ∨ c = 'E') : (c == 'e' || c == 'E') = true := by
    simpa using hc
  cases h with
  | none => exact ⟨Option.none, rfl, rfl⟩
  | unsigned hc hne =>
    refine ⟨_, cut_mark (hmark hc) _, ?_⟩
    simp [exponent?_map_digitChar hne]
  | positive hc hne =>
    refine ⟨_, cut_mark (hmark hc) _, ?_⟩
    simp [exponent?, natural?_map_digitChar hne]
  | negative hc hne =>
    refine ⟨_, cut_mark (hmark hc) _, ?_⟩
    simp [exponent?, natural?_map_digitChar hne, Int.negOfNat_eq]

end Exponents

section Written

variable {n : Number} {cs : List Char}

/-- How a number may be written. Only the exponent leaves a choice. -/
def Written (n : Number) (cs : List Char) : Prop :=
  ∃ exponent, ExponentWritten n.exponent exponent ∧
    cs = (if n.negative then ['-'] else []) ++
      (Nat.toDigits 10 n.whole ++ fractionChars n.fraction ++ exponent)

theorem written_chars (n : Number) : n.Written n.chars := by
  refine ⟨(n.exponent.map exponentChars).getD [], ?_, ?_⟩
  · cases n.exponent with
    | none => exact .none
    | some e => exact exponentWritten_exponentChars e
  · simp only [chars, fractionChars, List.append_assoc]

theorem unsigned?_eq_some (n : Number) (h : ExponentWritten n.exponent cs) :
    unsigned? n.negative (Nat.toDigits 10 n.whole ++ fractionChars n.fraction ++ cs) = some n := by
  obtain ⟨negative, whole, ds, e⟩ := n
  obtain ⟨part, hp, he⟩ := h.exists_cut
  have hm : ∀ c ∈ Nat.toDigits 10 whole ++ fractionChars ds, (c == 'e' || c == 'E') = false := by
    intro c hc
    have hdot : c.isDigit = true ∨ c = '.' := by
      rcases List.mem_append.1 hc with hc | hc
      · exact .inl (isDigit_toDigits hc)
      · exact isDigit_or_eq_of_mem_fractionChars hc
    rcases hdot with hc | rfl
    · rw [beq_eq_false_of_isDigit hc rfl, beq_eq_false_of_isDigit hc rfl, Bool.or_false]
    · rfl
  have hw : ∀ c ∈ Nat.toDigits 10 whole, (c == '.') = false := fun c hc ↦
    beq_eq_false_of_isDigit (isDigit_toDigits hc) rfl
  have hd : (if ds.isEmpty then none else some (ds.map digitChar)).mapM digits? =
      some (if ds.isEmpty then none else some ds) := by
    split
    · rfl
    · next h =>
      have hne : ds ≠ [] := by simpa using h
      simp [digits?_map_digitChar hne]
  rw [unsigned?, cut_append hm, hp]
  simp only [List.append_nil, cut_append hw, cut_fraction, if_neg (not_leading_zero whole),
    natural?_toDigits, he, hd]
  cases ds <;> rfl

theorem exists_cons_toDigits (n : Nat) :
    ∃ c cs, Nat.toDigits 10 n = c :: cs ∧ c.isDigit = true := by
  obtain ⟨c, cs, hc⟩ := List.exists_cons_of_ne_nil (Nat.toDigits_ne_nil (n := n) (b := 10))
  exact ⟨c, cs, hc, isDigit_toDigits (hc ▸ List.mem_cons_self)⟩

theorem Written.ofChars?_eq (h : n.Written cs) : ofChars? cs = some n := by
  obtain ⟨text, he, rfl⟩ := h
  have hu := unsigned?_eq_some n he
  split
  · next hn =>
    rw [hn] at hu
    exact hu
  · next hn =>
    obtain ⟨c, cs, hc, hd⟩ := exists_cons_toDigits n.whole
    rw [Bool.not_eq_true] at hn
    rw [hn, hc, List.cons_append, List.cons_append] at hu
    have hne : c ≠ '-' := by
      rintro rfl
      cases hd
    rw [hc, List.nil_append, List.cons_append, List.cons_append, ofChars?, hu]
    intro cs' he
    exact hne (List.cons.inj he).1

theorem Written.ne_nil (h : n.Written cs) : cs ≠ [] := by
  obtain ⟨text, -, rfl⟩ := h
  obtain ⟨c, cs, hc, -⟩ := exists_cons_toDigits n.whole
  simp [hc]

def isNumeric (c : Char) : Bool :=
  c.isDigit || c == '-' || c == '.' || c == 'e' || c == 'E' || c == '+'

theorem isNumeric_of_isDigit {c : Char} (h : c.isDigit = true) : isNumeric c = true := by
  simp [isNumeric, h]

theorem ExponentWritten.isNumeric {e : Option Int} (h : ExponentWritten e cs) :
    ∀ c ∈ cs, isNumeric c = true := by
  have hletter {c : Char} (hc : c = 'e' ∨ c = 'E') : Number.isNumeric c = true := by
    rcases hc with rfl | rfl <;> rfl
  have hdigits (ds : List (Fin 10)) : ∀ c ∈ ds.map digitChar, Number.isNumeric c = true :=
    List.forall_mem_map.2 fun d _ ↦ isNumeric_of_isDigit (isDigit_digitChar d)
  cases h with
  | none => exact List.forall_mem_nil _
  | unsigned hc => exact List.forall_mem_cons.2 ⟨hletter hc, hdigits _⟩
  | positive hc | negative hc =>
    exact List.forall_mem_cons.2 ⟨hletter hc, List.forall_mem_cons.2 ⟨rfl, hdigits _⟩⟩

theorem Written.isNumeric (h : n.Written cs) : ∀ c ∈ cs, isNumeric c = true := by
  obtain ⟨text, he, rfl⟩ := h
  intro c hc
  rcases List.mem_append.1 hc with hs | hu
  · split at hs
    · rw [List.mem_singleton.1 hs]
      rfl
    · cases hs
  · rcases List.mem_append.1 hu with hm | ht
    · rcases List.mem_append.1 hm with hw | hf
      · exact isNumeric_of_isDigit (isDigit_toDigits hw)
      · rcases isDigit_or_eq_of_mem_fractionChars hf with hd | rfl
        · exact isNumeric_of_isDigit hd
        · rfl
    · exact he.isNumeric c ht

end Written

end FunctorCalls.Json.Number
