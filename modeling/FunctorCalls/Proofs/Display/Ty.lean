import FunctorCalls.Proofs.Display.Word

namespace FunctorCalls

/-- All names that the type shows are plain. User-defined types are in a namespace. -/
inductive Ty.IsPlain : Ty → Prop
  | base (b : Base) : IsPlain (.base b)
  | array {t : Ty} : IsPlain t → IsPlain (.array t)
  | tuple {ts : List Ty} : (∀ t ∈ ts, IsPlain t) → IsPlain (.tuple ts)
  | userDefined {n : Name} : IsIdentifier n.base → IsPath n.space → IsPlain (.userDefined n)
  | parameter (origin : Name) {name : String} : IsIdentifier name → IsPlain (.parameter origin name)
  | function {i o : Ty} : IsPlain i → IsPlain o → IsPlain (.function i o)
  | operation {i o : Ty} (f : Functors) : IsPlain i → IsPlain o → IsPlain (.operation i o f)

namespace Ty

mutual

/-- The type with nothing left of where its parameters are declared. -/
def withoutOrigins : Ty → Ty
  | base b => base b
  | array t => array (withoutOrigins t)
  | tuple ts => tuple (itemsWithoutOrigins ts)
  | userDefined n => userDefined n
  | parameter _ n => parameter ⟨"", ""⟩ n
  | function i o => function (withoutOrigins i) (withoutOrigins o)
  | operation i o f => operation (withoutOrigins i) (withoutOrigins o) f

def itemsWithoutOrigins : List Ty → List Ty
  | [] => []
  | t :: ts => withoutOrigins t :: itemsWithoutOrigins ts

end

theorem itemsWithoutOrigins_eq_map (ts : List Ty) :
    itemsWithoutOrigins ts = ts.map withoutOrigins := by
  induction ts with
  | nil => rfl
  | cons t ts ih => rw [itemsWithoutOrigins, ih, List.map_cons]

mutual

theorem display_withoutOrigins : ∀ t : Ty, t.withoutOrigins.display = t.display
  | base _ | userDefined _ | parameter _ _ => by simp [withoutOrigins, display]
  | array t => by simp [withoutOrigins, display, display_withoutOrigins t]
  | tuple ts => by simp [withoutOrigins, display, displayItems_withoutOrigins ts]
  | function i o => by
    simp [withoutOrigins, display, display_withoutOrigins i, display_withoutOrigins o]
  | operation i o _ => by
    simp [withoutOrigins, display, display_withoutOrigins i, display_withoutOrigins o]

theorem displayItems_withoutOrigins :
    ∀ ts : List Ty, displayItems (itemsWithoutOrigins ts) = displayItems ts
  | [] => by simp [itemsWithoutOrigins]
  | [t] => by simp [itemsWithoutOrigins, displayItems, display_withoutOrigins t]
  | t :: t' :: ts => by
    have h := displayItems_withoutOrigins (t' :: ts)
    rw [itemsWithoutOrigins] at h
    simp [itemsWithoutOrigins, displayItems, display_withoutOrigins t, h]

end

section Letters

variable (t : Ty) (ts : List Ty) (rest : List Char)

def letters : List Char := t.display.toList ++ rest

def itemLetters : List Char := (displayItems ts).toList ++ rest

def moreLetters : List Char :=
  match ts with
  | [] => rest
  | t :: ts => ',' :: ' ' :: itemLetters (t :: ts) rest

theorem letters_base (b : Base) : (base b).letters rest = b.display.toList ++ rest := by
  simp [letters, display]

theorem letters_array : (array t).letters rest = t.letters ('[' :: ']' :: rest) := by
  simp [letters, display]

theorem letters_tuple : (tuple ts).letters rest = '(' :: itemLetters ts (')' :: rest) := by
  simp [letters, itemLetters, display]

theorem letters_userDefined (n : Name) :
    (userDefined n).letters rest = n.display.toList ++ rest := by
  simp [letters, display]

theorem letters_parameter (origin : Name) (name : String) :
    (parameter origin name).letters rest = '\'' :: (name.toList ++ rest) := by
  simp [letters, display]

theorem letters_function (i o : Ty) : (function i o).letters rest =
    '(' :: i.letters (' ' :: '-' :: '>' :: ' ' :: o.letters (')' :: rest)) := by
  simp [letters, display]

theorem letters_operation (i o : Ty) (f : Functors) : (operation i o f).letters rest =
    '(' :: i.letters (' ' :: '=' :: '>' :: ' ' :: o.letters (f.display.toList ++ ')' :: rest)) := by
  simp [letters, display]

theorem itemLetters_nil : itemLetters [] rest = rest := by
  simp [itemLetters, displayItems]

theorem itemLetters_cons : itemLetters (t :: ts) rest = t.letters (moreLetters ts rest) := by
  cases ts with
  | nil => simp [itemLetters, moreLetters, letters, displayItems]
  | cons u us => simp [itemLetters, moreLetters, letters, displayItems]

end Letters

section Reading

variable {t t' : Ty} {rest rest' : List Char}

def Opens : Ty → Char → Prop
  | base _, c | userDefined _, c => InWord c
  | parameter _ _, c => c = '\''
  | array t, c => Opens t c
  | tuple _, c | function _ _, c | operation _ _ _, c => c = '('

theorem exists_opens (h : t.IsPlain) (rest : List Char) :
    ∃ c cs, t.letters rest = c :: cs ∧ t.Opens c := by
  induction h generalizing rest with
  | base b =>
    rw [letters_base]
    exact exists_letter_of_word (by cases b <;> decide) b.inWord_display rest
  | userDefined hb hs =>
    rw [letters_userDefined]
    exact exists_letter_of_word (Name.toList_display_ne_nil hb)
      (Name.inWord_display hb hs.inWord) rest
  | parameter => exact ⟨_, _, letters_parameter .., rfl⟩
  | array _ ih => simpa only [letters_array, Opens] using ih _
  | tuple => exact ⟨_, _, letters_tuple .., rfl⟩
  | function => exact ⟨_, _, letters_function .., rfl⟩
  | operation => exact ⟨_, _, letters_operation .., rfl⟩

theorem exists_opens_both (h : t.IsPlain) (h' : t'.IsPlain)
    (he : t.letters rest = t'.letters rest') : ∃ c, t.Opens c ∧ t'.Opens c := by
  obtain ⟨c, cs, hc, ho⟩ := exists_opens h rest
  obtain ⟨c', cs', hc', ho'⟩ := exists_opens h' rest'
  rw [hc, hc', List.cons.injEq] at he
  exact ⟨c, ho, he.1 ▸ ho'⟩

/-- Takes the brackets at the beginning of a text into the type in front of them. -/
def bracket : Ty → List Char → Ty × List Char
  | t, '[' :: ']' :: cs => bracket (array t) cs
  | t, cs => (t, cs)

/-- No word and no array goes on here. -/
def Ends (rest : List Char) : Prop := ∀ c ∈ rest.head?, ¬ InWord c ∧ c ≠ '['

theorem bracket_of_ends (h : Ends rest) (t : Ty) : bracket t rest = (t, rest) := by
  rw [bracket]
  rintro cs rfl
  exact (h '[' rfl).2 rfl

theorem Ends.stops (h : Ends rest) : Stops rest := fun c hc ↦ (h c hc).1

theorem ends_cons {c : Char} (h : ¬ InWord c ∧ c ≠ '[') (rest : List Char) : Ends (c :: rest) := by
  rintro d ⟨rfl⟩
  exact h

/-- Whatever type the same letters are read as, it is this one with as many brackets. -/
def Reads (t : Ty) : Prop :=
  ∀ ⦃t' : Ty⦄ ⦃rest rest' : List Char⦄, t'.IsPlain → Stops rest → Stops rest' →
    t.letters rest = t'.letters rest' →
      bracket t.withoutOrigins rest = bracket t'.withoutOrigins rest'

theorem Reads.of_ends (h : t.Reads) (ht' : t'.IsPlain) (hr : Ends rest) (hr' : Ends rest')
    (he : t.letters rest = t'.letters rest') :
    t.withoutOrigins = t'.withoutOrigins ∧ rest = rest' := by
  have hb := h ht' hr.stops hr'.stops he
  rwa [bracket_of_ends hr, bracket_of_ends hr', Prod.mk.injEq] at hb

theorem stops_bracket (rest : List Char) : Stops ('[' :: rest) := by
  rintro c ⟨rfl⟩
  simp [InWord]

/-- Brackets are all that a type can have behind another one. -/
theorem reads_of_no_array (h : ∀ ⦃t' : Ty⦄ ⦃rest rest' : List Char⦄, (∀ u, t' ≠ array u) →
    t'.IsPlain → Stops rest → Stops rest' → t.letters rest = t'.letters rest' →
      t.withoutOrigins = t'.withoutOrigins ∧ rest = rest') : t.Reads := by
  have plain ⦃t' : Ty⦄ ⦃rest rest' : List Char⦄ (hn : ∀ u, t' ≠ array u) (ht' : t'.IsPlain)
      (hr : Stops rest) (hr' : Stops rest') (he : t.letters rest = t'.letters rest') :
      bracket t.withoutOrigins rest = bracket t'.withoutOrigins rest' := by
    obtain ⟨ht, rfl⟩ := h hn ht' hr hr' he
    rw [ht]
  intro t' rest rest' ht' hr hr' he
  -- The brackets of an array go over to what follows it.
  induction ht' generalizing rest' with
  | array _ ih => exact ih (stops_bracket _) (letters_array _ _ ▸ he)
  | base b => exact plain nofun (.base b) hr hr' he
  | tuple h => exact plain nofun (.tuple h) hr hr' he
  | userDefined hb hs => exact plain nofun (.userDefined hb hs) hr hr' he
  | parameter o hn => exact plain nofun (.parameter o hn) hr hr' he
  | function hi ho => exact plain nofun (.function hi ho) hr hr' he
  | operation f hi ho => exact plain nofun (.operation f hi ho) hr hr' he

theorem reads_array (h : t.Reads) : (array t).Reads := by
  intro t' rest rest' ht' _ hr' he
  exact h ht' (stops_bracket _) hr' (letters_array _ _ ▸ he)

/-- A type that is shown as a word, and nothing else. -/
inductive IsWord : Ty → Prop
  | base (b : Base) : IsWord (.base b)
  | userDefined {n : Name} : IsIdentifier n.base → IsPath n.space → IsWord (.userDefined n)

theorem IsWord.isPlain (h : t.IsWord) : t.IsPlain := by
  cases h with
  | base b => exact .base b
  | userDefined hb hs => exact .userDefined hb hs

theorem IsWord.inWord (h : t.IsWord) : ∀ c ∈ t.display.toList, InWord c := by
  cases h with
  | base b => simpa only [display] using b.inWord_display
  | userDefined hb hs => simpa only [display] using Name.inWord_display hb hs.inWord

theorem isWord_of_opens (h : t.IsPlain) (hn : ∀ u, t ≠ array u) {c : Char} (hc : InWord c)
    (ho : t.Opens c) : t.IsWord := by
  cases h with
  | base b => exact .base b
  | userDefined hb hs => exact .userDefined hb hs
  | array => exact absurd rfl (hn _)
  | parameter | tuple | function | operation =>
    obtain rfl := ho
    simp [InWord] at hc

theorem IsWord.opens (h : t.IsWord) {c : Char} (ho : t.Opens c) : InWord c := by
  cases h with
  | base | userDefined => exact ho

/-- A dot tells the names of users from those that are built in. -/
theorem IsWord.eq_of_display_eq (h : t.IsWord) (h' : t'.IsWord) (he : t.display = t'.display) :
    t = t' := by
  cases h with
  | base b =>
    cases h' with
    | base b' =>
      simp only [display] at he
      rw [Base.display_injective he]
    | @userDefined n' hb' hs' =>
      simp only [display] at he
      exact absurd (he ▸ Name.mem_dot_display hs'.ne_empty) b.notMem_dot
  | @userDefined n hb hs =>
    cases h' with
    | base b' =>
      simp only [display] at he
      exact absurd (he ▸ Name.mem_dot_display hs.ne_empty) b'.notMem_dot
    | @userDefined n' hb' hs' =>
      simp only [display] at he
      rw [Name.injOn_display hb.notMem_dot hb'.notMem_dot he]

theorem reads_word (h : t.IsWord) : t.Reads := by
  refine reads_of_no_array fun t' rest rest' hn ht' hr hr' he ↦ ?_
  obtain ⟨c, hc, hc'⟩ := exists_opens_both h.isPlain ht' he
  have h' : t'.IsWord := isWord_of_opens ht' hn (h.opens hc) hc'
  obtain ⟨hd, hrest⟩ := eq_of_word_append h.inWord h'.inWord hr hr' he
  rw [h.eq_of_display_eq h' (String.toList_inj.1 hd)]
  exact ⟨rfl, hrest⟩

theorem exists_parameter_of_opens (h : t.IsPlain) (hn : ∀ u, t ≠ array u) (ho : t.Opens '\'') :
    ∃ origin name, t = parameter origin name ∧ IsIdentifier name := by
  cases h with
  | parameter origin h => exact ⟨origin, _, rfl, h⟩
  | array => exact absurd rfl (hn _)
  | base | userDefined | tuple | function | operation => simp [Opens, InWord] at ho

theorem reads_parameter (origin : Name) {name : String} (h : IsIdentifier name) :
    (parameter origin name).Reads := by
  refine reads_of_no_array fun t' rest rest' hn ht' hr hr' he ↦ ?_
  obtain ⟨_, rfl, hc⟩ := exists_opens_both (.parameter origin h) ht' he
  obtain ⟨origin', name', rfl, h'⟩ := exists_parameter_of_opens ht' hn hc
  rw [letters_parameter, letters_parameter, List.cons.injEq] at he
  obtain ⟨hd, hrest⟩ := eq_of_word_append h.inWord h'.inWord hr hr' he.2
  rw [String.toList_inj.1 hd]
  exact ⟨rfl, hrest⟩

/-- Functions and operations: the arrow, the parts, and what is shown behind the second part. -/
inductive IsArrow : Ty → Char → Ty → Ty → List Char → Prop
  | function (i o : Ty) : IsArrow (.function i o) '-' i o []
  | operation (i o : Ty) (f : Functors) : IsArrow (.operation i o f) '=' i o f.display.toList

theorem group_of_opens (h : t.IsPlain) (hn : ∀ u, t ≠ array u) (ho : t.Opens '(') :
    (∃ ts, t = tuple ts ∧ ∀ u ∈ ts, u.IsPlain) ∨
      ∃ c i o s, IsArrow t c i o s ∧ i.IsPlain ∧ o.IsPlain := by
  cases h with
  | tuple h => exact .inl ⟨_, rfl, h⟩
  | function hi ho' => exact .inr ⟨_, _, _, _, .function _ _, hi, ho'⟩
  | operation f hi ho' => exact .inr ⟨_, _, _, _, .operation _ _ f, hi, ho'⟩
  | array => exact absurd rfl (hn _)
  | base | userDefined | parameter => simp [Opens, InWord] at ho

def Closes (c : Char) : Prop := c = ')' ∨ c = '>'

theorem Closes.not_opens {c : Char} (h : Closes c) (ht : t.IsPlain) : ¬ t.Opens c := by
  induction ht with
  | array _ ih => exact ih
  | _ => rcases h with rfl | rfl <;> simp [Opens, InWord]

theorem letters_ne_cons (h : t.IsPlain) {c : Char} (hc : Closes c) :
    t.letters rest ≠ c :: rest' := by
  intro he
  obtain ⟨d, ds, hd, ho⟩ := exists_opens h rest
  rw [hd, List.cons.injEq] at he
  exact hc.not_opens h (he.1 ▸ ho)

theorem ends_moreLetters (ts : List Ty) {c : Char} (hc : Closes c) :
    Ends (moreLetters ts (c :: rest)) := by
  cases ts with
  | nil => exact ends_cons (by rcases hc with rfl | rfl <;> simp [InWord]) _
  | cons t ts => exact ends_cons (by simp [InWord]) _

theorem itemLetters_eq_of_moreLetters_eq {ts ts' : List Ty} {c : Char} (hc : Closes c)
    (he : moreLetters ts (c :: rest) = moreLetters ts' (c :: rest')) :
    itemLetters ts (c :: rest) = itemLetters ts' (c :: rest') := by
  have hcomma : c ≠ ',' := by rcases hc with rfl | rfl <;> decide
  cases ts with
  | nil =>
    cases ts' with
    | nil => simpa [moreLetters, itemLetters_nil] using he
    | cons => exact absurd (List.cons.inj he).1 hcomma
  | cons =>
    cases ts' with
    | nil => exact absurd (List.cons.inj he).1.symm hcomma
    | cons => simpa [moreLetters] using he

theorem eq_of_itemLetters {ts ts' : List Ty} {c : Char} (hc : Closes c)
    (h : ∀ t ∈ ts, t.IsPlain ∧ t.Reads) (h' : ∀ t ∈ ts', t.IsPlain)
    (he : itemLetters ts (c :: rest) = itemLetters ts' (c :: rest')) :
    ts.map withoutOrigins = ts'.map withoutOrigins ∧ rest = rest' := by
  induction ts generalizing ts' with
  | nil =>
    cases ts' with
    | nil =>
      rw [itemLetters_nil, itemLetters_nil, List.cons.injEq] at he
      exact ⟨rfl, he.2⟩
    | cons t' ts' =>
      rw [itemLetters_nil, itemLetters_cons] at he
      exact absurd he.symm (letters_ne_cons (h' t' List.mem_cons_self) hc)
  | cons t ts ih =>
    obtain ⟨ht, hreads⟩ := h t List.mem_cons_self
    cases ts' with
    | nil =>
      rw [itemLetters_nil, itemLetters_cons] at he
      exact absurd he (letters_ne_cons ht hc)
    | cons t' ts' =>
      rw [itemLetters_cons, itemLetters_cons] at he
      obtain ⟨htt, hmore⟩ := hreads.of_ends (h' t' List.mem_cons_self) (ends_moreLetters ts hc)
        (ends_moreLetters ts' hc) he
      obtain ⟨hts, hrest⟩ := ih (fun u hu ↦ h u (List.mem_cons_of_mem t hu))
        (fun u hu ↦ h' u (List.mem_cons_of_mem t' hu)) (itemLetters_eq_of_moreLetters_eq hc hmore)
      rw [List.map_cons, List.map_cons, htt, hts]
      exact ⟨rfl, hrest⟩

section Arrows

variable {c c' : Char} {i i' o o' : Ty} {s s' : List Char}

theorem IsArrow.isPlain (h : IsArrow t c i o s) (hi : i.IsPlain) (ho : o.IsPlain) : t.IsPlain := by
  cases h with
  | function => exact .function hi ho
  | operation _ _ f => exact .operation f hi ho

theorem IsArrow.letters_eq (h : IsArrow t c i o s) (rest : List Char) : t.letters rest =
    '(' :: i.letters (' ' :: c :: '>' :: ' ' :: o.letters (s ++ ')' :: rest)) := by
  cases h with
  | function => exact letters_function ..
  | operation => exact letters_operation ..

theorem IsArrow.ends (h : IsArrow t c i o s) (rest : List Char) : Ends (s ++ ')' :: rest) := by
  cases h with
  | function => exact ends_cons (by simp [InWord]) rest
  | operation _ _ f =>
    obtain ⟨_ | _, _ | _⟩ := f <;> simp [Functors.display, Ends, InWord]

theorem IsArrow.eq_of_parts_eq (h : IsArrow t c i o s) (h' : IsArrow t' c i' o' s')
    (hi : i.withoutOrigins = i'.withoutOrigins) (ho : o.withoutOrigins = o'.withoutOrigins)
    (hs : s ++ ')' :: rest = s' ++ ')' :: rest') :
    t.withoutOrigins = t'.withoutOrigins ∧ rest = rest' := by
  cases h with
  | function =>
    cases h' with
    | function => simpa [withoutOrigins, hi, ho] using hs
  | operation _ _ f =>
    cases h' with
    | operation _ _ f' =>
      obtain ⟨_ | _, _ | _⟩ := f <;> obtain ⟨_ | _, _ | _⟩ := f' <;>
        simp_all [withoutOrigins, Functors.display]

end Arrows

theorem ends_blank (rest : List Char) : Ends (' ' :: rest) := ends_cons (by simp [InWord]) rest

theorem moreLetters_ne_blank (ts : List Ty) : moreLetters ts (')' :: rest) ≠ ' ' :: rest' := by
  cases ts <;> simp [moreLetters]

/-- The letters behind the first part of a group tell a tuple from the others, if that part is read
as the same type in both. -/
theorem itemLetters_ne_letters {ts : List Ty} {i : Ty} (hi : i.IsPlain)
    (h : ∀ t ∈ ts, ∀ ⦃cs ds : List Char⦄, Ends cs → Ends ds → t.letters cs = i.letters ds →
      cs = ds) :
    itemLetters ts (')' :: rest) ≠ i.letters (' ' :: rest') := by
  intro he
  cases ts with
  | nil =>
    rw [itemLetters_nil] at he
    exact letters_ne_cons hi (.inl rfl) he.symm
  | cons t ts =>
    rw [itemLetters_cons] at he
    have hmore := h t List.mem_cons_self (ends_moreLetters ts (.inl rfl)) (ends_blank _) he
    exact moreLetters_ne_blank ts hmore

theorem reads_tuple {ts : List Ty} (h : ∀ t ∈ ts, t.IsPlain ∧ t.Reads) : (tuple ts).Reads := by
  refine reads_of_no_array fun t' rest rest' hn ht' hr hr' he ↦ ?_
  obtain ⟨_, rfl, hc⟩ := exists_opens_both (.tuple fun t ht ↦ (h t ht).1) ht' he
  obtain ⟨ts', rfl, h'⟩ | ⟨c, i, o, s, ha, hi, ho⟩ := group_of_opens ht' hn hc
  · rw [letters_tuple, letters_tuple, List.cons.injEq] at he
    obtain ⟨hts, hrest⟩ := eq_of_itemLetters (.inl rfl) h h' he.2
    simp only [withoutOrigins, itemsWithoutOrigins_eq_map, hts]
    exact ⟨trivial, hrest⟩
  · rw [letters_tuple, ha.letters_eq, List.cons.injEq] at he
    refine absurd he.2 (itemLetters_ne_letters hi fun t ht cs ds hcs hds hl ↦ ?_)
    exact ((h t ht).2.of_ends hi hcs hds hl).2

theorem reads_arrow {c : Char} {i o : Ty} {s : List Char} (h : IsArrow t c i o s)
    (hi : i.IsPlain ∧ i.Reads) (ho : o.IsPlain ∧ o.Reads) : t.Reads := by
  refine reads_of_no_array fun t' rest rest' hn ht' hr hr' he ↦ ?_
  obtain ⟨c, hc, hc'⟩ := exists_opens_both (h.isPlain hi.1 ho.1) ht' he
  obtain rfl : c = '(' := by cases h <;> exact hc
  obtain ⟨ts, rfl, h'⟩ | ⟨c', i', o', s', ha, hi', ho'⟩ := group_of_opens ht' hn hc'
  · rw [letters_tuple, h.letters_eq, List.cons.injEq] at he
    refine absurd he.2.symm (itemLetters_ne_letters hi.1 fun u hu cs ds hcs hds hl ↦ ?_)
    exact (hi.2.of_ends (h' u hu) hds hcs hl.symm).2.symm
  · rw [h.letters_eq, ha.letters_eq, List.cons.injEq] at he
    obtain ⟨hii, hmore⟩ := hi.2.of_ends hi' (ends_blank _) (ends_blank _) he.2
    simp only [List.cons.injEq, true_and] at hmore
    obtain ⟨rfl, hmore⟩ := hmore
    obtain ⟨hoo, hs⟩ := ho.2.of_ends ho' (h.ends rest) (ha.ends rest') hmore
    exact h.eq_of_parts_eq ha hii hoo hs

theorem IsPlain.reads (h : t.IsPlain) : t.Reads := by
  induction h with
  | base b => exact reads_word (.base b)
  | userDefined hb hs => exact reads_word (.userDefined hb hs)
  | parameter origin h => exact reads_parameter origin h
  | array _ ih => exact reads_array ih
  | tuple h ih => exact reads_tuple fun t ht ↦ ⟨h t ht, ih t ht⟩
  | function hi ho ihi iho => exact reads_arrow (.function _ _) ⟨hi, ihi⟩ ⟨ho, iho⟩
  | operation f hi ho ihi iho => exact reads_arrow (.operation _ _ f) ⟨hi, ihi⟩ ⟨ho, iho⟩

end Reading

end Ty

end FunctorCalls
