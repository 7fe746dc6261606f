namespace FunctorCalls

section

variable {α β : Type} [Ord β] [Std.TransOrd β] {f : α → β} {l l' : List α}

theorem nodup_of_pairwise_lt (h : l.Pairwise fun a b ↦ compare (f a) (f b) = .lt) : l.Nodup :=
  h.imp fun hab he ↦ by simp [he, Std.ReflCmp.compare_self] at hab

theorem eq_of_pairwise_lt (h : l.Pairwise fun a b ↦ compare (f a) (f b) = .lt)
    (h' : l'.Pairwise fun a b ↦ compare (f a) (f b) = .lt) (hm : ∀ x, x ∈ l ↔ x ∈ l') :
    l = l' := by
  have hp : l.Perm l' :=
    (List.perm_ext_iff_of_nodup (nodup_of_pairwise_lt h) (nodup_of_pairwise_lt h')).2 hm
  refine hp.eq_of_pairwise (fun a b _ _ hab hba ↦ ?_) h h'
  exact absurd hba (by simp [Std.OrientedCmp.gt_of_lt hab])

end

structure OrdSet (α : Type) [Ord α] where
  toList : List α
  sorted : toList.Pairwise fun a b ↦ compare a b = .lt

namespace OrdSet

variable {α : Type} [Ord α]

instance : Membership α (OrdSet α) := ⟨fun s a ↦ a ∈ s.toList⟩

instance [DecidableEq α] (s : OrdSet α) (a : α) : Decidable (a ∈ s) :=
  inferInstanceAs (Decidable (a ∈ s.toList))

theorem mem_toList {s : OrdSet α} {a : α} : a ∈ s.toList ↔ a ∈ s := .rfl

def empty : OrdSet α := ⟨[], .nil⟩

@[simp]
theorem not_mem_empty {a : α} : a ∉ (empty : OrdSet α) := List.not_mem_nil

def size (s : OrdSet α) : Nat := s.toList.length

def isEmpty (s : OrdSet α) : Bool := s.toList.isEmpty

def filter (s : OrdSet α) (p : α → Bool) : OrdSet α := ⟨s.toList.filter p, s.sorted.filter p⟩

@[simp]
theorem mem_filter {s : OrdSet α} {p : α → Bool} {a : α} : a ∈ s.filter p ↔ a ∈ s ∧ p a = true :=
  List.mem_filter

def insertList (a : α) : List α → List α
  | [] => [a]
  | b :: bs => match compare a b with
    | .lt => a :: b :: bs
    | .eq => b :: bs
    | .gt => b :: insertList a bs

variable [Std.TransOrd α] [Std.LawfulEqOrd α]

omit [Std.TransOrd α] in
theorem mem_insertList {a x : α} {l : List α} : x ∈ insertList a l ↔ x = a ∨ x ∈ l := by
  induction l with
  | nil => simp [insertList]
  | cons b bs ih =>
    rw [insertList]
    split
    · simp
    · next h => simp [Std.LawfulEqOrd.eq_of_compare h]
    · simp [ih, or_left_comm]

theorem sorted_insertList {a : α} {l : List α} (h : l.Pairwise fun a b ↦ compare a b = .lt) :
    (insertList a l).Pairwise fun a b ↦ compare a b = .lt := by
  induction l with
  | nil => simp [insertList]
  | cons b bs ih =>
    obtain ⟨hb, hbs⟩ := List.pairwise_cons.1 h
    rw [insertList]
    split
    · next hab =>
      refine List.pairwise_cons.2 ⟨fun x hx ↦ ?_, h⟩
      rcases List.mem_cons.1 hx with rfl | hx
      · exact hab
      · exact Std.TransCmp.lt_trans hab (hb x hx)
    · exact h
    · next hab =>
      refine List.pairwise_cons.2 ⟨fun x hx ↦ ?_, ih hbs⟩
      rcases mem_insertList.1 hx with rfl | hx
      · exact Std.OrientedCmp.lt_of_gt hab
      · exact hb x hx

def insert (s : OrdSet α) (a : α) : OrdSet α := ⟨insertList a s.toList, sorted_insertList s.sorted⟩

@[simp]
theorem mem_insert {s : OrdSet α} {a x : α} : x ∈ s.insert a ↔ x = a ∨ x ∈ s := mem_insertList

def ofList (l : List α) : OrdSet α := l.foldl insert empty

@[simp]
theorem mem_ofList {l : List α} {x : α} : x ∈ ofList l ↔ x ∈ l := by
  have go (s : OrdSet α) : x ∈ l.foldl insert s ↔ x ∈ s ∨ x ∈ l := by
    induction l generalizing s with
    | nil => simp
    | cons a l ih => simp [ih, or_assoc, or_left_comm]
  simp [ofList, go]

theorem mem_ofList_map_filter {β : Type} [Ord β] {s : OrdSet β} {p : β → Bool} {f : β → α}
    {x : α} : x ∈ ofList ((s.toList.filter p).map f) ↔ ∃ b ∈ s, p b = true ∧ f b = x := by
  simp only [mem_ofList, List.mem_map, List.mem_filter, mem_toList, and_assoc]

omit [Std.LawfulEqOrd α] in
theorem nodup (s : OrdSet α) : s.toList.Nodup := nodup_of_pairwise_lt (f := id) s.sorted

omit [Std.LawfulEqOrd α] in
theorem eq_of_sorted {l l' : List α} (h : l.Pairwise fun a b ↦ compare a b = .lt)
    (h' : l'.Pairwise fun a b ↦ compare a b = .lt) (hm : ∀ x, x ∈ l ↔ x ∈ l') : l = l' :=
  eq_of_pairwise_lt (f := id) h h' hm

omit [Std.LawfulEqOrd α] in
theorem ext {s t : OrdSet α} (h : ∀ a, a ∈ s ↔ a ∈ t) : s = t := by
  have hl : s.toList = t.toList := eq_of_sorted s.sorted t.sorted h
  cases s
  cases t
  simp_all

end OrdSet

end FunctorCalls
