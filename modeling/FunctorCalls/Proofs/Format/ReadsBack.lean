import FunctorCalls.Format.Text
import FunctorCalls.Proofs.Format.Ty
import FunctorCalls.Proofs.Json.Presented
import FunctorCalls.Proofs.Json.Reader

namespace FunctorCalls

open Json (Shape)
open Json.Shape (Fits Presents)

namespace Form

theorem isProper_definition : Shape.IsProper definition := fun f ↦ by
  cases f <;> exact ⟨rfl, rfl⟩

variable {f : Form} {cs : List (String × Option (Shape Form))} {tag : String}

theorem fits_plain (hf : f.definition = .cases cs) (ht : cs.lookup tag = some none) :
    Fits definition (.named f) (.string tag) := by
  refine Shape.fits_named ?_
  rw [hf]
  exact Shape.fits_plain_case ht

theorem fits_content {shape : Shape Form} {j : Json} (hf : f.definition = .cases cs)
    (ht : cs.lookup tag = some (some shape)) (h : Fits definition shape j) :
    Fits definition (.named f) (.object [(tag, j)]) := by
  refine Shape.fits_named ?_
  rw [hf]
  exact Shape.fits_case ht h

theorem fits_fields {fields : List (String × Json)}
    {declared : List (String × Json.Presence × Shape Form)} (hf : f.definition = .cases cs)
    (ht : cs.lookup tag = some (some (.record declared))) (hn : (declared.map Prod.fst).Nodup)
    (h : Shape.FieldsPresent definition fields declared fields) :
    Fits definition (.named f) (.object [(tag, .object fields)]) :=
  fits_content hf ht (Shape.fits_record hn h)

end Form

theorem Json.Number.int?_ofInt (i : Int) : (ofInt i).int? = some i := by
  cases i <;> rfl

section Options

variable {α β γ δ ε : Type} {x : Option α} {y : Option β} {z : Option γ} {a : α} {b : β} {c : γ}

theorem read₁ (f : α → δ) (hx : x = some a) : (do return f (← x)) = some (f a) := by
  rw [hx]
  rfl

theorem read₂ (f : α → β → δ) (hx : x = some a) (hy : y = some b) :
    (do return f (← x) (← y)) = some (f a b) := by
  rw [hx, hy]
  rfl

theorem read₃ (f : α → β → γ → δ) (hx : x = some a) (hy : y = some b) (hz : z = some c) :
    (do return f (← x) (← y) (← z)) = some (f a b c) := by
  rw [hx, hy, hz]
  rfl

theorem read₄ {w : Option δ} {d : δ} (f : α → β → γ → δ → ε) (hx : x = some a) (hy : y = some b)
    (hz : z = some c) (hw : w = some d) :
    (do return f (← x) (← y) (← z) (← w)) = some (f a b c d) := by
  rw [hx, hy, hz, hw]
  rfl

end Options

namespace Format

section Values

variable {α : Type} [Format α]

structure ReadsBack (a : α) : Prop where
  fits : Fits Form.definition (shape α) (toJson a)
  reads : ofJson? (toJson a) = some a

class Legible (α : Type) [Format α] : Prop where
  readsBack : ∀ a : α, ReadsBack a

theorem ofJson?_of_ne_null {j : Json} (hj : j ≠ .null) :
    (ofJson? j : Option (Option α)) = (ofJson? j).map some := by
  cases j with
  | null => exact absurd rfl hj
  | _ => rfl

namespace ReadsBack

theorem read?_eq {a : α} (h : ReadsBack a) {j : Json} {text : String}
    (hj : Presents Form.definition (shape α) (toJson a) j) (ht : j.Written text) :
    read? text = some a := by
  rw [read?, ht.parse?_eq, Option.bind_some, decode?, hj.canonical?_eq Form.isProper_definition,
    Option.bind_some, h.reads]

theorem read?_print {a : α} (h : ReadsBack a) {style : Json.Style} (hs : style.IsBlank) :
    read? ((toJson a).print style) = some a :=
  h.read?_eq h.fits (Json.written_print hs _)

theorem list {as : List α} (h : ∀ a ∈ as, ReadsBack a) : ReadsBack as where
  fits := by
    refine Shape.fits_list fun j hj ↦ ?_
    obtain ⟨a, ha, rfl⟩ := List.mem_map.1 hj
    exact (h a ha).fits
  reads := by
    change (as.map toJson).mapM ofJson? = some as
    induction as with
    | nil => rfl
    | cons a as ih =>
      simp [(h a List.mem_cons_self).reads, ih fun b hb ↦ h b (List.mem_cons_of_mem a hb)]

/-- Lists that are written and read by functions of their own, item by item. -/
theorem items {as : List α} (h : ∀ a ∈ as, ReadsBack a) (write : List α → List Json)
    (read? : List Json → Option (List α)) (hwn : write [] = [])
    (hwc : ∀ a as, write (a :: as) = toJson a :: write as) (hrn : read? [] = some [])
    (hrc : ∀ j js, read? (j :: js) = do return (← ofJson? j) :: (← read? js)) :
    Fits Form.definition (.list (shape α)) (.array (write as)) ∧
      read? (write as) = some as := by
  have hw : ∀ as, write as = as.map toJson := by
    intro as
    induction as with
    | nil => exact hwn
    | cons a as ih => rw [hwc, ih, List.map_cons]
  have hr : ∀ js, read? js = js.mapM ofJson? := by
    intro js
    induction js with
    | nil => exact hrn
    | cons j js ih => rw [hrc, ih, List.mapM_cons]
  rw [hw, hr]
  exact ⟨(list h).fits, (list h).reads⟩

/-- Where null stands for no value, it may stand for a missing one. -/
theorem option {o : Option α} (hs : (shape α).canonical? Form.definition .null = none)
    (h : ∀ a ∈ o, ReadsBack a) : ReadsBack o := by
  cases o with
  | none => exact ⟨Shape.fits_null _, rfl⟩
  | some a =>
    have ha : ReadsBack a := h a rfl
    refine ⟨Shape.fits_nullable hs ha.fits, ?_⟩
    change ofJson? (toJson a) = some (some a)
    rw [ofJson?_of_ne_null (ha.fits.ne_null Form.isProper_definition hs), ha.reads, Option.map_some]

theorem mapM_entries {entries : List (String × α)} (h : ∀ e ∈ entries, ReadsBack e.2) :
    (entries.map fun (key, a) ↦ (key, toJson a)).mapM entry? = some entries := by
  induction entries with
  | nil => rfl
  | cons e entries ih =>
    have he : ofJson? (toJson e.2) = some e.2 := (h e List.mem_cons_self).reads
    simp [he, entry?, ih fun d hd ↦ h d (List.mem_cons_of_mem e hd)]

theorem orderedMap {m : OrderedMap α} (h : ∀ e ∈ m.entries, ReadsBack e.2) : ReadsBack m where
  fits := by
    refine Shape.fits_map fun f hf ↦ ?_
    obtain ⟨e, he, rfl⟩ := List.mem_map.1 hf
    exact (h e he).fits
  reads := by
    change ((m.entries.map fun (key, a) ↦ (key, toJson a)).mapM entry?).map .ofList = some m
    rw [mapM_entries h, Option.map_some, OrderedMap.ofList_entries]

end ReadsBack

instance [Legible α] : Legible (List α) := ⟨fun _ ↦ .list fun a _ ↦ Legible.readsBack a⟩

instance [Legible α] : Legible (Option (List α)) :=
  ⟨fun _ ↦ .option (by simp [shape, Shape.canonical?, Shape.isNullable, Shape.head])
    fun as _ ↦ Legible.readsBack as⟩

end Values

section Verbatim

instance : Legible Bool := ⟨fun _ ↦ ⟨Shape.fits_verbatim _, rfl⟩⟩

instance : Legible String := ⟨fun _ ↦ ⟨Shape.fits_verbatim _, rfl⟩⟩

instance : Legible Int64 where
  readsBack n := by
    refine ⟨Shape.fits_verbatim _, ?_⟩
    simp [toJson, ofJson?, Json.Number.int?_ofInt]

theorem below?_toJson {bound n : Nat} (h : n < bound) :
    below? bound (.number (.ofInt n)) = some n := by
  have hn : (Json.Number.ofInt n).int? = some (.ofNat n) := Json.Number.int?_ofInt n
  simp [below?, hn, h]

instance : Legible UInt32 where
  readsBack n := by
    refine ⟨Shape.fits_verbatim _, ?_⟩
    have h : below? UInt32.size (toJson n) = some n.toNat := below?_toJson n.toNat_lt
    change (below? UInt32.size (toJson n)).map UInt32.ofNat = some n
    rw [h, Option.map_some, UInt32.ofNat_toNat]

end Verbatim

section Tags

variable {α : Type} [Tagged α]

theorem lookup_map_tag {as : List α} {a : α} (h : a ∈ as) :
    (as.map fun b ↦ (Tagged.tag b, (none : Option (Shape Form)))).lookup (Tagged.tag a) =
      some none := by
  induction as with
  | nil => cases h
  | cons b as ih =>
    by_cases hb : Tagged.tag a = Tagged.tag b
    · simp [hb]
    · have ha : a ∈ as := (List.mem_cons.1 h).resolve_left fun h ↦ hb (h ▸ rfl)
      simpa [List.lookup_cons, beq_eq_false_iff_ne.2 hb] using ih ha

instance [Tagged.Lawful α] : Legible α where
  readsBack a := by
    have ha : Tagged.ofTag? (Tagged.tag a) = some a := Tagged.Lawful.ofTag?_tag a
    exact ⟨Shape.fits_plain_case (lookup_map_tag (List.mem_of_find?_eq_some ha)), ha⟩

end Tags

end Format

end FunctorCalls
