import FunctorCalls.Digest
import FunctorCalls.Proofs.Json.Reader

namespace FunctorCalls

class Format.Lawful (α : Type) [Format α] : Prop where
  ofJson?_toJson : ∀ a : α, Format.ofJson? (Format.toJson a) = some a

class Tagged.Lawful (α : Type) [Tagged α] : Prop where
  ofTag?_tag : ∀ a : α, Tagged.ofTag? (Tagged.tag a) = some a

namespace Format

instance {α : Type} [Tagged α] [Tagged.Lawful α] : Lawful α := ⟨Tagged.Lawful.ofTag?_tag⟩

instance : Tagged.Lawful Variant := ⟨fun v ↦ by cases v <;> rfl⟩

instance : Tagged.Lawful Base := ⟨fun b ↦ by cases b <;> rfl⟩

instance : Lawful Name := ⟨fun _ ↦ rfl⟩

instance : Lawful Functors := ⟨fun _ ↦ rfl⟩

theorem toJson_injective {α : Type} [Format α] [Lawful α] :
    Function.Injective (toJson : α → Json) := by
  intro a b h
  exact Option.some.inj ((Lawful.ofJson?_toJson a).symm.trans (h ▸ Lawful.ofJson?_toJson b))

end Format

namespace Ty

mutual

theorem ofJson?_toJson : ∀ t : Ty, ofJson? t.toJson = some t
  | base b => by
    have hb : Tagged.ofTag? (Tagged.tag b) = some b := Tagged.Lawful.ofTag?_tag b
    simp [toJson, Format.toJson, ofJson?, hb]
  | array t => by simp [toJson, ofJson?, ofJson?_toJson t]
  | tuple ts => by simp [toJson, ofJson?, itemsOfJson?_itemsToJson ts]
  | userDefined n => by simp [toJson, ofJson?, Format.Lawful.ofJson?_toJson n]
  | parameter o n => by simp [toJson, ofJson?, Format.Lawful.ofJson?_toJson o]
  | function i o => by simp [toJson, ofJson?, ofJson?_toJson i, ofJson?_toJson o]
  | operation i o f => by
    simp [toJson, ofJson?, ofJson?_toJson i, ofJson?_toJson o, Format.Lawful.ofJson?_toJson f]

theorem itemsOfJson?_itemsToJson : ∀ ts : List Ty, itemsOfJson? (itemsToJson ts) = some ts
  | [] => by simp [itemsToJson, itemsOfJson?]
  | t :: ts => by
    simp [itemsToJson, itemsOfJson?, ofJson?_toJson t, itemsOfJson?_itemsToJson ts]

end

instance : Format.Lawful Ty := ⟨ofJson?_toJson⟩

theorem text_injective : Function.Injective text := fun _ _ h ↦
  Format.toJson_injective (Json.print_injective Json.Style.isBlank_compact h)

example : (array (userDefined ⟨"", "a\"b"⟩)).text =
    "\x7b\"Array\":\x7b\"UserDefined\":\x7b\"namespace\":\"\",\"name\":\"a\\\"b\"\x7d\x7d\x7d" := by
  decide +kernel

end Ty

end FunctorCalls
