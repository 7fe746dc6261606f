import FunctorCalls.Proofs.Format.Expr

namespace FunctorCalls

open Format (Legible ReadsBack)
open Json (Shape)
open Json.Shape (Fits)

namespace Pattern

mutual

theorem readsBack : ∀ p : Pattern, ReadsBack p
  | declare _ => ⟨Form.fits_content rfl rfl (Shape.fits_verbatim _), rfl⟩
  | tuple ps =>
    have h := readsBack_items ps
    ⟨Form.fits_content rfl rfl (Shape.fits_list h.1), read₁ tuple h.2⟩
  | discard => ⟨Form.fits_plain rfl rfl, rfl⟩

theorem readsBack_items : ∀ ps : List Pattern,
    (∀ j ∈ itemsToJson ps, Fits Form.definition (.named .pattern) j) ∧
      itemsOfJson? (itemsToJson ps) = some ps
  | [] => ⟨fun _ h ↦ by simp [itemsToJson] at h, rfl⟩
  | p :: ps => by
    have hp : ReadsBack p := readsBack p
    have hps := readsBack_items ps
    refine ⟨fun j h ↦ ?_, read₂ List.cons hp.reads hps.2⟩
    rw [itemsToJson, List.mem_cons] at h
    rcases h with rfl | h
    · exact hp.fits
    · exact hps.1 j h

end

end Pattern

namespace Format

instance : Tagged.Lawful Mutability := ⟨fun m ↦ by cases m <;> rfl⟩

instance : Tagged.Lawful QubitSource := ⟨fun s ↦ by cases s <;> rfl⟩

instance : Legible Pattern := ⟨Pattern.readsBack⟩

end Format

namespace QubitInit

theorem readsBack_items {is : List QubitInit} (h : ∀ i ∈ is, ReadsBack i) :
    Fits Form.definition (.list (.named .qubitInit)) (.array (itemsToJson is)) ∧
      itemsOfJson? (itemsToJson is) = some is :=
  ReadsBack.items h itemsToJson itemsOfJson? rfl (fun _ _ ↦ rfl) rfl fun _ _ ↦ rfl

theorem readsBack {i : QubitInit} (hp : ∀ p ∈ (Node.init i).parts, p.2.ReadsBack) :
    ReadsBack i := by
  cases i with
  | single => exact ⟨Form.fits_plain rfl rfl, rfl⟩
  | register e =>
    have he : ReadsBack e := by simpa [Node.parts] using hp
    exact ⟨Form.fits_content rfl rfl he.fits, read₁ register he.reads⟩
  | tuple is =>
    have his : ∀ i ∈ is, ReadsBack i := by simpa [Node.parts] using hp
    obtain ⟨hf, hr⟩ := readsBack_items his
    exact ⟨Form.fits_content rfl rfl hf, read₁ tuple hr⟩

end QubitInit

namespace Scope

theorem fits_option {o : Option Scope} (h : ∀ s ∈ o, ReadsBack s) :
    Fits Form.definition (.nullable (.named .scope)) (optionToJson o) := by
  cases o with
  | none => exact Shape.fits_null _
  | some s =>
    have hs : ReadsBack s := h s rfl
    exact Shape.fits_nullable (by simp [Shape.canonical?, Shape.isNullable, Shape.head,
      Form.definition, Scope.shape]) hs.fits

theorem fits_branches {bs : List (Expr × Scope)} (h : ∀ b ∈ bs, ReadsBack b.1 ∧ ReadsBack b.2) :
    Fits Form.definition (.list (.tuple [.named .expr, .named .scope]))
      (.array (branchesToJson bs)) := by
  have he : branchesToJson bs = bs.map fun b ↦ .array [b.1.toJson, b.2.toJson] := by
    induction bs with
    | nil => rfl
    | cons b bs ih => exact congrArg _ (ih fun c hc ↦ h c (List.mem_cons_of_mem b hc))
  rw [he]
  refine Shape.fits_list fun j hj ↦ ?_
  obtain ⟨b, hb, rfl⟩ := List.mem_map.1 hj
  exact Shape.fits_tuple (.cons (h b hb).1.fits (.cons (h b hb).2.fits .nil))

theorem branchesOfJson?_branchesToJson {bs : List (Expr × Scope)}
    (h : ∀ b ∈ bs, ReadsBack b.1 ∧ ReadsBack b.2) :
    branchesOfJson? (branchesToJson bs) = some bs := by
  induction bs with
  | nil => rfl
  | cons b bs ih =>
    have hb := h b List.mem_cons_self
    exact read₃ (fun c s bs ↦ (c, s) :: bs) hb.1.reads hb.2.reads
      (ih fun c hc ↦ h c (List.mem_cons_of_mem b hc))

end Scope

theorem Stmt.readsBack {s : Stmt} (hp : ∀ p ∈ (Node.stmt s).parts, p.2.ReadsBack) :
    ReadsBack s := by
  cases s with
  | expr e =>
    have he : ReadsBack e := by simpa [Node.parts] using hp
    exact ⟨Form.fits_content rfl rfl he.fits, read₁ expr he.reads⟩
  | ret e =>
    have he : ReadsBack e := by simpa [Node.parts] using hp
    exact ⟨Form.fits_content rfl rfl he.fits, read₁ ret he.reads⟩
  | fail e =>
    have he : ReadsBack e := by simpa [Node.parts] using hp
    exact ⟨Form.fits_content rfl rfl he.fits, read₁ fail he.reads⟩
  | bind m l r =>
    have hm : ReadsBack m := Legible.readsBack m
    have hl : ReadsBack l := Legible.readsBack l
    have hr : ReadsBack r := by simpa [Node.parts] using hp
    exact ⟨Form.fits_fields rfl rfl (by decide)
      (.cons hm.fits (.cons hl.fits (.cons hr.fits .nil))),
      read₃ bind hm.reads hl.reads hr.reads⟩
  | assign l r =>
    obtain ⟨hl, hr⟩ : ReadsBack l ∧ ReadsBack r := by simpa [Node.parts] using hp
    exact ⟨Form.fits_fields rfl rfl (by decide) (.cons hl.fits (.cons hr.fits .nil)),
      read₂ assign hl.reads hr.reads⟩
  | conditional bs d =>
    have hbs : ∀ b ∈ bs, ReadsBack b.1 ∧ ReadsBack b.2 := fun b hb ↦
      ⟨hp (.other, .expr b.1) (List.mem_append_left _ (List.mem_flatMap.2 ⟨b, hb, by simp⟩)),
        hp (.other, .scope b.2) (List.mem_append_left _ (List.mem_flatMap.2 ⟨b, hb, by simp⟩))⟩
    have hd : ∀ s ∈ d, ReadsBack s := fun s hs ↦
      hp (.other, .scope s) (List.mem_append_right _ (List.mem_map_of_mem (Option.mem_toList.2 hs)))
    have hr := Scope.branchesOfJson?_branchesToJson hbs
    refine ⟨Form.fits_fields rfl rfl (by decide)
      (.cons (Scope.fits_branches hbs) (.cons (Scope.fits_option hd) .nil)), ?_⟩
    cases d with
    | none => exact read₁ (conditional · none) hr
    | some s =>
      have hs : ReadsBack s := hd s rfl
      obtain ⟨ss⟩ := s
      exact read₂ (fun bs s ↦ conditional bs (some s)) hr hs.reads
  | forLoop i t e b =>
    have hi : ReadsBack i := Legible.readsBack i
    have ht : ReadsBack t := Legible.readsBack t
    obtain ⟨he, hb⟩ : ReadsBack e ∧ ReadsBack b := by simpa [Node.parts] using hp
    exact ⟨Form.fits_fields rfl rfl (by decide)
      (.cons hi.fits (.cons ht.fits (.cons he.fits (.cons hb.fits .nil)))),
      read₄ forLoop hi.reads ht.reads he.reads hb.reads⟩
  | whileLoop c b =>
    obtain ⟨hc, hb⟩ : ReadsBack c ∧ ReadsBack b := by simpa [Node.parts] using hp
    exact ⟨Form.fits_fields rfl rfl (by decide) (.cons hc.fits (.cons hb.fits .nil)),
      read₂ whileLoop hc.reads hb.reads⟩
  | repeatUntil b c f =>
    obtain ⟨hb, hc, hf⟩ : ReadsBack b ∧ ReadsBack c ∧ ReadsBack f := by
      simpa [Node.parts] using hp
    exact ⟨Form.fits_fields rfl rfl (by decide)
      (.cons hb.fits (.cons hc.fits (.cons hf.fits .nil))),
      read₃ repeatUntil hb.reads hc.reads hf.reads⟩
  | conjugate o i =>
    obtain ⟨ho, hi⟩ : ReadsBack o ∧ ReadsBack i := by simpa [Node.parts] using hp
    exact ⟨Form.fits_fields rfl rfl (by decide) (.cons ho.fits (.cons hi.fits .nil)),
      read₂ conjugate ho.reads hi.reads⟩
  | qubits s p i b =>
    have hs : ReadsBack s := Legible.readsBack s
    have hpat : ReadsBack p := Legible.readsBack p
    obtain ⟨hi, hb⟩ : ReadsBack i ∧ ∀ s ∈ b, ReadsBack s := by
      simpa [Node.parts] using hp
    refine ⟨Form.fits_fields rfl rfl (by decide)
      (.cons hs.fits (.cons hpat.fits (.cons hi.fits (.cons (Scope.fits_option hb) .nil)))), ?_⟩
    cases b with
    | none => exact read₃ (qubits · · · none) hs.reads hpat.reads hi.reads
    | some b =>
      have hb : ReadsBack b := hb b rfl
      obtain ⟨ss⟩ := b
      exact read₄ (fun s p i b ↦ qubits s p i (some b)) hs.reads hpat.reads hi.reads hb.reads
  | block s =>
    have hs : ReadsBack s := by simpa [Node.parts] using hp
    exact ⟨Form.fits_content rfl rfl hs.fits, read₁ block hs.reads⟩

theorem Scope.readsBack {s : Scope} (hp : ∀ p ∈ (Node.scope s).parts, p.2.ReadsBack) :
    ReadsBack s := by
  obtain ⟨ss⟩ := s
  have hss : ∀ s ∈ ss, ReadsBack s := by simpa [Node.parts] using hp
  have h : Fits Form.definition (.list (.named .stmt)) (.array (Stmt.itemsToJson ss)) ∧
      Stmt.itemsOfJson? (Stmt.itemsToJson ss) = some ss :=
    ReadsBack.items hss Stmt.itemsToJson Stmt.itemsOfJson? rfl (fun _ _ ↦ rfl) rfl fun _ _ ↦ rfl
  exact ⟨Shape.fits_named (Shape.fits_record (by decide) (.cons h.1 .nil)), read₁ Scope.mk h.2⟩

namespace Node

inductive Holds (x : Float) : Node → Prop
  | here (ty : Ty) (span : Option Span) : Holds x (.expr ⟨.literal (.double x), ty, span⟩)
  | within {p : Place} {m n : Node} : (p, m) ∈ n.parts → Holds x m → Holds x n

theorem holds_iff {x : Float} {n : Node} : n.Holds x ↔
    (∃ ty span, n = .expr ⟨.literal (.double x), ty, span⟩) ∨ ∃ p ∈ n.parts, p.2.Holds x := by
  constructor
  · intro h
    cases h with
    | here ty span => exact .inl ⟨ty, span, rfl⟩
    | within hp h => exact .inr ⟨_, hp, h⟩
  · rintro (⟨ty, span, rfl⟩ | ⟨p, hp, h⟩)
    · exact .here ty span
    · exact .within hp h

theorem readsBack {n : Node} (h : ∀ x, n.Holds x → Format.ReadsBack x) : n.ReadsBack := by
  induction n using partsInduction with
  | h n ih =>
    have hp : ∀ p ∈ n.parts, p.2.ReadsBack := fun p hp ↦ ih p hp fun x hx ↦ h x (.within hp hx)
    cases n with
    | expr e =>
      refine Expr.readsBack (fun x hx ↦ h x ?_) hp
      obtain ⟨kind, ty, span⟩ := e
      obtain rfl : kind = .literal (.double x) := hx
      exact .here ty span
    | stmt s => exact Stmt.readsBack hp
    | scope s => exact Scope.readsBack hp
    | init i => exact QubitInit.readsBack hp

end Node

end FunctorCalls
