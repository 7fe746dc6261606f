import FunctorCalls.Key
import FunctorCalls.Proofs.Format.Ty

namespace FunctorCalls

/-- No type of the one list and no type of the other have different texts and one hash. -/
def HashesApart (ts us : List Ty) : Prop :=
  ∀ t ∈ ts, ∀ u ∈ us,
    Blake3.hash t.text.toUTF8.toList = Blake3.hash u.text.toUTF8.toList → t.text = u.text

theorem HashesApart.eq_of_digest_eq {ts us : List Ty} (h : HashesApart ts us) {t u : Ty}
    (ht : t ∈ ts) (hu : u ∈ us) (hd : t.digest = u.digest) : t = u :=
  Ty.text_injective (h t ht u hu (congrArg Digest.bytes hd))

theorem HashesApart.eq_of_map_digest_eq {ts us : List Ty} (h : HashesApart ts us)
    (hd : ts.map Ty.digest = us.map Ty.digest) : ts = us := by
  induction ts generalizing us with
  | nil =>
    rw [List.map_nil, eq_comm, List.map_eq_nil_iff] at hd
    exact hd.symm
  | cons t ts ih =>
    cases us with
    | nil => cases hd
    | cons u us =>
      rw [List.map_cons, List.map_cons, List.cons.injEq] at hd
      have htu : t = u := h.eq_of_digest_eq List.mem_cons_self List.mem_cons_self hd.1
      have hts : HashesApart ts us := fun t' ht' u' hu' ↦
        h t' (List.mem_cons_of_mem t ht') u' (List.mem_cons_of_mem u hu')
      rw [htu, ih hts hd.2]

theorem Instance.eq_of_key_eq {i j : Instance}
    (h : HashesApart (i.typeArgs.getD []) (j.typeArgs.getD [])) (hk : i.key = j.key) : i = j := by
  obtain ⟨c, v, ts⟩ := i
  obtain ⟨c', v', us⟩ := j
  simp only [key, Key.mk.injEq] at hk
  obtain ⟨rfl, rfl, hd⟩ := hk
  cases ts with
  | none =>
    cases us with
    | none => rfl
    | some us => cases hd
  | some ts =>
    cases us with
    | none => cases hd
    | some us =>
      have hts : ts = us := HashesApart.eq_of_map_digest_eq h (Option.some.inj hd)
      rw [hts]

namespace Identity

def types {α : Type} [Identity α] (x : α) : List Ty := (toInstance x).typeArgs.getD []

/-- Different types have different texts. So two specializations or instances, or one of each, have
one key only if they agree in all that makes an instance, unless different texts have one hash. -/
theorem key_tells_apart :
    Function.Injective Ty.text ∧
    ∀ {α β : Type} [Identity α] [Identity β] (x : α) (y : β), HashesApart (types x) (types y) →
      (key x = key y ↔ (toInstance x).callable = (toInstance y).callable ∧
        (toInstance x).variant = (toInstance y).variant ∧
        (toInstance x).typeArgs = (toInstance y).typeArgs) := by
  refine ⟨Ty.text_injective, ?_⟩
  intro α β _ _ x y h
  constructor
  · intro hk
    have hi : toInstance x = toInstance y := Instance.eq_of_key_eq h hk
    rw [hi]
    exact ⟨rfl, rfl, rfl⟩
  · intro ⟨hc, hv, ht⟩
    rw [key, key, Instance.key, Instance.key, hc, hv, ht]

def swap : Specialization :=
  ⟨⟨"Lib", "Swap"⟩, .body, some [.base .int, .array (.userDefined ⟨"a\"b", "\\"⟩)], .intrinsic⟩

def swapReversed : Instance :=
  ⟨⟨"Lib", "Swap"⟩, .body, some [.array (.userDefined ⟨"a\"b", "\\"⟩), .base .int]⟩

theorem key_tells_order_apart :
    HashesApart (types swap) (types swapReversed) ∧
      key swap ≠ key swapReversed := by
  have h : HashesApart (types swap) (types swapReversed) := by
    unfold HashesApart
    decide +kernel
  refine ⟨h, fun hk ↦ ?_⟩
  obtain ⟨-, -, ht⟩ := (key_tells_apart.2 swap swapReversed h).1 hk
  revert ht
  decide

end Identity

end FunctorCalls
