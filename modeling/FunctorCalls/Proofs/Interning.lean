import FunctorCalls.Proofs.KnownTypes

namespace FunctorCalls

inductive Intake
  | type (t : Ty)
  | types (ts : List Ty)
  | optional (ts : Option (List Ty))

namespace Intake

def given : Intake → Option (List Ty)
  | type t => some [t]
  | types ts => some ts
  | optional ts => ts

def entered (cs : List Intake) : List Ty := cs.flatMap (·.given.getD [])

end Intake

namespace TypeTable

open Intake

def enter (T : TypeTable) : Intake → TypeTable × Option (List Digest)
  | .type t =>
    let (T, d) := T.intern t
    (T, some [d])
  | .types ts =>
    let (T, ds) := T.internAll ts
    (T, some ds)
  | .optional ts => T.internOptional ts

def enterAll (T : TypeTable) : List Intake → TypeTable × List (Option (List Digest))
  | [] => (T, [])
  | c :: cs =>
    let (T, answer) := T.enter c
    let (T, answers) := T.enterAll cs
    (T, answer :: answers)

variable {T : TypeTable} {d : Digest} {ds : List Digest} {ts : List Ty}

theorem find?_insert (T : TypeTable) (t : Ty) (d : Digest) :
    (T.insert t).find? d = (T.find? d).or (if t.digest = d then some t else none) := by
  rw [insert]
  split
  · next h =>
    by_cases hd : t.digest = d
    · rw [← hd, find?_eq_some_typeOf h, Option.some_or]
    · rw [if_neg hd, Option.or_none]
  · rw [find?, List.lookup_append, ← find?, List.lookup_cons]
    by_cases hd : t.digest = d
    · simp [hd]
    · have hb : (d == t.digest) = false := beq_false_of_ne (Ne.symm hd)
      simp [hd, hb]

/-- What is in the table stays, and the first of the new types with a digest comes in. -/
theorem find?_internAll (T : TypeTable) (ts : List Ty) (d : Digest) :
    (T.internAll ts).1.find? d = (T.find? d).or (ts.find? (·.digest = d)) := by
  induction ts generalizing T with
  | nil => simp [internAll]
  | cons t ts ih =>
    rw [internAll, intern, ih, find?_insert, Option.or_assoc, List.find?_cons]
    by_cases hd : t.digest = d <;> simp [hd]

theorem find?_enter (T : TypeTable) (c : Intake) (d : Digest) :
    (T.enter c).1.find? d = (T.find? d).or ((c.given.getD []).find? (·.digest = d)) := by
  cases c with
  | type t => exact T.find?_internAll [t] d
  | types ts => exact T.find?_internAll ts d
  | optional ts =>
    cases ts with
    | none => exact (Option.or_none).symm
    | some ts => exact T.find?_internAll ts d

theorem find?_enterAll (T : TypeTable) (cs : List Intake) (d : Digest) :
    (T.enterAll cs).1.find? d = (T.find? d).or ((entered cs).find? (·.digest = d)) := by
  induction cs generalizing T with
  | nil => exact (Option.or_none).symm
  | cons c cs ih =>
    rw [enterAll, ih, find?_enter, Option.or_assoc, entered, entered, List.flatMap_cons,
      List.find?_append]

theorem snd_enter (T : TypeTable) (c : Intake) :
    (T.enter c).2 = c.given.map (·.map Ty.digest) := by
  cases c with
  | type t => rfl
  | types ts => exact congrArg some (T.internAll_eq ts)
  | optional ts =>
    cases ts with
    | none => rfl
    | some ts => exact congrArg some (T.internAll_eq ts)

theorem snd_enterAll (T : TypeTable) (cs : List Intake) :
    (T.enterAll cs).2 = cs.map fun c ↦ c.given.map (·.map Ty.digest) := by
  induction cs generalizing T with
  | nil => rfl
  | cons c cs ih =>
    rw [List.map_cons, ← T.snd_enter c, ← ih (T.enter c).1]
    rfl

theorem mem_digests_iff : d ∈ T.digests ↔ ∃ t, T.find? d = some t := by
  constructor
  · intro h
    exact ⟨_, find?_eq_some_typeOf h⟩
  · intro ⟨t, h⟩
    exact List.mem_map.2 ⟨_, mem_entries_of_find? h, rfl⟩

theorem resolve_eq_ok_iff : T.resolve ds = .ok ts ↔ ds.map T.find? = ts.map some := by
  induction ds generalizing ts with
  | nil => cases ts <;> simp [resolve]
  | cons d ds ih =>
    rw [resolve, List.map_cons]
    cases hd : T.find? d with
    | none => cases ts <;> simp
    | some t =>
      cases ts with
      | nil => cases T.resolve ds <;> simp [Except.map]
      | cons u us =>
        rw [List.map_cons, List.cons.injEq, ← ih, Option.some.injEq]
        cases T.resolve ds <;> simp [Except.map]

theorem exists_resolve_eq_ok_iff : (∃ ts, T.resolve ds = .ok ts) ↔ ∀ d ∈ ds, d ∈ T.digests := by
  constructor
  · intro ⟨ts, h⟩ d hd
    have hm : T.find? d ∈ ts.map some := resolve_eq_ok_iff.1 h ▸ List.mem_map_of_mem hd
    obtain ⟨t, -, ht⟩ := List.mem_map.1 hm
    exact mem_digests_iff.2 ⟨t, ht.symm⟩
  · intro h
    exact ⟨_, resolve_eq_ok h⟩

theorem resolve_eq_error_iff {e : UnknownDigest} :
    T.resolve ds = .error e ↔ ds.find? (· ∉ T.digests) = some e.digest := by
  induction ds with
  | nil => simp [resolve]
  | cons d ds ih =>
    rw [resolve]
    cases hd : T.find? d with
    | none =>
      have hn : d ∉ T.digests := by simp [mem_digests_iff, hd]
      cases e
      simp [hn]
    | some t =>
      have hn : d ∈ T.digests := mem_digests_iff.2 ⟨t, hd⟩
      rw [List.find?_cons_of_neg (by simpa using hn), ← ih]
      cases T.resolve ds <;> simp [Except.map]

section

variable (cs : List Intake)

theorem find?_enterAll_empty (d : Digest) :
    (empty.enterAll cs).1.find? d = (entered cs).find? (·.digest = d) :=
  empty.find?_enterAll cs d

theorem flatMap_snd_enterAll :
    (empty.enterAll cs).2.flatMap (·.getD []) = (entered cs).map Ty.digest := by
  rw [snd_enterAll, List.flatMap_map, entered, List.map_flatMap]
  refine List.flatMap_congr fun c _ ↦ ?_
  cases c.given <;> rfl

theorem mem_digests_enterAll_iff :
    d ∈ (empty.enterAll cs).1.digests ↔ d ∈ (empty.enterAll cs).2.flatMap (·.getD []) := by
  rw [mem_digests_iff, find?_enterAll_empty, flatMap_snd_enterAll, ← Option.isSome_iff_exists,
    List.find?_isSome, List.mem_map]
  simp only [decide_eq_true_iff]

theorem find?_digest_of_mem_entered (hs : ∀ t ∈ entered cs, ∀ u ∈ entered cs,
    t.digest = u.digest → t = u) {t : Ty} (ht : t ∈ entered cs) :
    (empty.enterAll cs).1.find? t.digest = some t := by
  rw [find?_enterAll_empty]
  cases hu : (entered cs).find? (·.digest = t.digest) with
  | none => simpa using List.find?_eq_none.1 hu t ht
  | some u =>
    -- What is found is the first type with this digest, and there is only one in the run.
    have hd : u.digest = t.digest := by simpa using List.find?_some hu
    rw [hs u (List.mem_of_find?_eq_some hu) t ht hd]

theorem resolveOptional_given (hs : ∀ t ∈ entered cs, ∀ u ∈ entered cs,
    t.digest = u.digest → t = u) {c : Intake} (hc : c ∈ cs) :
    (empty.enterAll cs).1.resolveOptional (c.given.map (·.map Ty.digest)) = .ok c.given := by
  have ht : ∀ t ∈ c.given.getD [], t ∈ entered cs := fun t ht ↦ List.mem_flatMap.2 ⟨c, hc, ht⟩
  cases hg : c.given with
  | none => rfl
  | some ts =>
    have hr : (empty.enterAll cs).1.resolve (ts.map Ty.digest) = .ok ts := by
      rw [resolve_eq_ok_iff, List.map_map]
      refine List.map_congr_left fun t h ↦ ?_
      exact find?_digest_of_mem_entered cs hs (ht t (by rwa [hg]))
    rw [Option.map_some, resolveOptional, hr]
    rfl

end

/-- Each call of a run is answered by the digests of what is given, position by position, whatever
came before it. For each digest the table holds the first type that came with it, once and for all,
so that it has as many types as there are digests in the answers. Digests that were answered resolve
to these types in their order; any other list fails at its first digest that was never answered. As
long as no two types of the run have one digest, all answers resolve to what was given for them. -/
theorem run_keeps_first_types (cs : List Intake) :
    let T := (empty.enterAll cs).1
    let answers := (empty.enterAll cs).2
    let returned := answers.flatMap (·.getD [])
    answers = (cs.map fun c ↦ c.given.map (·.map Ty.digest)) ∧
    (∀ d, T.find? d = (entered cs).find? (·.digest = d)) ∧
    (∀ cs' d t, T.find? d = some t → (empty.enterAll (cs ++ cs')).1.find? d = some t) ∧
    T.size = returned.toFinset.card ∧
    (∀ ds ts, T.resolve ds = .ok ts ↔ ds.map T.find? = ts.map some) ∧
    (∀ ds, (∃ ts, T.resolve ds = .ok ts) ↔ ∀ d ∈ ds, d ∈ returned) ∧
    (∀ ds e, T.resolve ds = .error e ↔ ds.find? (· ∉ returned) = some e.digest) ∧
    T.resolveOptional none = .ok none ∧
    (∀ ds, T.resolveOptional (some ds) = (T.resolve ds).map some) ∧
    ((∀ t ∈ entered cs, ∀ u ∈ entered cs, t.digest = u.digest → t = u) →
      answers.map T.resolveOptional = cs.map fun c ↦ .ok c.given) := by
  intro T answers returned
  have hanswers : answers = cs.map fun c ↦ c.given.map (·.map Ty.digest) := empty.snd_enterAll cs
  have hmem (d : Digest) : d ∈ T.digests ↔ d ∈ returned := mem_digests_enterAll_iff cs
  refine ⟨hanswers, find?_enterAll_empty cs, ?_, ?_, fun _ _ ↦ resolve_eq_ok_iff, ?_,
    ?_, rfl, fun _ ↦ rfl, ?_⟩
  · intro cs' d t h
    rw [find?_enterAll_empty] at h
    rw [find?_enterAll_empty, entered, List.flatMap_append, List.find?_append, ← entered, h,
      Option.some_or]
  · rw [size_eq_card]
    congr 1
    ext d
    rw [List.mem_toFinset, List.mem_toFinset, hmem]
  · intro ds
    rw [exists_resolve_eq_ok_iff]
    exact forall₂_congr fun d _ ↦ hmem d
  · intro ds e
    simp only [← hmem]
    exact resolve_eq_error_iff
  · intro hs
    rw [hanswers, List.map_map]
    exact List.map_congr_left fun c hc ↦ resolveOptional_given cs hs hc

def mixed : List Intake :=
  [.type (.base .qubit), .optional none, .types [.array (.base .qubit), .base .qubit],
    .optional (some [])]

theorem run_keeps_first_types_mixed :
    (∀ t ∈ entered mixed, ∀ u ∈ entered mixed, t.digest = u.digest → t = u) ∧
    (empty.enterAll mixed).2.map (empty.enterAll mixed).1.resolveOptional =
      [.ok (some [.base .qubit]), .ok none, .ok (some [.array (.base .qubit), .base .qubit]),
        .ok (some [])] := by
  have hs : ∀ t ∈ entered mixed, ∀ u ∈ entered mixed, t.digest = u.digest → t = u := by
    decide +kernel
  obtain ⟨-, -, -, -, -, -, -, -, -, h⟩ := run_keeps_first_types mixed
  exact ⟨hs, h hs⟩

end TypeTable

end FunctorCalls
