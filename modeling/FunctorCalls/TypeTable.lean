import FunctorCalls.Digest

namespace FunctorCalls

/-- A table from digests back to types. It only grows, and the first type with a digest stays. -/
structure TypeTable where
  entries : List (Digest × Ty)
  hashed : ∀ e ∈ entries, e.1 = e.2.digest
  nodup : (entries.map Prod.fst).Nodup

structure UnknownDigest where
  digest : Digest

def UnknownDigest.message (e : UnknownDigest) : String :=
  "type-argument hash " ++ e.digest.hex ++ " was never interned"

namespace TypeTable

def empty : TypeTable := ⟨[], by simp, .nil⟩

def size (T : TypeTable) : Nat := T.entries.length

def digests (T : TypeTable) : List Digest := T.entries.map Prod.fst

def find? (T : TypeTable) (d : Digest) : Option Ty := T.entries.lookup d

def insert (T : TypeTable) (t : Ty) : TypeTable :=
  if h : t.digest ∈ T.digests then T
  else
    { entries := T.entries ++ [(t.digest, t)]
      hashed := by
        intro e he
        rcases List.mem_append.1 he with he | he
        · exact T.hashed e he
        · rw [List.mem_singleton.1 he]
      nodup := by
        rw [List.map_append]
        refine List.nodup_append.2 ⟨T.nodup, by simp, fun d hd d' hd' he ↦ h ?_⟩
        have hd' : d' = t.digest := List.mem_singleton.1 hd'
        exact hd' ▸ he ▸ hd }

theorem mem_digests_insert {T : TypeTable} {t : Ty} {d : Digest} :
    d ∈ (T.insert t).digests ↔ d ∈ T.digests ∨ d = t.digest := by
  rw [insert]
  split
  · next h => exact ⟨.inl, fun hd ↦ hd.elim id fun hd ↦ hd ▸ h⟩
  · simp [digests]

def intern (T : TypeTable) (t : Ty) : TypeTable × Digest := (T.insert t, t.digest)

def internAll (T : TypeTable) : List Ty → TypeTable × List Digest
  | [] => (T, [])
  | t :: ts =>
    let (T, d) := T.intern t
    let (T, ds) := T.internAll ts
    (T, d :: ds)

def internOptional (T : TypeTable) : Option (List Ty) → TypeTable × Option (List Digest)
  | none => (T, none)
  | some ts =>
    let (T, ds) := T.internAll ts
    (T, some ds)

theorem mem_digests_internAll {T : TypeTable} {ts : List Ty} {d : Digest} :
    d ∈ (T.internAll ts).1.digests ↔ d ∈ T.digests ∨ d ∈ ts.map Ty.digest := by
  induction ts generalizing T with
  | nil => simp [internAll]
  | cons t ts ih => simp [internAll, intern, ih, mem_digests_insert, or_assoc, eq_comm]

def resolve (T : TypeTable) : List Digest → Except UnknownDigest (List Ty)
  | [] => .ok []
  | d :: ds => match T.find? d with
    | none => .error ⟨d⟩
    | some t => (T.resolve ds).map (t :: ·)

def resolveOptional (T : TypeTable) : Option (List Digest) → Except UnknownDigest (Option (List Ty))
  | none => .ok none
  | some ds => (T.resolve ds).map some

end TypeTable

end FunctorCalls
