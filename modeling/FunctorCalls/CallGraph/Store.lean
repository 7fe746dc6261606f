import FunctorCalls.CallGraph.History
import FunctorCalls.CallGraph.Query

namespace FunctorCalls

def TypeTable.internKey (T : TypeTable) (i : Instance) : TypeTable × Key :=
  let (T, ds) := T.internOptional i.typeArgs
  (T, ⟨i.callable, i.variant, ds⟩)

/-- A graph whose nodes have numbers, in the order in which they come. Types are entered into the
table where an edge is recorded, and only hashed where a node is looked up. -/
structure Store where
  keys : List Key
  index : List (Key × Nat)
  arcs : List (Nat × Nat)
  types : TypeTable

namespace Store

def ofTypes (T : TypeTable) : Store := ⟨[], [], [], T⟩

def empty : Store := ofTypes .empty

def node (s : Store) (k : Key) : Store × Nat :=
  match s.index.lookup k with
  | some n => (s, n)
  | none =>
    let n := s.keys.length
    ({ s with keys := s.keys ++ [k], index := (k, n) :: s.index }, n)

/-- Puts an edge in with its ends, and tells whether it is new. -/
def connect (s : Store) (caller callee : Key) : Store × Bool :=
  let (s, m) := s.node caller
  let (s, n) := s.node callee
  if (m, n) ∈ s.arcs then (s, false) else ({ s with arcs := (m, n) :: s.arcs }, true)

def addBetween (s : Store) (caller callee : Instance) : Store × Bool :=
  let (T, a) := s.types.internKey caller
  let (T, b) := T.internKey callee
  connect { s with types := T } a b

def addAll (s : Store) (pairs : List (Instance × Instance)) : Store :=
  pairs.foldl (fun s (caller, callee) ↦ (s.addBetween caller callee).1) s

def keysAt (s : Store) (ns : List Nat) : List Key := ns.filterMap (s.keys[·]?)

def targets (s : Store) (n : Nat) : List Nat := (s.arcs.filter (·.1 = n)).map Prod.snd

def sources (s : Store) (n : Nat) : List Nat := (s.arcs.filter (·.2 = n)).map Prod.fst

def numbers (s : Store) : List Nat := List.range s.keys.length

def resolve (s : Store) (k : Key) : Except UnknownDigest Instance :=
  (s.types.resolveOptional k.typeArgs).map fun typeArgs ↦ ⟨k.callable, k.variant, typeArgs⟩

def resolveAll (s : Store) (ns : List Nat) : Except UnknownDigest (List Instance) :=
  (CallGraph.sortOn id (s.keysAt ns)).eraseReps.mapM s.resolve

def instances (s : Store) : Except UnknownDigest (List Instance) := s.resolveAll s.numbers

def nodeCount (s : Store) : Nat := s.keys.length

def edgeCount (s : Store) : Nat := s.arcs.length

def isEmpty (s : Store) : Bool := s.keys.isEmpty

section

variable {α : Type} [Identity α]

def add (s : Store) (caller : α) (variant : Variant) (callable : Name)
    (typeArgs : Option (List Ty)) : Store × Bool :=
  s.addBetween (Identity.toInstance caller) ⟨callable, variant, typeArgs⟩

def number? (s : Store) (x : α) : Option Nat := s.index.lookup (Identity.key x)

def contains (s : Store) (x : α) : Bool := (s.number? x).isSome

def directDependencies (s : Store) (x : α) : Except UnknownDigest (List Instance) :=
  match s.number? x with
  | none => .ok []
  | some n => s.resolveAll (s.targets n)

def callersOf (s : Store) (x : α) : Except UnknownDigest (List Instance) :=
  match s.number? x with
  | none => .ok []
  | some n => s.resolveAll (s.sources n)

def allDependencies (s : Store) (x : α) : Except UnknownDigest (List Instance) :=
  match s.number? x with
  | none => .ok []
  | some n => s.resolveAll (search s.targets s.numbers (s.targets n))

end

def isRecursive (s : Store) : List Nat → Bool
  | [n] => (n, n) ∈ s.arcs
  | _ => true

def groups (s : Store) (components : List (List Nat)) : List (List Key) :=
  CallGraph.sortOn List.head?
    ((components.filter s.isRecursive).map fun c ↦ CallGraph.sortOn id (s.keysAt c))

def callCycles (s : Store) (components : List (List Nat)) :
    Except UnknownDigest (List (List Instance)) :=
  (s.groups components).mapM (·.mapM s.resolve)

def render (s : Store) : Except UnknownDigest String := do
  let callers ← s.instances
  let lines ← callers.mapM fun caller ↦
    return (← s.directDependencies caller).map (CallGraph.line caller)
  return String.join lines.flatten

/-- The strongly connected components are given from outside, in the order in which some algorithm
finds them. -/
def answers (s : Store) (components : List (List Nat)) : Answers where
  directDependencies := s.directDependencies
  allDependencies := s.allDependencies
  callersOf := s.callersOf
  instances := s.instances
  callCycles := s.callCycles components
  render := s.render
  nodeCount := s.nodeCount
  edgeCount := s.edgeCount

def build (T : TypeTable) (keys : List Key) (edges : List Edge) : Store :=
  edges.foldl (fun s e ↦ (s.connect e.caller e.callee).1)
    (keys.foldl (fun s k ↦ (s.node k).1) (ofTypes T))

def entries (s : Store) (points : List Name) : List Nat :=
  s.numbers.filter fun n ↦ s.keys[n]?.any (·.callable ∈ points)

def edgeAt? (s : Store) : Nat × Nat → Option Edge
  | (m, n) => return ⟨← s.keys[m]?, ← s.keys[n]?⟩

def edgesFrom (s : Store) (ns : List Nat) : List Edge :=
  ns.flatMap fun m ↦ (s.targets m).filterMap fun n ↦ s.edgeAt? (m, n)

/-- A new store of what the entry points lead to. It numbers the nodes in the order of their keys
and takes over the whole table of types. -/
def trim (s : Store) (points : List Name) : Store :=
  let reached := CallGraph.sortOn (s.keys[·]?) (search s.targets s.numbers (s.entries points))
  build s.types (s.keysAt reached) (s.edgesFrom reached)

def apply (s : Store) : Change → Store
  | .trim points => s.trim points
  | c => s.addAll c.recorded

def after (cs : List Change) : Store := cs.foldl apply empty

end Store

end FunctorCalls
