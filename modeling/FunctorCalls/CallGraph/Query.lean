import FunctorCalls.CallGraph.Closure

namespace FunctorCalls

structure Answers where
  directDependencies : Instance → Except UnknownDigest (List Instance)
  allDependencies : Instance → Except UnknownDigest (List Instance)
  callersOf : Instance → Except UnknownDigest (List Instance)
  instances : Except UnknownDigest (List Instance)
  callCycles : Except UnknownDigest (List (List Instance))
  render : Except UnknownDigest String
  nodeCount : Nat
  edgeCount : Nat

namespace CallGraph

def resolve (g : CallGraph) (k : Key) : Except UnknownDigest Instance :=
  (g.types.resolveOptional k.typeArgs).map fun typeArgs ↦ ⟨k.callable, k.variant, typeArgs⟩

def resolveAll (g : CallGraph) (keys : OrdSet Key) : Except UnknownDigest (List Instance) :=
  keys.toList.mapM g.resolve

def directDependencies (g : CallGraph) (i : Instance) : Except UnknownDigest (List Instance) :=
  g.resolveAll (g.successors i.key)

def allDependencies (g : CallGraph) (i : Instance) : Except UnknownDigest (List Instance) :=
  g.resolveAll (g.closure i.key)

def callersOf (g : CallGraph) (i : Instance) : Except UnknownDigest (List Instance) :=
  g.resolveAll (g.predecessors i.key)

def instances (g : CallGraph) : Except UnknownDigest (List Instance) := g.resolveAll g.nodes

def closures (g : CallGraph) : List (Key × OrdSet Key) :=
  g.nodes.toList.map fun k ↦ (k, g.closure k)

/-- The strongly connected component of a node: the node itself, and the nodes that it leads to and
that lead back to it. -/
def componentOf (closures : List (Key × OrdSet Key)) (k : Key) (reached : OrdSet Key) : List Key :=
  (closures.filter fun (m, back) ↦ m = k || (m ∈ reached && k ∈ back)).map Prod.fst

def components (g : CallGraph) : List (List Key) :=
  let closures := g.closures
  closures.filterMap fun (k, reached) ↦
    let component := componentOf closures k reached
    if component.head? = some k then some component else none

def isRecursive (g : CallGraph) : List Key → Bool
  | [k] => ⟨k, k⟩ ∈ g.edges
  | _ => true

def sortOn {α β : Type} [Ord β] (f : α → β) (l : List α) : List α :=
  l.mergeSort fun a b ↦ (compare (f a) (f b)).isLE

/-- The recursive ones of some components, each in the order of keys, in the order of their first
members. -/
def groups (g : CallGraph) (components : List (List Key)) : List (List Key) :=
  sortOn List.head? ((components.filter g.isRecursive).map (sortOn id))

def callCycles (g : CallGraph) : Except UnknownDigest (List (List Instance)) :=
  (g.groups g.components).mapM (·.mapM g.resolve)

def line (caller callee : Instance) : String :=
  caller.display ++ " -> " ++ callee.display ++ "\n"

def render (g : CallGraph) : Except UnknownDigest String := do
  let callers ← g.instances
  let lines ← callers.mapM fun caller ↦ return (← g.directDependencies caller).map (line caller)
  return String.join lines.flatten

def answers (g : CallGraph) : Answers where
  directDependencies := g.directDependencies
  allDependencies := g.allDependencies
  callersOf := g.callersOf
  instances := g.instances
  callCycles := g.callCycles
  render := g.render
  nodeCount := g.nodeCount
  edgeCount := g.edgeCount

end CallGraph

end FunctorCalls
