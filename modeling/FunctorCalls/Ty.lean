import FunctorCalls.Name

namespace FunctorCalls

inductive Base
  | unit
  | int
  | bigInt
  | double
  | bool
  | string
  | qubit
  | result
  | pauli
  | range
  deriving DecidableEq

structure Functors where
  adjointable : Bool
  controllable : Bool
  deriving DecidableEq

inductive Ty
  | base (b : Base)
  | array (item : Ty)
  | tuple (items : List Ty)
  | userDefined (name : Name)
  /-- A type parameter and the callable that declares it. -/
  | parameter (origin : Name) (name : String)
  | function (input output : Ty)
  | operation (input output : Ty) (functors : Functors)

namespace Base

def all : List Base := [unit, int, bigInt, double, bool, string, qubit, result, pauli, range]

def display : Base → String
  | unit => "Unit"
  | int => "Int"
  | bigInt => "BigInt"
  | double => "Double"
  | bool => "Bool"
  | string => "String"
  | qubit => "Qubit"
  | result => "Result"
  | pauli => "Pauli"
  | range => "Range"

end Base

namespace Functors

def both : Functors := ⟨true, true⟩

def display : Functors → String
  | ⟨true, true⟩ => " is Adj + Ctl"
  | ⟨true, false⟩ => " is Adj"
  | ⟨false, true⟩ => " is Ctl"
  | ⟨false, false⟩ => ""

end Functors

namespace Ty

instance : Inhabited Ty := ⟨base .unit⟩

mutual

def beq : Ty → Ty → Bool
  | base b, base b' => b == b'
  | array t, array t' => beq t t'
  | tuple ts, tuple ts' => beqItems ts ts'
  | userDefined n, userDefined n' => n == n'
  | parameter o n, parameter o' n' => o == o' && n == n'
  | function i o, function i' o' => beq i i' && beq o o'
  | operation i o f, operation i' o' f' => beq i i' && beq o o' && f == f'
  | _, _ => false

def beqItems : List Ty → List Ty → Bool
  | [], [] => true
  | t :: ts, t' :: ts' => beq t t' && beqItems ts ts'
  | _, _ => false

end

mutual

theorem beq_self : ∀ t : Ty, beq t t = true
  | base _ | userDefined _ | parameter _ _ => by simp [beq]
  | array t => by simp [beq, beq_self t]
  | tuple ts => by simp [beq, beqItems_self ts]
  | function i o => by simp [beq, beq_self i, beq_self o]
  | operation i o _ => by simp [beq, beq_self i, beq_self o]

theorem beqItems_self : ∀ ts : List Ty, beqItems ts ts = true
  | [] => by simp [beqItems]
  | t :: ts => by simp [beqItems, beq_self t, beqItems_self ts]

end

mutual

theorem eq_of_beq : ∀ {t t' : Ty}, beq t t' = true → t = t'
  | base _, t', h => by cases t' <;> simp_all [beq]
  | userDefined _, t', h => by cases t' <;> simp_all [beq]
  | parameter _ _, t', h => by cases t' <;> simp_all [beq]
  | array t, t', h => by
    cases t' <;> simp_all [beq]
    exact eq_of_beq h
  | tuple ts, t', h => by
    cases t' <;> simp_all [beq]
    exact eq_of_beqItems h
  | function i o, t', h => by
    cases t' <;> simp_all [beq]
    exact ⟨eq_of_beq h.1, eq_of_beq h.2⟩
  | operation i o f, t', h => by
    cases t' <;> simp_all [beq]
    exact ⟨eq_of_beq h.1.1, eq_of_beq h.1.2⟩

theorem eq_of_beqItems : ∀ {ts ts' : List Ty}, beqItems ts ts' = true → ts = ts'
  | [], ts', h => by cases ts' <;> simp_all [beqItems]
  | t :: ts, ts', h => by
    cases ts' <;> simp_all [beqItems]
    exact ⟨eq_of_beq h.1, eq_of_beqItems h.2⟩

end

instance : DecidableEq Ty := fun t t' ↦
  decidable_of_iff (beq t t' = true) ⟨eq_of_beq, fun h ↦ h ▸ beq_self t⟩

mutual

def isGeneric : Ty → Bool
  | base _ => false
  | array t => isGeneric t
  | tuple ts => anyGeneric ts
  | userDefined _ => false
  | parameter _ _ => true
  | function i o => isGeneric i || isGeneric o
  | operation i o _ => isGeneric i || isGeneric o

def anyGeneric : List Ty → Bool
  | [] => false
  | t :: ts => isGeneric t || anyGeneric ts

end

mutual

def display : Ty → String
  | base b => b.display
  | array t => display t ++ "[]"
  | tuple ts => "(" ++ displayItems ts ++ ")"
  | userDefined n => n.display
  | parameter _ n => "'" ++ n
  | function i o => "(" ++ display i ++ " -> " ++ display o ++ ")"
  | operation i o f => "(" ++ display i ++ " => " ++ display o ++ f.display ++ ")"

def displayItems : List Ty → String
  | [] => ""
  | [t] => display t
  | t :: t' :: ts => display t ++ ", " ++ displayItems (t' :: ts)

end

end Ty

end FunctorCalls
