import Gengo.Bytecode.Value
import Gengo.Fallible.Sequencing

/-!
# Scopes

The functions that are being compiled, each with the locals that are in scope and the variables
of enclosing functions that it captures. A name is looked for among the locals of the innermost
function, then among those of the functions around it, and is a global otherwise.
-/

namespace Gengo.Bindings

open Bytecode (Bytes dot)
open Fallible (refuse)

abbrev Name := Bytes

/-- An identifier of the source. -/
abbrev Ident := { name : Name // dot ∉ name }

def maxLocals : ℕ := 64

def maxUpvalues : ℕ := 64

def maxScopes : ℕ := 8

/-- Why the compiler refuses a program. -/
inductive Refusal
  | tooManyLocals
  | tooManyParams
  | duplicateLocal
  | tooManyNestedFunctions
  | assignToConst
  | duplicateGlobal
  | duplicateField
  | tooManyGlobals
  deriving DecidableEq, Repr

structure Local where
  name : Name
  isConst : Bool
  deriving DecidableEq, Repr

structure Upvalue where
  name : Name
  index : ℕ
  fromUpvalue : Bool
  deriving DecidableEq, Repr

/-- A function that is being compiled. Its last local comes first. -/
structure FuncInfo where
  locals : List Local
  upvalues : List Upvalue
  deriving DecidableEq, Repr

/-- The last local of a name, and its slot. -/
def findLocal (name : Name) : List Local → Option (ℕ × Local)
  | [] => none
  | last :: others => if last.name = name then some (others.length, last) else findLocal name others

namespace FuncInfo

variable (scope : FuncInfo)

def empty : FuncInfo :=
  ⟨[], []⟩

def resolveLocal (name : Name) : Option ℕ :=
  (findLocal name scope.locals).map Prod.fst

def resolveLocalConst (name : Name) : Option Bool :=
  (findLocal name scope.locals).map fun found => found.2.isConst

/-- Names that begin with an underscore, and the empty name, may be taken again. -/
def defineLocal (name : Name) (isConst : Bool) : Except Refusal FuncInfo := do
  refuse (maxLocals ≤ scope.locals.length) .tooManyLocals
  refuse (name ≠ [] ∧ name.head? ≠ some 95 ∧ ∃ defined ∈ scope.locals, defined.name = name)
    .duplicateLocal
  return { scope with locals := ⟨name, isConst⟩ :: scope.locals }

/-- `cleanupLocals`, as far as the table of the locals goes. -/
def cleanupLocals (base : ℕ) : FuncInfo :=
  { scope with locals := scope.locals.drop (scope.locals.length - base) }

/-- `addUpvalueToScope`. A full table finds nothing. -/
def addUpvalue (upvalue : Upvalue) : Option ℕ × FuncInfo :=
  match scope.upvalues.idxOf? upvalue with
  | some index => (some index, scope)
  | none =>
    if maxUpvalues ≤ scope.upvalues.length then (none, scope)
    else
      (some scope.upvalues.length, { scope with upvalues := scope.upvalues ++ [upvalue] })

end FuncInfo

/-- The scope of a function, with its parameters and named results as locals. -/
def enterScope (params : List Local) (returns : List Name) : Except Refusal FuncInfo := do
  let locals := params ++ returns.map fun name => ⟨name, false⟩
  refuse (maxLocals < params.length) .tooManyParams
  refuse (returns ≠ [] ∧ maxLocals < locals.length) .tooManyLocals
  refuse (¬(locals.map Local.name).Nodup) .duplicateLocal
  return ⟨locals.reverse, []⟩

/-- `resolveUpvalueForScope`: capture a variable of the enclosing functions, the innermost of
which comes first, through every function in between. -/
def resolveUpvalue (name : Name) : FuncInfo → List FuncInfo → Option ℕ × FuncInfo × List FuncInfo
  | scope, [] => (none, scope, [])
  | scope, enclosing :: outer =>
    match enclosing.resolveLocal name with
    | some index =>
      let (found, captures) := scope.addUpvalue ⟨name, index, false⟩
      (found, captures, enclosing :: outer)
    | none =>
      match resolveUpvalue name enclosing outer with
      | (none, between, outer) => (none, scope, between :: outer)
      | (some parent, between, outer) =>
        let (found, captures) := scope.addUpvalue ⟨name, parent, true⟩
        (found, captures, between :: outer)

/-- `resolveUpvalueConstForScope` -/
def resolveUpvalueConst (name : Name) : List FuncInfo → Option Bool
  | [] => none
  | enclosing :: outer =>
    match enclosing.resolveLocalConst name with
    | some isConst => some isConst
    | none => resolveUpvalueConst name outer

theorem resolveLocal_eq_none_iff {scope : FuncInfo} {name : Name} :
    scope.resolveLocal name = none ↔ scope.resolveLocalConst name = none := by
  rw [FuncInfo.resolveLocal, FuncInfo.resolveLocalConst, Option.map_eq_none_iff,
    Option.map_eq_none_iff]

end Gengo.Bindings
