import Gengo.Fallible.Sequencing
import Gengo.Generics.TypeSpec

/-!
# Constraints of type parameters

A type parameter may ask for a numeric, an ordered or a comparable argument. Wherever the compiler
reads type arguments, it counts them. It compares them with the constraints in literals and in
calls, but not in annotations, in aliases and where one type stands in another. The arguments of a
name that is not registered yet are not read as types at all, but as an index.
-/

namespace Gengo.Generics

open Fallible List

inductive Constraint
  | none
  | comparable
  | numeric
  | ordered
  deriving DecidableEq, Repr

/-- `GenericParam`. -/
structure GenericParam where
  name : Text
  constraint : Constraint

/-- `NamedTypeBase`, as far as the constraints tell bases apart. -/
inductive NamedTypeBase
  | int
  | float
  | decimal
  | rune
  | string
  | other
  deriving DecidableEq, Repr

/-- `MaxTypeParams`. -/
def maxTypeParams : ℕ :=
  8

/-- `MaxLocals`. -/
def maxLocals : ℕ :=
  64

/-- What the compiler knows where type arguments stand, and what named types were declared with. -/
structure Scope where
  registry : Registry
  /-- `getNamedTypeInfo`, by the name in the registry. -/
  namedType : Text → Option NamedTypeBase
  hasGlobalFunc : Text → Bool
  /-- The parameters of generic types and functions, wherever they are declared. -/
  genericType : Text → List GenericParam
  genericFunc : Text → List GenericParam
  genericFunc_le : ∀ name, (genericFunc name).length ≤ maxTypeParams
  hasGenericType : Text → Bool
  hasGenericFunc : Text → Bool
  /-- Whether the parser of expressions takes what is written in the brackets for an index. -/
  readsAsIndex : List TypeExpr → Bool
  /-- The constraints of the type parameters in scope. -/
  constraintOf : Text → Constraint
  /-- The bases in the declarations of named types, by qualified name. -/
  declaredBase : Text → NamedTypeBase

def NamedTypeBase.isNumeric : NamedTypeBase → Bool
  | .int | .float | .decimal | .rune => true
  | .string | .other => false

def compareKey (qname : Text) : Text :=
  qname ++ ".__compare__".toList

/-- `namedInfo` of `satisfiesConstraint`: a name that is not registered is looked up again
without what stands before its last dot. -/
def namedInfo (scope : Scope) (qname : Text) : Option NamedTypeBase :=
  (scope.namedType qname).or (scope.namedType (qname.reverse.takeWhile (· != '.')).reverse)

/-- What the switches of `satisfiesConstraint` see in an alternative. -/
def FieldTypeAlt.base (scope : Scope) : FieldTypeAlt → NamedTypeBase
  | .prim .int => .int
  | .prim .float => .float
  | .prim .decimal => .decimal
  | .prim .rune => .rune
  | .prim .string => .string
  | .declared .named name _ => (namedInfo scope name).getD .other
  | _ => .other

/-- Whether a struct or a named type declares `__compare__`. The key has room for 160 bytes. -/
def FieldTypeAlt.hasCompare (scope : Scope) : FieldTypeAlt → Bool
  | .declared .struct name _ | .declared .named name _ =>
    (compareKey name).length ≤ 160 && scope.hasGlobalFunc (compareKey name)
  | _ => false

/-- `satisfiesConstraint`. -/
def satisfiesConstraint (scope : Scope) : Constraint → FieldTypeSpec → Bool
  | .none, _ | .comparable, _ => true
  | _, [] => false
  | .numeric, alt :: _ => (alt.base scope).isNumeric
  | .ordered, alt :: _ =>
    (alt.base scope).isNumeric || alt.base scope = .string || alt.hasCompare scope

inductive Refusal
  | tooManyParams
  | wrongTypeArgCount
  | constraintViolation
  | genericAlias
  | indexOutOfRange
  | unknownType
  | notAnIndex
  deriving DecidableEq, Repr

/-- `checkTypeArgConstraints`. -/
def checkTypeArgConstraints (scope : Scope) :
    List GenericParam → List FieldTypeSpec → Except Refusal Unit
  | param :: params, arg :: args =>
    if satisfiesConstraint scope param.constraint arg then
      checkTypeArgConstraints scope params args
    else .error .constraintViolation
  | _, _ => .ok ()

mutual

/-- What `parseFieldTypeSpec` refuses. -/
def checkFieldTypeSpec (scope : Scope) : TypeExpr → Except Refusal Unit
  | .prim _ | .declared _ | .param _ => .ok ()
  | .optional type => checkFieldTypeSpec scope type
  | .array elem => checkFieldTypeSpec scope elem
  | .map key value => do
    checkFieldTypeSpec scope key
    checkFieldTypeSpec scope value
  | .func params returns => do
    checkFieldTypeSpecs scope .tooManyParams params maxLocals
    checkFieldTypeSpecs scope .tooManyParams returns maxLocals
  | .inst tname args =>
    if scope.hasGenericType tname then do
      checkFieldTypeSpecs scope .wrongTypeArgCount args (scope.genericType tname).length
      if args.length = (scope.genericType tname).length then .ok () else .error .wrongTypeArgCount
    else .error .unknownType

/-- The loop over types that are separated by commas, into an array with room for so many. -/
def checkFieldTypeSpecs (scope : Scope) (full : Refusal) :
    List TypeExpr → ℕ → Except Refusal Unit
  | [], _ => .ok ()
  | _ :: _, 0 => .error full
  | type :: rest, room + 1 => do
    checkFieldTypeSpec scope type
    checkFieldTypeSpecs scope full rest room

end

/-- `parseInstArgSpecs`, which reads what follows the name of a generic type. -/
def parseInstArgSpecs (scope : Scope) (tname : Text) (args : List TypeExpr) :
    Except Refusal (List FieldTypeSpec) := do
  checkFieldTypeSpec scope (.inst tname args)
  return parseFieldTypeSpecs scope.registry args

/-- Where the source gives type arguments. -/
inductive Place
  /-- The type of a variable, a field, a parameter or a return. -/
  | annotated (type : TypeExpr)
  | typeAlias (tname : Text) (args : List TypeExpr)
  | literal (tname : Text) (args : List TypeExpr)
  | call (name : Text) (args : List TypeExpr)

/-- What stands behind a name that is not registered as a generic type or function. -/
def checkIndex (scope : Scope) (args : List TypeExpr) : Except Refusal Unit :=
  if scope.readsAsIndex args then .ok () else .error .notAnIndex

/-- What the compiler refuses of type arguments: `parseFieldTypeSpec`, the alias in
`namedTypeDecl`, `instantiateGenericType`, and the call of a generic function. -/
def checkPlace (scope : Scope) : Place → Except Refusal Unit
  | .annotated type => checkFieldTypeSpec scope type
  | .typeAlias tname args => do
    let argSpecs ← parseInstArgSpecs scope tname args
    if argsHaveTypeParam argSpecs then .error .genericAlias else .ok ()
  | .literal tname args =>
    if scope.hasGenericType tname then do
      let argSpecs ← parseInstArgSpecs scope tname args
      checkTypeArgConstraints scope (scope.genericType tname) argSpecs
    else checkIndex scope args
  | .call name args =>
    if scope.hasGenericFunc name then do
      checkFieldTypeSpecs scope .indexOutOfRange args maxTypeParams
      if args.length ≠ (scope.genericFunc name).length then .error .wrongTypeArgCount
      else
        checkTypeArgConstraints scope (scope.genericFunc name)
          (parseFieldTypeSpecs scope.registry args)
    else checkIndex scope args

def Constraint.allows : Constraint → NamedTypeBase → Bool
  | .none, _ | .comparable, _ => true
  | .numeric, base => base.isNumeric
  | .ordered, base => base.isNumeric || base = .string

/-- Every type of the one constraint is one of the other. -/
def Constraint.implies (own other : Constraint) : Prop :=
  ∀ base, own.allows base → other.allows base

/-- The base of a type, by its declaration. -/
def TypeExpr.base (scope : Scope) : TypeExpr → NamedTypeBase
  | .prim .int => .int
  | .prim .float => .float
  | .prim .rune => .rune
  | .prim .string => .string
  | .declared qname =>
    match scope.registry.kind qname with
    | .named => scope.declaredBase qname
    | _ => .other
  | _ => .other

/-- The names that a declaration of `__compare__` may be under. -/
def TypeExpr.declaredNames (registry : Registry) : TypeExpr → List Text
  | .declared qname => [qname]
  | .inst tname args =>
    [qualifyTypeName registry.modulePrefix tname,
      instQname registry.modulePrefix tname (parseFieldTypeSpecs registry args)]
  | _ => []

/-- The type is one of those that the documentation lists for the constraint. A type parameter is
if its own constraint says so. -/
def Meets (scope : Scope) (constraint : Constraint) (type : TypeExpr) : Prop :=
  constraint.allows (type.base scope) ∨
    (constraint = .ordered ∧
      ∃ name ∈ type.declaredNames scope.registry, scope.hasGlobalFunc (compareKey name)) ∨
    ∃ name, type = .param name ∧ (scope.constraintOf name).implies constraint

mutual

/-- The lists of types in a type: the arguments of generic types, with their names, and the
parameters and returns of functions. -/
def TypeExpr.lists : TypeExpr → List (Option Text × List TypeExpr)
  | .prim _ | .declared _ | .param _ => []
  | .optional type => type.lists
  | .array elem => elem.lists
  | .map key value => key.lists ++ value.lists
  | .func params returns =>
    ((none, params) :: listsAll params) ++ (none, returns) :: listsAll returns
  | .inst tname args => (some tname, args) :: listsAll args

def listsAll : List TypeExpr → List (Option Text × List TypeExpr)
  | [] => []
  | type :: rest => type.lists ++ listsAll rest

end

/-- The lengths that the compiler checks. -/
def Fits (scope : Scope) : Option Text × List TypeExpr → Prop
  | (some tname, args) =>
    scope.hasGenericType tname ∧ args.length = (scope.genericType tname).length
  | (none, types) => types.length ≤ maxLocals

/-- Type parameters and their arguments. -/
abbrev Instantiation :=
  List GenericParam × List TypeExpr

def instantiations (scope : Scope) (lists : List (Option Text × List TypeExpr)) :
    List Instantiation :=
  lists.filterMap fun list => list.1.map fun tname => (scope.genericType tname, list.2)

namespace Place

variable (scope : Scope)

/-- What is instantiated by a literal or a call, and whether it is registered there. -/
def used : Place → Option (Bool × Instantiation)
  | .annotated _ | .typeAlias _ _ => none
  | .literal tname args => some (scope.hasGenericType tname, scope.genericType tname, args)
  | .call name args => some (scope.hasGenericFunc name, scope.genericFunc name, args)

/-- The lists of types that are written at a place, but for those of a literal or a call. -/
def inner : Place → List (Option Text × List TypeExpr)
  | .annotated type => type.lists
  | .typeAlias tname args => (TypeExpr.inst tname args).lists
  | .literal _ args | .call _ args => listsAll args

/-- The arguments that the place compares with the constraints. -/
def checked (place : Place) : List Instantiation :=
  match place.used scope with
  | some (true, inst) => [inst]
  | _ => []

/-- The arguments that it takes for an index. -/
def unread (place : Place) : List Instantiation :=
  match place.used scope with
  | some (false, inst) => [inst]
  | _ => []

/-- The arguments that it does not compare. -/
def unchecked (place : Place) : List Instantiation :=
  place.unread scope ++ instantiations scope place.inner

/-- Only types with as many arguments as parameters, each of which meets its constraint, are
accepted at the place. -/
def Guarded (place : Place) : Prop :=
  checkPlace scope place = .ok () →
    ∀ inst ∈ place.checked scope ++ place.unchecked scope,
      inst.2.length = inst.1.length ∧
        ∀ pair ∈ inst.1.zip inst.2, Meets scope pair.1.constraint pair.2

/-- What is not registered is read as an index; otherwise the lengths are right, an alias has no
type parameter among its arguments, and the compared arguments satisfy the constraints as the
compiler reads them. -/
def Passes (place : Place) : Prop :=
  (∀ inst ∈ place.unread scope, scope.readsAsIndex inst.2) ∧
    (place.unread scope = [] → ∀ list ∈ place.inner, Fits scope list) ∧
    (∀ inst ∈ place.checked scope, inst.2.length = inst.1.length ∧
      ∀ pair ∈ inst.1.zip inst.2,
        satisfiesConstraint scope pair.1.constraint (parseFieldTypeSpec scope.registry pair.2)) ∧
    ∀ tname args, place = .typeAlias tname args →
      ¬argsHaveTypeParam (parseFieldTypeSpecs scope.registry args)

end Place

/-- The compiler takes a named type for one of another base: one that has its name in the
registry, or its name without what stands before the last dot. -/
def Mistaken (scope : Scope) (constraint : Constraint) (type : TypeExpr) : Prop :=
  ∃ qname base, type = .declared qname ∧ scope.registry.kind qname = .named ∧
    namedInfo scope qname = some base ∧ constraint.allows base ∧
    ¬constraint.allows (scope.declaredBase qname) ∧
    ¬(constraint = .ordered ∧ scope.hasGlobalFunc (compareKey qname))

/-- The documentation lists the type and the check cannot know: a type parameter with a constraint
of its own, a type whose `__compare__` is declared under a name that the check does not look up, and
a named type whose base the check does not find. -/
def Unseen (scope : Scope) (constraint : Constraint) (type : TypeExpr) : Prop :=
  (∃ name, type = .param name ∧ (scope.constraintOf name).implies constraint) ∨
    (constraint = .ordered ∧
      ∃ name ∈ type.declaredNames scope.registry, scope.hasGlobalFunc (compareKey name)) ∨
    ∃ qname, type = .declared qname ∧ scope.registry.kind qname = .named ∧
      constraint.allows (scope.declaredBase qname)

/-- The check of literals and calls lets the type pass and does not mistake it, or cannot know. -/
def PassesCheck (scope : Scope) (constraint : Constraint) (type : TypeExpr) : Prop :=
  (satisfiesConstraint scope constraint (parseFieldTypeSpec scope.registry type) ∧
    ¬Mistaken scope constraint type) ∨ Unseen scope constraint type

/-- Where type arguments pass, those that are not compared are as many as there are parameters and
would pass the check if it were made, and none that is compared is taken for another type. -/
def Place.Covered (scope : Scope) (place : Place) : Prop :=
  place.Passes scope →
    (∀ inst ∈ place.unchecked scope, inst.2.length = inst.1.length ∧
      ∀ pair ∈ inst.1.zip inst.2, PassesCheck scope pair.1.constraint pair.2) ∧
    ∀ inst ∈ place.checked scope, ∀ pair ∈ inst.1.zip inst.2,
      ¬Mistaken scope pair.1.constraint pair.2

section

variable {scope : Scope}

theorem andThen_eq_ok {α : Type} {first : Except Refusal Unit} {next : Except Refusal α}
    {result : α} :
    (do first; next) = .ok result ↔ first = .ok () ∧ next = .ok result :=
  bind_eq_ok.trans ⟨fun ⟨_, both⟩ => both, fun both => ⟨(), both⟩⟩

mutual

theorem checkFieldTypeSpec_eq_ok : ∀ type : TypeExpr,
    checkFieldTypeSpec scope type = .ok () ↔ ∀ list ∈ type.lists, Fits scope list
  | .prim _ | .declared _ | .param _ => by simp [checkFieldTypeSpec, TypeExpr.lists]
  | .optional type => by
    rw [checkFieldTypeSpec, TypeExpr.lists, checkFieldTypeSpec_eq_ok type]
  | .array elem => by
    rw [checkFieldTypeSpec, TypeExpr.lists, checkFieldTypeSpec_eq_ok elem]
  | .map key value => by
    rw [checkFieldTypeSpec, TypeExpr.lists, andThen_eq_ok, forall_mem_append,
      checkFieldTypeSpec_eq_ok key, checkFieldTypeSpec_eq_ok value]
  | .func params returns => by
    rw [checkFieldTypeSpec, TypeExpr.lists, andThen_eq_ok, forall_mem_append, forall_mem_cons,
      forall_mem_cons, checkFieldTypeSpecs_eq_ok params, checkFieldTypeSpecs_eq_ok returns]
    rfl
  | .inst tname args => by
    rw [checkFieldTypeSpec, TypeExpr.lists, forall_mem_cons, Fits]
    by_cases registered : scope.hasGenericType tname <;>
      by_cases same : args.length = (scope.genericType tname).length <;>
      simp [andThen_eq_ok, checkFieldTypeSpecs_eq_ok args, registered, same]

theorem checkFieldTypeSpecs_eq_ok : ∀ (types : List TypeExpr) {full : Refusal} {room : ℕ},
    checkFieldTypeSpecs scope full types room = .ok () ↔
      types.length ≤ room ∧ ∀ list ∈ listsAll types, Fits scope list
  | [], _, _ => by simp [checkFieldTypeSpecs, listsAll]
  | _ :: _, _, 0 => by simp [checkFieldTypeSpecs]
  | type :: rest, _, room + 1 => by
    rw [checkFieldTypeSpecs, listsAll, andThen_eq_ok, forall_mem_append, length_cons,
      Nat.add_le_add_iff_right, checkFieldTypeSpec_eq_ok type, checkFieldTypeSpecs_eq_ok rest]
    exact and_left_comm

end

end

end Gengo.Generics
