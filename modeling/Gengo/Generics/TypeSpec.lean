import Mathlib.Algebra.GroupWithZero.Nat
import Mathlib.Data.List.Basic

/-!
# Type specifications and instantiation

Types as the source writes them, the specifications that the compiler keeps of them, the
names that it prints for instantiations of generic types, and the substitution of type
arguments in a template. Text is a list of characters of one byte each.
-/

namespace Gengo.Generics

abbrev Text :=
  List Char

/-- The kinds of declared types. -/
inductive DeclKind
  | struct
  | named
  | variant
  | interface
  deriving DecidableEq, Repr

/-- `GenericTypeKind`. -/
inductive GenericKind
  | struct
  | variant
  deriving DecidableEq, Repr

def GenericKind.declKind : GenericKind → DeclKind
  | .struct => .struct
  | .variant => .variant

/-- The tags of `FieldTypeTag` that carry nothing else. -/
inductive PrimTag
  | int
  | float
  | boolean
  | string
  | rune
  | decimal
  | null
  | error
  | actorRef
  | any
  deriving DecidableEq, Repr

/-- `FieldTypeAlt`. A missing element, key or value specification is an empty one. -/
inductive FieldTypeAlt
  | prim (typ : PrimTag)
  | declared (kind : DeclKind) (name : Text) (genericArgs : List (List FieldTypeAlt))
  | typeParam (paramName : Text)
  | array (elemSpec : List FieldTypeAlt)
  | map (keySpec valSpec : List FieldTypeAlt)
  | func (funcParams funcReturns : List (List FieldTypeAlt))

/-- `FieldTypeSpec`: the alternatives. -/
abbrev FieldTypeSpec :=
  List FieldTypeAlt

def PrimTag.text : PrimTag → Text
  | .int => ['i', 'n', 't']
  | .float => ['f', 'l', 'o', 'a', 't']
  | .boolean => ['b', 'o', 'o', 'l']
  | .string => ['s', 't', 'r', 'i', 'n', 'g']
  | .rune => ['r', 'u', 'n', 'e']
  | .decimal => ['d', 'e', 'c', 'i', 'm', 'a', 'l']
  | .null => ['n', 'u', 'l', 'l']
  | .error => ['e', 'r', 'r', 'o', 'r']
  | .actorRef => ['a', 'c', 't', 'o', 'r']
  | .any => ['a', 'n', 'y']

/-- `map[_]_`. -/
def mapText : Text :=
  ['m', 'a', 'p', '[', '_', ']', '_']

/-- `func(_)`. -/
def funcText : Text :=
  ['f', 'u', 'n', 'c', '(', '_', ')']

/-- `altTypeStr`, into a buffer of `room` bytes. Only the elements of arrays are copied to it. -/
def altTypeStr (room : ℕ) : FieldTypeAlt → Text
  | .prim typ => typ.text
  | .declared _ name _ => name
  | .typeParam paramName => paramName
  | .array [] => ['[', ']', '_']
  | .array (first :: _) =>
    let inner := altTypeStr 126 first
    if 2 + inner.length ≤ room then '[' :: ']' :: inner else ['[', ']', '_']
  | .map _ _ => mapText
  | .func _ _ => funcText

/-- Append what fits a buffer of `size` bytes. -/
def appendUpTo (size : ℕ) (out text : Text) : Text :=
  out ++ text.take (size - out.length)

/-- The separator, where there is room for it. -/
def separate (size : ℕ) (separator : Char) (first : Bool) (out : Text) : Text :=
  if !first ∧ out.length < size then out ++ [separator] else out

/-- The loop of `specTypeStr` over several alternatives. -/
def writeAlts (first : Bool) (out : Text) : List FieldTypeAlt → Text
  | [] => out
  | alt :: rest =>
    writeAlts false (appendUpTo 64 (separate 64 '|' first out) (altTypeStr 32 alt)) rest

/-- `specTypeStr`, into the buffer of 64 bytes that its callers have. -/
def specTypeStr : FieldTypeSpec → Text
  | [] => PrimTag.any.text
  | [alt] => altTypeStr 64 alt
  | alts => writeAlts true [] alts

/-- The loop of `instArgSuffix` and of `buildInstKey` over the arguments: a byte stays free for
the bracket. -/
def writeArgs (size : ℕ) (first : Bool) (out : Text) : List FieldTypeSpec → Text
  | [] => if out.length < size then out ++ [']'] else out
  | arg :: rest =>
    writeArgs size false (appendUpTo (size - 1) (separate size ',' first out) (specTypeStr arg))
      rest

/-- `instArgSuffix`, into the buffer of 128 bytes that its caller has. -/
def instArgSuffix (args : List FieldTypeSpec) : Text :=
  writeArgs 128 true ['['] args

/-- `instQNameFromBase`. -/
def instQNameFromBase (baseQname : Text) (args : List FieldTypeSpec) : Text :=
  baseQname ++ instArgSuffix args

/-- `buildInstKey`. -/
def buildInstKey (tname : Text) (args : List FieldTypeSpec) : Text :=
  writeArgs 256 true (tname.take 128 ++ ['[']) args

/-- `qualifyTypeName`. -/
def qualifyTypeName (modulePrefix name : Text) : Text :=
  if modulePrefix.length = 0 then name else modulePrefix ++ '.' :: name

/-- The qualified name that `applyGenericInst` gives to an instantiation. -/
def instQname (modulePrefix tname : Text) (args : List FieldTypeSpec) : Text :=
  qualifyTypeName modulePrefix tname ++ (buildInstKey tname args).drop (min tname.length 128)

/-- The types that have names of their own. -/
inductive PrimName
  | int
  | float
  | rune
  | bool
  | string
  | error
  | actor
  | bigint
  | any
  deriving DecidableEq, Repr

/-- A type expression, names resolved: an alias is the type that it stands for. -/
inductive TypeExpr
  | prim (name : PrimName)
  | declared (qname : Text)
  | param (name : Text)
  | optional (type : TypeExpr)
  | array (elem : TypeExpr)
  | map (key value : TypeExpr)
  | func (params returns : List TypeExpr)
  /-- An instantiation of a generic type. -/
  | inst (tname : Text) (args : List TypeExpr)

/-- What the compiler knows of declared types: the module's prefix, and the kinds by qualified
name and by the name of the generic type. -/
structure Registry where
  modulePrefix : Text
  kind : Text → DeclKind
  genericKind : Text → GenericKind

def PrimName.tag : PrimName → PrimTag
  | .int => .int
  | .float => .float
  | .rune => .rune
  | .bool => .boolean
  | .string => .string
  | .error => .error
  | .actor => .actorRef
  | .bigint => .any
  | .any => .any

def FieldTypeAlt.isTypeParam : FieldTypeAlt → Bool
  | .typeParam _ => true
  | _ => false

/-- `argsHaveTypeParam`. -/
def argsHaveTypeParam (args : List FieldTypeSpec) : Bool :=
  args.any fun arg => arg.any FieldTypeAlt.isTypeParam

mutual

/-- `parseFieldTypeSpec`. An instantiation is named at once, unless one of its arguments is a
type parameter. -/
def parseFieldTypeSpec (registry : Registry) : TypeExpr → FieldTypeSpec
  | .prim name => [.prim name.tag]
  | .declared qname => [.declared (registry.kind qname) qname []]
  | .param name => [.typeParam name]
  | .optional type => .prim .null :: parseFieldTypeSpec registry type
  | .array elem => [.array (parseFieldTypeSpec registry elem)]
  | .map key value =>
    [.map (parseFieldTypeSpec registry key) (parseFieldTypeSpec registry value)]
  | .func params returns =>
    [.func (parseFieldTypeSpecs registry params) (parseFieldTypeSpecs registry returns)]
  | .inst tname args =>
    let argSpecs := parseFieldTypeSpecs registry args
    if argsHaveTypeParam argSpecs then
      [.declared (registry.genericKind tname).declKind
        (qualifyTypeName registry.modulePrefix tname) argSpecs]
    else
      [.declared (registry.genericKind tname).declKind
        (instQname registry.modulePrefix tname argSpecs) []]

def parseFieldTypeSpecs (registry : Registry) : List TypeExpr → List FieldTypeSpec
  | [] => []
  | type :: rest => parseFieldTypeSpec registry type :: parseFieldTypeSpecs registry rest

end

/-- The arguments of the type parameters. -/
abbrev Arguments (α : Type) :=
  List (Text × α)

/-- The argument of the first parameter of a name. -/
def argument {α : Type} (arguments : Arguments α) (name : Text) : Option α :=
  (arguments.find? fun argument => argument.1 == name).map Prod.snd

def DeclKind.canBeGeneric : DeclKind → Bool
  | .struct | .variant => true
  | .named | .interface => false

mutual

/-- One alternative in `substituteSpec`: a type parameter becomes the alternatives of its
argument. Function types are copied. -/
def substituteAlt (arguments : Arguments FieldTypeSpec) : FieldTypeAlt → List FieldTypeAlt
  | .typeParam paramName => (argument arguments paramName).getD []
  | .declared kind name genericArgs =>
    if kind.canBeGeneric ∧ 0 < genericArgs.length then
      [.declared kind (instQNameFromBase name (substituteSpecs arguments genericArgs)) []]
    else [.declared kind name genericArgs]
  | .array elemSpec => [.array (substituteSpec arguments elemSpec)]
  | .map keySpec valSpec =>
    [.map (substituteSpec arguments keySpec) (substituteSpec arguments valSpec)]
  | .prim typ => [.prim typ]
  | .func funcParams funcReturns => [.func funcParams funcReturns]

/-- `substituteSpec`. -/
def substituteSpec (arguments : Arguments FieldTypeSpec) : List FieldTypeAlt → FieldTypeSpec
  | [] => []
  | alt :: rest => substituteAlt arguments alt ++ substituteSpec arguments rest

def substituteSpecs (arguments : Arguments FieldTypeSpec) :
    List (List FieldTypeAlt) → List FieldTypeSpec
  | [] => []
  | spec :: rest => substituteSpec arguments spec :: substituteSpecs arguments rest

end

mutual

/-- Every occurrence of a type parameter replaced. -/
def TypeExpr.replace (arguments : Arguments TypeExpr) : TypeExpr → TypeExpr
  | .prim name => .prim name
  | .declared qname => .declared qname
  | .param name => (argument arguments name).getD (.param name)
  | .optional type => .optional (type.replace arguments)
  | .array elem => .array (elem.replace arguments)
  | .map key value => .map (key.replace arguments) (value.replace arguments)
  | .func params returns =>
    .func (replaceAll arguments params) (replaceAll arguments returns)
  | .inst tname args => .inst tname (replaceAll arguments args)

def replaceAll (arguments : Arguments TypeExpr) : List TypeExpr → List TypeExpr
  | [] => []
  | type :: rest => type.replace arguments :: replaceAll arguments rest

end

mutual

/-- No type parameter occurs. -/
def TypeExpr.closed : TypeExpr → Bool
  | .prim _ | .declared _ => true
  | .param _ => false
  | .optional type => type.closed
  | .array elem => elem.closed
  | .map key value => key.closed && value.closed
  | .func params returns => allClosed params && allClosed returns
  | .inst _ args => allClosed args

def allClosed : List TypeExpr → Bool
  | [] => true
  | type :: rest => type.closed && allClosed rest

end

mutual

/-- Only type parameters of these names occur. -/
def TypeExpr.inScope (params : List Text) : TypeExpr → Bool
  | .prim _ | .declared _ => true
  | .param name => name ∈ params
  | .optional type => type.inScope params
  | .array elem => elem.inScope params
  | .map key value => key.inScope params && value.inScope params
  | .func funcParams returns => allInScope params funcParams && allInScope params returns
  | .inst _ args => allInScope params args

def allInScope (params : List Text) : List TypeExpr → Bool
  | [] => true
  | type :: rest => type.inScope params && allInScope params rest

end

/-- A generic type: its parameters, the types of its fields or payloads, and those of the fields
that all arms of a variant share. -/
structure Template where
  tname : Text
  params : List Text
  fields : List TypeExpr
  shared : List TypeExpr
  nonempty : params ≠ []
  inScope : allInScope params fields

/-- Type arguments for a generic type. -/
structure TypeArgs (template : Template) where
  types : List TypeExpr
  length_eq : types.length = template.params.length
  closed : allClosed types

/-- `InstCacheEntry`: the type object has the field types. -/
structure InstCacheEntry where
  key : Text
  qname : Text
  fields : List FieldTypeSpec
  shared : List FieldTypeSpec

/-- The field types of an instance, as `applyGenericInst` builds them. -/
def instFields (registry : Registry) (template : Template) (args : List FieldTypeSpec) :
    List FieldTypeSpec :=
  template.fields.map fun field =>
    substituteSpec (template.params.zip args) (parseFieldTypeSpec registry field)

/-- `getCachedInst`. -/
def getCachedInst (cache : List InstCacheEntry) (key : Text) : Option InstCacheEntry :=
  cache.find? fun entry => entry.key == key

/-- The type object of an instance: a variant is built from its arms alone. -/
def newInst (registry : Registry) (template : Template) (args : List FieldTypeSpec) :
    InstCacheEntry where
  key := buildInstKey template.tname args
  qname := instQname registry.modulePrefix template.tname args
  fields := instFields registry template args
  shared := []

/-- `applyGenericInst`: the instantiation in the cache, or a new one. -/
def applyGenericInst (registry : Registry) (template : Template) (args : List FieldTypeSpec)
    (cache : List InstCacheEntry) : InstCacheEntry × List InstCacheEntry :=
  match getCachedInst cache (buildInstKey template.tname args) with
  | some entry => (entry, cache)
  | none => (newInst registry template args, cache ++ [newInst registry template args])

/-- A program without a module prefix, whose types are structs. -/
def structRegistry : Registry where
  modulePrefix := []
  kind _ := .struct
  genericKind _ := .struct

/-- `type Box[T] struct { val T }`. -/
def box : Template where
  tname := ['B', 'o', 'x']
  params := [['T']]
  fields := [.param ['T']]
  shared := []
  nonempty := by decide
  inScope := by decide

end Gengo.Generics
