import Gengo.Generics.Naming

/-!
# Instantiation as substitution

The field types of an instance are those of the template with the parameters replaced when
no parameter occurs in a function type, and when each nested instantiation that mentions a
parameter has an argument that is one: the test for type parameters does not look into the
arguments. Together with what names show, this tells when instantiation is substitution.
-/

namespace Gengo.Generics

open Visible List Option Bool

/-- A parameter, or an optional one: what `argsHaveTypeParam` sees. -/
def TypeExpr.isParam : TypeExpr → Bool
  | .param _ => true
  | .optional type => type.isParam
  | _ => false

mutual

/-- The substitution reaches every parameter, and the names that it builds fit their buffers. -/
def replaceable (registry : Registry) (arguments : Arguments TypeExpr) : TypeExpr → Bool
  | .prim _ | .declared _ | .param _ => true
  | .optional type => replaceable registry arguments type
  | .array elem => replaceable registry arguments elem
  | .map key value =>
    replaceable registry arguments key && replaceable registry arguments value
  | .func params returns => allClosed params && allClosed returns
  | .inst tname args =>
    allClosed args ||
      (args.any TypeExpr.isParam && allReplaceable registry arguments args &&
        nameFits registry tname (replaceAll arguments args) &&
        (printAll (visibleAll registry (replaceAll arguments args))).length + 2 ≤ 128)

def allReplaceable (registry : Registry) (arguments : Arguments TypeExpr) :
    List TypeExpr → Bool
  | [] => true
  | type :: rest =>
    replaceable registry arguments type && allReplaceable registry arguments rest

end

/-- The specifications of the arguments. -/
def parsedArguments (registry : Registry) (arguments : Arguments TypeExpr) :
    Arguments FieldTypeSpec :=
  arguments.map fun argument => (argument.1, parseFieldTypeSpec registry argument.2)

theorem argument_parsedArguments (registry : Registry) (arguments : Arguments TypeExpr)
    (name : Text) : argument (parsedArguments registry arguments) name =
      (argument arguments name).map (parseFieldTypeSpec registry) := by
  rw [argument, argument, parsedArguments, List.find?_map, Option.map_map, Option.map_map]
  rfl

theorem argument_isSome {α : Type} {arguments : Arguments α} {name : Text}
    (listed : name ∈ arguments.map Prod.fst) : (argument arguments name).isSome := by
  rw [argument, isSome_map, List.find?_isSome]
  obtain ⟨argument, present, rfl⟩ := mem_map.mp listed
  exact ⟨argument, present, beq_self_eq_true _⟩

mutual

theorem replace_of_closed (arguments : Arguments TypeExpr) : ∀ {type : TypeExpr}, type.closed →
    type.replace arguments = type
  | .prim _, _ | .declared _, _ => rfl
  | .optional type, closed =>
    congrArg TypeExpr.optional (@replace_of_closed arguments type closed)
  | .array elem, closed =>
    congrArg TypeExpr.array (@replace_of_closed arguments elem closed)
  | .map key value, closed => by
    rw [TypeExpr.closed, and_eq_true] at closed
    rw [TypeExpr.replace, replace_of_closed arguments closed.1,
      replace_of_closed arguments closed.2]
  | .func params returns, closed => by
    rw [TypeExpr.closed, and_eq_true] at closed
    rw [TypeExpr.replace, replaceAll_of_closed arguments closed.1,
      replaceAll_of_closed arguments closed.2]
  | .inst tname args, closed =>
    congrArg (TypeExpr.inst tname) (replaceAll_of_closed arguments closed)

theorem replaceAll_of_closed (arguments : Arguments TypeExpr) : ∀ {types : List TypeExpr},
    allClosed types → replaceAll arguments types = types
  | [], _ => rfl
  | type :: rest, closed => by
    rw [allClosed_cons] at closed
    rw [replaceAll, replace_of_closed arguments closed.1, replaceAll_of_closed arguments closed.2]

end

mutual

theorem closed_replace {arguments : Arguments TypeExpr}
    (closed : ∀ argument ∈ arguments, argument.2.closed) : ∀ {type : TypeExpr},
    type.inScope (arguments.map Prod.fst) → (type.replace arguments).closed
  | .prim _, _ | .declared _, _ => rfl
  | .param name, inScope => by
    have listed : name ∈ arguments.map Prod.fst := by simpa [TypeExpr.inScope] using inScope
    obtain ⟨type, typeEq⟩ := isSome_iff_exists.mp (argument_isSome listed)
    rw [TypeExpr.replace, typeEq, getD_some]
    rw [argument, map_eq_some_iff] at typeEq
    obtain ⟨found, foundEq, rfl⟩ := typeEq
    exact closed found (mem_of_find?_eq_some foundEq)
  | .optional type, inScope => @closed_replace _ closed type inScope
  | .array elem, inScope => @closed_replace _ closed elem inScope
  | .map key value, inScope => by
    rw [TypeExpr.inScope, and_eq_true] at inScope
    rw [TypeExpr.replace, TypeExpr.closed, and_eq_true]
    exact ⟨closed_replace closed inScope.1, closed_replace closed inScope.2⟩
  | .func params returns, inScope => by
    rw [TypeExpr.inScope, and_eq_true] at inScope
    rw [TypeExpr.replace, TypeExpr.closed, and_eq_true]
    exact ⟨allClosed_replaceAll closed inScope.1, allClosed_replaceAll closed inScope.2⟩
  | .inst tname args, inScope => @allClosed_replaceAll _ closed args inScope

theorem allClosed_replaceAll {arguments : Arguments TypeExpr}
    (closed : ∀ argument ∈ arguments, argument.2.closed) : ∀ {types : List TypeExpr},
    allInScope (arguments.map Prod.fst) types → allClosed (replaceAll arguments types)
  | [], _ => rfl
  | type :: rest, inScope => by
    rw [allInScope, and_eq_true] at inScope
    rw [replaceAll, allClosed_cons]
    exact ⟨closed_replace closed inScope.1, allClosed_replaceAll closed inScope.2⟩

end

theorem any_isTypeParam (registry : Registry) : ∀ {type : TypeExpr}, type.isParam →
    (parseFieldTypeSpec registry type).any FieldTypeAlt.isTypeParam
  | .param _, _ => rfl
  | .optional type, isParam => by
    rw [parseFieldTypeSpec, any_cons, @any_isTypeParam registry type isParam, Bool.or_true]

theorem argsHaveTypeParam_of_any (registry : Registry) {args : List TypeExpr}
    (some : args.any TypeExpr.isParam) :
    argsHaveTypeParam (parseFieldTypeSpecs registry args) := by
  induction args with
  | nil => cases some
  | cons type rest ih =>
    rw [any_cons, or_eq_true] at some
    rw [parseFieldTypeSpecs, argsHaveTypeParam, any_cons, or_eq_true]
    rcases some with isParam | later
    · exact .inl (any_isTypeParam registry isParam)
    · exact .inr (ih later)

theorem substituteSpec_singleton (arguments : Arguments FieldTypeSpec) (alt : FieldTypeAlt) :
    substituteSpec arguments [alt] = substituteAlt arguments alt :=
  append_nil _

theorem length_parseFieldTypeSpecs (registry : Registry) (types : List TypeExpr) :
    (parseFieldTypeSpecs registry types).length = types.length := by
  induction types with
  | nil => rfl
  | cons type rest ih =>
    rw [parseFieldTypeSpecs, length_cons, length_cons, ih]

/-- A nested instantiation that is put off gets the name that its concrete form has. -/
theorem parse_inst_of_closed (registry : Registry) {tname : Text} {args : List TypeExpr}
    (closed : allClosed args) (short : nameFits registry tname args)
    (suffixShort : (printAll (visibleAll registry args)).length + 2 ≤ 128) :
    parseFieldTypeSpec registry (.inst tname args) =
      [.declared (registry.genericKind tname).declKind
        (instQNameFromBase (qualifyTypeName registry.modulePrefix tname)
          (parseFieldTypeSpecs registry args)) []] := by
  rw [nameFits, fits, and_eq_true, decide_eq_true_eq] at short
  have texts := shown_parseAll registry args closed short.1
  have enough := short.2
  rw [printAll_eq, ← texts] at enough suffixShort
  have suffixEq : instArgSuffix (parseFieldTypeSpecs registry args) =
      '[' :: commaJoin ((parseFieldTypeSpecs registry args).map specTypeStr) ++ [']'] := by
    rw [instArgSuffix, writeArgs_first]
    · rfl
    · rw [length_singleton]
      omega
  rw [parseFieldTypeSpec, argsHaveTypeParam_of_closed registry closed, if_neg Bool.false_ne_true,
    instQname_eq enough, instQNameFromBase, suffixEq, append_assoc]

theorem substituteAlt_declared (arguments : Arguments FieldTypeSpec) (kind : GenericKind)
    (name : Text) {genericArgs : List FieldTypeSpec} (some : 0 < genericArgs.length) :
    substituteAlt arguments (.declared kind.declKind name genericArgs) =
      [.declared kind.declKind (instQNameFromBase name (substituteSpecs arguments genericArgs))
        []] := by
  rw [substituteAlt]
  cases kind <;> exact if_pos ⟨rfl, some⟩

mutual

theorem substituteSpec_parse (registry : Registry) {arguments : Arguments TypeExpr}
    (closed : ∀ argument ∈ arguments, argument.2.closed) : ∀ (type : TypeExpr),
    type.inScope (arguments.map Prod.fst) → replaceable registry arguments type →
      substituteSpec (parsedArguments registry arguments) (parseFieldTypeSpec registry type) =
        parseFieldTypeSpec registry (type.replace arguments)
  | .prim _, _, _ => rfl
  | .declared qname, _, _ => by
    rw [parseFieldTypeSpec, substituteSpec_singleton, substituteAlt, if_neg]
    · rfl
    · rintro ⟨-, some⟩
      exact absurd some (Nat.lt_irrefl 0)
  | .param name, inScope, _ => by
    have listed : name ∈ arguments.map Prod.fst := by simpa [TypeExpr.inScope] using inScope
    obtain ⟨type, typeEq⟩ := isSome_iff_exists.mp (argument_isSome listed)
    rw [parseFieldTypeSpec, substituteSpec_singleton, substituteAlt, argument_parsedArguments,
      TypeExpr.replace, typeEq]
    rfl
  | .optional type, inScope, reached => by
    rw [parseFieldTypeSpec, substituteSpec,
      substituteSpec_parse registry closed type inScope reached]
    rfl
  | .array elem, inScope, reached => by
    rw [parseFieldTypeSpec, substituteSpec_singleton, substituteAlt,
      substituteSpec_parse registry closed elem inScope reached]
    rfl
  | .map key value, inScope, reached => by
    rw [TypeExpr.inScope, and_eq_true] at inScope
    rw [replaceable, and_eq_true] at reached
    rw [parseFieldTypeSpec, substituteSpec_singleton, substituteAlt,
      substituteSpec_parse registry closed key inScope.1 reached.1,
      substituteSpec_parse registry closed value inScope.2 reached.2]
    rfl
  | .func params returns, _, reached => by
    rw [replaceable, and_eq_true] at reached
    rw [TypeExpr.replace, replaceAll_of_closed arguments reached.1,
      replaceAll_of_closed arguments reached.2]
    rfl
  | .inst tname args, inScope, reached => by
    rw [replaceable, or_eq_true] at reached
    rcases reached with argsClosed | reached
    · -- Without a parameter the instantiation is named at once, and stays as it is.
      rw [@replace_of_closed arguments (.inst tname args) argsClosed, parseFieldTypeSpec,
        argsHaveTypeParam_of_closed registry argsClosed, if_neg Bool.false_ne_true,
        substituteSpec_singleton, substituteAlt, if_neg]
      rintro ⟨-, some⟩
      exact absurd some (Nat.lt_irrefl 0)
    · simp only [and_eq_true, decide_eq_true_eq] at reached
      obtain ⟨⟨⟨some, argsReached⟩, short⟩, suffixShort⟩ := reached
      have argsEq := substituteSpecs_parse registry closed args inScope argsReached
      have argsClosed := @allClosed_replaceAll _ closed args inScope
      have nonempty : 0 < (parseFieldTypeSpecs registry args).length := by
        rw [length_parseFieldTypeSpecs]
        cases args with
        | nil => cases some
        | cons type rest => exact Nat.succ_pos _
      rw [TypeExpr.replace, parse_inst_of_closed registry argsClosed short suffixShort,
        parseFieldTypeSpec, argsHaveTypeParam_of_any registry some, if_pos rfl,
        substituteSpec_singleton, substituteAlt_declared _ _ _ nonempty, argsEq]

theorem substituteSpecs_parse (registry : Registry) {arguments : Arguments TypeExpr}
    (closed : ∀ argument ∈ arguments, argument.2.closed) : ∀ (types : List TypeExpr),
    allInScope (arguments.map Prod.fst) types → allReplaceable registry arguments types →
      substituteSpecs (parsedArguments registry arguments) (parseFieldTypeSpecs registry types) =
        parseFieldTypeSpecs registry (replaceAll arguments types)
  | [], _, _ => rfl
  | type :: rest, inScope, reached => by
    rw [allInScope, and_eq_true] at inScope
    rw [allReplaceable, and_eq_true] at reached
    rw [parseFieldTypeSpecs, substituteSpecs,
      substituteSpec_parse registry closed type inScope.1 reached.1,
      substituteSpecs_parse registry closed rest inScope.2 reached.2]
    rfl

end

namespace TypeArgs

variable {template : Template}

/-- The arguments by the names of the parameters. -/
def arguments (args : TypeArgs template) : Arguments TypeExpr :=
  template.params.zip args.types

/-- The field types that the instance means: those of the template, the parameters replaced. -/
def replacedFields (registry : Registry) (args : TypeArgs template) : List FieldTypeSpec :=
  template.fields.map fun field => parseFieldTypeSpec registry (field.replace args.arguments)

/-- The types that the shared fields of the instance mean. -/
def replacedShared (registry : Registry) (args : TypeArgs template) : List FieldTypeSpec :=
  template.shared.map fun field => parseFieldTypeSpec registry (field.replace args.arguments)

variable (args : TypeArgs template)

theorem names_arguments : args.arguments.map Prod.fst = template.params :=
  map_fst_zip (Nat.le_of_eq args.length_eq.symm)

theorem closed_of_mem {types : List TypeExpr} (closed : allClosed types) :
    ∀ type ∈ types, type.closed := by
  induction types with
  | nil => exact nofun
  | cons type rest ih =>
    rw [allClosed_cons] at closed
    exact forall_mem_cons.mpr ⟨closed.1, ih closed.2⟩

theorem closed_arguments : ∀ argument ∈ args.arguments, argument.2.closed := fun _ present =>
  closed_of_mem args.closed _ (of_mem_zip present).2

theorem parsedArguments_eq (registry : Registry) (args : TypeArgs template) :
    template.params.zip (parseFieldTypeSpecs registry args.types) =
      parsedArguments registry args.arguments := by
  have parsed : ∀ types, parseFieldTypeSpecs registry types =
      types.map (parseFieldTypeSpec registry) := by
    intro types
    induction types with
    | nil => rfl
    | cons type rest ih => rw [parseFieldTypeSpecs, ih]; rfl
  rw [parsed, zip_map_right]
  rfl

theorem types_ne_nil : args.types ≠ [] := by
  intro empty
  have lengthEq := args.length_eq
  rw [empty, length_nil] at lengthEq
  exact template.nonempty (eq_nil_of_length_eq_zero lengthEq.symm)

/-- The substitution reaches every parameter of every field; shared fields it does not reach. -/
def Reaches (registry : Registry) (args : TypeArgs template) : Prop :=
  template.shared = [] ∧ ∀ field ∈ template.fields, replaceable registry args.arguments field

variable {registry : Registry}

theorem instFields_eq {args : TypeArgs template} (reaches : args.Reaches registry) :
    instFields registry template (parseFieldTypeSpecs registry args.types) =
      args.replacedFields registry := by
  have inScope : ∀ {fields : List TypeExpr}, allInScope template.params fields →
      ∀ field ∈ fields, field.inScope template.params := by
    intro fields inScope
    induction fields with
    | nil => exact nofun
    | cons field rest ih =>
      rw [allInScope, and_eq_true] at inScope
      exact forall_mem_cons.mpr ⟨inScope.1, ih inScope.2⟩
  refine map_congr_left fun field present => ?_
  rw [parsedArguments_eq]
  exact substituteSpec_parse registry args.closed_arguments field
    (by rw [names_arguments]; exact inScope template.inScope field present)
    (reaches.2 field present)

/-- The arguments are the same, or their names tell them apart: these fit their buffers and
show something different. -/
def Tells (registry : Registry) (left right : TypeArgs template) : Prop :=
  left.types = right.types ∨
    (nameFits registry template.tname left.types ∧ nameFits registry template.tname right.types ∧
      allProper (visibleAll registry left.types) ∧ allProper (visibleAll registry right.types) ∧
        visibleAll registry left.types ≠ visibleAll registry right.types)

/-- One generic type is instantiated twice. -/
def instantiate (registry : Registry) (left right : TypeArgs template) :
    InstCacheEntry × InstCacheEntry :=
  let first := applyGenericInst registry template (parseFieldTypeSpecs registry left.types) []
  let second :=
    applyGenericInst registry template (parseFieldTypeSpecs registry right.types) first.2
  (first.1, second.1)

/-- Two instantiations are one type exactly when their arguments are the same types, and each
has the fields of the template, shared ones too, with the parameters replaced. -/
def IsSubstitution (registry : Registry) (left right : TypeArgs template) : Prop :=
  ((left.instantiate registry right).1 = (left.instantiate registry right).2 ↔
      left.types = right.types) ∧
    (left.instantiate registry right).1.fields = left.replacedFields registry ∧
    (left.instantiate registry right).2.fields = right.replacedFields registry ∧
    (left.instantiate registry right).1.shared = left.replacedShared registry ∧
    (left.instantiate registry right).2.shared = right.replacedShared registry

theorem instantiate_of_key {left right : TypeArgs template}
    (same : buildInstKey template.tname (parseFieldTypeSpecs registry left.types) =
      buildInstKey template.tname (parseFieldTypeSpecs registry right.types)) :
    (left.instantiate registry right).2 = (left.instantiate registry right).1 := by
  have cached : getCachedInst
      [newInst registry template (parseFieldTypeSpecs registry left.types)]
      (buildInstKey template.tname (parseFieldTypeSpecs registry right.types)) =
        some (newInst registry template (parseFieldTypeSpecs registry left.types)) := by
    rw [← same]
    exact List.find?_cons_of_pos (beq_self_eq_true _)
  change (applyGenericInst registry template (parseFieldTypeSpecs registry right.types)
    [newInst registry template (parseFieldTypeSpecs registry left.types)]).1 = _
  rw [applyGenericInst, cached]
  rfl

theorem instantiate_of_ne {left right : TypeArgs template}
    (apart : buildInstKey template.tname (parseFieldTypeSpecs registry left.types) ≠
      buildInstKey template.tname (parseFieldTypeSpecs registry right.types)) :
    (left.instantiate registry right).2 =
      newInst registry template (parseFieldTypeSpecs registry right.types) := by
  have missing : getCachedInst
      [newInst registry template (parseFieldTypeSpecs registry left.types)]
      (buildInstKey template.tname (parseFieldTypeSpecs registry right.types)) = none := by
    rw [getCachedInst, List.find?_cons_of_neg, List.find?_nil]
    exact fun same => apart (eq_of_beq same)
  change (applyGenericInst registry template (parseFieldTypeSpecs registry right.types)
    [newInst registry template (parseFieldTypeSpecs registry left.types)]).1 = _
  rw [applyGenericInst, missing]

/-- Instantiation is substitution where names tell the arguments apart and the substitution
reaches every parameter. -/
theorem isSubstitution_of {registry : Registry} {left right : TypeArgs template}
    (tells : left.Tells registry right) (leftReaches : left.Reaches registry)
    (rightReaches : right.Reaches registry) : left.IsSubstitution registry right := by
  have firstFields : (left.instantiate registry right).1.fields =
      left.replacedFields registry := instFields_eq leftReaches
  have noneShared : ∀ args : TypeArgs template, args.replacedShared registry = [] := by
    intro args
    rw [replacedShared, leftReaches.1, map_nil]
  rcases tells with same | ⟨leftShort, rightShort, leftProper, rightProper, apart⟩
  · have keysEq : buildInstKey template.tname (parseFieldTypeSpecs registry left.types) =
        buildInstKey template.tname (parseFieldTypeSpecs registry right.types) := by
      rw [same]
    have secondFields : (left.instantiate registry right).2.fields =
        right.replacedFields registry := by
      rw [instantiate_of_key keysEq, firstFields, replacedFields, replacedFields, arguments,
        arguments, same]
    refine ⟨iff_of_true (instantiate_of_key keysEq).symm same, firstFields, secondFields,
      (noneShared left).symm, ?_⟩
    rw [instantiate_of_key keysEq]
    exact (noneShared right).symm
  · have keysApart := (buildInstKey_eq_iff left.closed right.closed left.types_ne_nil
      right.types_ne_nil leftShort rightShort leftProper rightProper).not.mpr apart
    have secondEq := instantiate_of_ne keysApart
    refine ⟨iff_of_false ?_ ?_, firstFields, ?_, (noneShared left).symm, ?_⟩
    · intro same
      rw [secondEq] at same
      exact keysApart (congrArg InstCacheEntry.key same)
    · intro same
      exact apart (congrArg (visibleAll registry) same)
    · rw [secondEq]
      exact instFields_eq rightReaches
    · rw [secondEq]
      exact (noneShared right).symm

end TypeArgs

/-- `type Wrapper[T] struct { inner Stack[T] }`. -/
def wrapper : Template where
  tname := ['W', 'r', 'a', 'p', 'p', 'e', 'r']
  params := [['T']]
  fields := [.inst ['S', 't', 'a', 'c', 'k'] [.param ['T']]]
  shared := []
  nonempty := box.nonempty
  inScope := by decide

def wrapperInt : TypeArgs wrapper where
  types := [.prim .int]
  length_eq := rfl
  closed := rfl

def wrapperString : TypeArgs wrapper where
  types := [.prim .string]
  length_eq := rfl
  closed := rfl

theorem isSubstitution_wrapper : wrapperInt.IsSubstitution structRegistry wrapperString := by
  refine TypeArgs.isSubstitution_of (.inr ⟨?_, ?_, ?_, ?_, ?_⟩) ?_ ?_
  · decide
  · decide
  · decide
  · decide
  · intro same
    have names : PrimTag.int.text = PrimTag.string.text :=
      Visible.atom.inj (List.cons.inj same).1
    exact absurd names (by decide)
  · refine ⟨rfl, fun field present => ?_⟩
    obtain rfl := mem_singleton.mp present
    decide
  · refine ⟨rfl, fun field present => ?_⟩
    obtain rfl := mem_singleton.mp present
    decide

/-- Instantiation is substitution for every generic type and all arguments. -/
def InstantiationSubstitutes : Prop :=
  ∀ (registry : Registry) (template : Template) (left right : TypeArgs template),
    left.IsSubstitution registry right

def boxStringToInt : TypeArgs box where
  types := [.map (.prim .string) (.prim .int)]
  length_eq := rfl
  closed := rfl

def boxIntToString : TypeArgs box where
  types := [.map (.prim .int) (.prim .string)]
  length_eq := rfl
  closed := rfl

/-- Both boxes of maps are `Box[map[_]_]`. -/
theorem not_instantiationSubstitutes : ¬InstantiationSubstitutes := by
  intro substitutes
  have one := (substitutes structRegistry box boxStringToInt boxIntToString).1.mp rfl
  cases one

end Gengo.Generics
