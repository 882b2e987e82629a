import Gengo.Gbc.Loading

/-!
# Type data without its parameters

A type parameter is shipped as `any`. `erase` does the same to type specs and to the
records that hold them; `Safe` says of each that nothing else of it is lost on the
wire, and that the reader does not refuse it.
-/

namespace Gengo.Gbc

open Bytecode Fallible Wire List Except

mutual

/-- A type alternative with `any` for every type parameter. -/
def eraseAlt : FieldTypeAlt → FieldTypeAlt
  | .array elemSpec => .array (eraseOptSpec elemSpec)
  | .map keySpec valSpec => .map (eraseOptSpec keySpec) (eraseOptSpec valSpec)
  | .structT name genericArgs => .structT name (eraseSpecs genericArgs)
  | .variantT name genericArgs => .variantT name (eraseSpecs genericArgs)
  | .funcT params returns => .funcT (eraseOptSpecs params) (eraseOptSpecs returns)
  | .typeParam _ => .any
  | .any => .any
  | .nullT => .nullT
  | .int => .int
  | .float => .float
  | .decimalT => .decimalT
  | .runeT => .runeT
  | .boolean => .boolean
  | .string => .string
  | .errorT => .errorT
  | .actorRefT => .actorRefT
  | .interfaceT name => .interfaceT name
  | .namedT name => .namedT name

def eraseSpec : List FieldTypeAlt → List FieldTypeAlt
  | [] => []
  | alt :: alts => eraseAlt alt :: eraseSpec alts

def eraseOptSpec : Option (List FieldTypeAlt) → Option (List FieldTypeAlt)
  | none => none
  | some spec => some (eraseSpec spec)

def eraseSpecs : List (List FieldTypeAlt) → List (List FieldTypeAlt)
  | [] => []
  | spec :: specs => eraseSpec spec :: eraseSpecs specs

def eraseOptSpecs : Option (List (List FieldTypeAlt)) → Option (List (List FieldTypeAlt))
  | none => none
  | some specs => some (eraseSpecs specs)

end

theorem eraseSpec_eq (spec : FieldTypeSpec) : eraseSpec spec = spec.map eraseAlt := by
  induction spec with
  | nil => rw [eraseSpec, map_nil]
  | cons alt alts ih => rw [eraseSpec, ih, map_cons]

theorem eraseOptSpec_eq (spec : Option FieldTypeSpec) : eraseOptSpec spec = spec.map eraseSpec := by
  cases spec <;> rw [eraseOptSpec] <;> rfl

theorem eraseSpecs_eq (specs : List FieldTypeSpec) : eraseSpecs specs = specs.map eraseSpec := by
  induction specs with
  | nil => rw [eraseSpecs, map_nil]
  | cons spec specs ih => rw [eraseSpecs, ih, map_cons]

theorem eraseOptSpecs_eq (specs : Option (List FieldTypeSpec)) :
    eraseOptSpecs specs = specs.map (·.map eraseSpec) := by
  cases specs with
  | none => rw [eraseOptSpecs]; rfl
  | some specs => rw [eraseOptSpecs, eraseSpecs_eq]; rfl

mutual

/-- The alternative has no generic arguments, and its specs have alternatives. -/
def SafeAlt : FieldTypeAlt → Prop
  | .array elemSpec => SafeOptSpec elemSpec
  | .map keySpec valSpec => SafeOptSpec keySpec ∧ SafeOptSpec valSpec
  | .structT _ genericArgs | .variantT _ genericArgs => genericArgs = []
  | .funcT params returns => SafeOptSpecs params ∧ SafeOptSpecs returns
  | _ => True

def SafeAlts : List FieldTypeAlt → Prop
  | [] => True
  | alt :: alts => SafeAlt alt ∧ SafeAlts alts

def SafeOptSpec : Option (List FieldTypeAlt) → Prop
  | none => True
  | some spec => spec ≠ [] ∧ SafeAlts spec

def SafeSpecs : List (List FieldTypeAlt) → Prop
  | [] => True
  | spec :: specs => (spec ≠ [] ∧ SafeAlts spec) ∧ SafeSpecs specs

/-- A function type says what its parameters and results are. -/
def SafeOptSpecs : Option (List (List FieldTypeAlt)) → Prop
  | none => False
  | some specs => SafeSpecs specs

end

/-- The type spec survives the wire, up to its type parameters. -/
def SafeSpec (spec : FieldTypeSpec) : Prop :=
  spec ≠ [] ∧ SafeAlts spec

theorem safeAlts_iff (alts : List FieldTypeAlt) : SafeAlts alts ↔ ∀ alt ∈ alts, SafeAlt alt := by
  induction alts with
  | nil => simp [SafeAlts]
  | cons alt alts ih => rw [SafeAlts, forall_mem_cons, ih]

theorem safeSpecs_iff (specs : List FieldTypeSpec) :
    SafeSpecs specs ↔ ∀ spec ∈ specs, SafeSpec spec := by
  induction specs with
  | nil => simp [SafeSpecs]
  | cons spec specs ih =>
    rw [SafeSpecs, forall_mem_cons, ih, SafeSpec]

theorem safeOptSpec_iff (spec : Option FieldTypeSpec) :
    SafeOptSpec spec ↔ ∀ inner ∈ spec, SafeSpec inner := by
  cases spec <;> simp [SafeOptSpec, SafeSpec]

theorem safeOptSpecs_iff (specs : Option (List FieldTypeSpec)) :
    SafeOptSpecs specs ↔ ∃ inner, specs = some inner ∧ ∀ spec ∈ inner, SafeSpec spec := by
  cases specs <;> simp [SafeOptSpecs, safeSpecs_iff]

/-- A spec with fewer levels survives. -/
def Survives (writeSpec : FieldTypeSpec → Writer WriteError)
    (wireSpec : FieldTypeSpec → Except ReadError FieldTypeSpec) : Prop :=
  ∀ spec bytes, writeSpec spec = .ok bytes → (wireSpec spec = .ok (eraseSpec spec) ↔ SafeSpec spec)

theorem counted_survives {α β : Type} {overflow : WriteError} {width : ℕ}
    {write : α → Writer WriteError} {wire : α → Except ReadError β} {erase : α → β}
      {Safe : α → Prop}
    {items : List α} (survive : ∀ item, Writable (write item) →
      (wire item = .ok (erase item) ↔ Safe item))
    (written : Writable (.counted overflow width write items)) :
    items.mapM wire = .ok (items.map erase) ↔ ∀ item ∈ items, Safe item := by
  rw [mapM_map_eq_ok]
  exact forall₂_congr fun item member => survive item (written.counted item member)

variable {writeSpec : FieldTypeSpec → Writer WriteError}
    {wireSpec : FieldTypeSpec → Except ReadError FieldTypeSpec}

section

variable (survives : Survives writeSpec wireSpec)
include survives

theorem optSpec_survives {spec : Option FieldTypeSpec}
    (written : Writable (.option writeSpec spec)) :
    spec.mapM wireSpec = .ok (spec.map eraseSpec) ↔ ∀ inner ∈ spec, SafeSpec inner := by
  rw [mapM_option_eq_ok]
  refine forall₂_congr fun inner member => ?_
  obtain ⟨own, ownOk⟩ := written.option inner member
  exact survives inner own ownOk

theorem specs_survive {overflow : WriteError} {width : ℕ} {specs : List FieldTypeSpec}
    (written : Writable (.counted overflow width writeSpec specs)) :
    specs.mapM wireSpec = .ok (specs.map eraseSpec) ↔ ∀ spec ∈ specs, SafeSpec spec := by
  refine counted_survives (fun spec specOk => ?_) written
  obtain ⟨own, ownOk⟩ := specOk
  exact survives spec own ownOk

theorem alt_survives {alt : FieldTypeAlt} (written : Writable (writeTypeAlt writeSpec alt)) :
    wireTypeAlt wireSpec alt = .ok (eraseAlt alt) ↔ SafeAlt alt := by
  cases alt with
  | any | nullT | int | float | decimalT | runeT | boolean | string | errorT | actorRefT
  | typeParam | interfaceT | namedT =>
    simp [wireTypeAlt, eraseAlt, SafeAlt]
  | array elemSpec =>
    have elemOk := (writable_append.mp written).2
    rw [eraseAlt, SafeAlt, safeOptSpec_iff, ← optSpec_survives survives elemOk, eraseOptSpec_eq]
    exact map_injective_eq_ok fun _ _ same => FieldTypeAlt.array.inj same
  | map keySpec valSpec =>
    obtain ⟨keyOk, valOk⟩ := writable_append.mp (writable_append.mp written).2
    rw [eraseAlt, SafeAlt, safeOptSpec_iff, safeOptSpec_iff, ← optSpec_survives survives keyOk,
      ← optSpec_survives survives valOk, eraseOptSpec_eq, eraseOptSpec_eq]
    exact map_injective2_eq_ok fun _ _ _ _ same => FieldTypeAlt.map.inj same
  | structT name genericArgs | variantT name genericArgs =>
    cases genericArgs <;> simp [wireTypeAlt, eraseAlt, SafeAlt, eraseSpecs]
  | funcT params returns =>
    obtain ⟨paramsOk, returnsOk⟩ := writable_append.mp (writable_append.mp written).2
    have paramsIff := specs_survive survives paramsOk
    have returnsIff := specs_survive survives returnsOk
    rw [eraseAlt, SafeAlt, safeOptSpecs_iff, safeOptSpecs_iff, eraseOptSpecs_eq,
      eraseOptSpecs_eq, wireTypeAlt]
    cases params with
    | none =>
      refine iff_of_false ?_ fun ⟨⟨_, absent, _⟩, _⟩ => nomatch absent
      simp only [bind_eq_ok]
      rintro ⟨_, _, _, _, same⟩
      cases ok.inj same
    | some params =>
      cases returns with
      | none =>
        refine iff_of_false ?_ fun ⟨_, _, absent, _⟩ => nomatch absent
        simp only [bind_eq_ok]
        rintro ⟨_, _, _, _, same⟩
        cases ok.inj same
      | some returns =>
        simp only [Option.some.injEq, exists_eq_left']
        refine (map_injective2_eq_ok (f := fun params returns =>
          FieldTypeAlt.funcT (some params) (some returns)) ?_).trans
          (and_congr paramsIff returnsIff)
        rintro _ _ _ _ ⟨⟩
        exact ⟨rfl, rfl⟩

end

theorem specDepth_survives (room : ℕ) :
    Survives (writeTypeSpecDepth room) (wireTypeSpecDepth room) := by
  induction room with
  | zero => exact fun _ _ written => nomatch written
  | succ room ih =>
    intro spec bytes written
    rw [wireTypeSpecDepth, SafeSpec, safeAlts_iff, eraseSpec_eq]
    have alts : spec.mapM (wireTypeAlt (wireTypeSpecDepth room)) = .ok (spec.map eraseAlt) ↔
        ∀ alt ∈ spec, SafeAlt alt :=
      counted_survives (fun _ => alt_survives ih) ⟨bytes, written⟩
    cases spec with
    | nil => exact iff_of_false nofun fun wrong => wrong.1 rfl
    | cons alt rest =>
      have nonempty : ((alt :: rest).length != 0) = true := rfl
      rw [if_pos nonempty, alts]
      exact ⟨fun safe => ⟨cons_ne_nil _ _, safe⟩, fun safe => safe.2⟩

theorem spec_survives : Survives writeTypeSpec wireTypeSpec :=
  specDepth_survives MaxTypeSpecDepth

def eraseField (field : StructFieldSpec) : StructFieldSpec :=
  { field with typ := eraseSpec field.typ }

def SafeField (field : StructFieldSpec) : Prop :=
  SafeSpec field.typ

theorem field_survives {field : StructFieldSpec} (written : Writable (writeField field)) :
    wireField field = .ok (eraseField field) ↔ SafeField field := by
  obtain ⟨⟨_, typOk⟩, -⟩ := writable_append.mp (writable_append.mp written).2
  refine (map_injective_eq_ok (f := fun typ => { field with typ := typ }) ?_).trans
    (spec_survives _ _ typOk)
  rintro _ _ ⟨⟩
  rfl

theorem fields_survive {fields : List StructFieldSpec}
    (written : Writable (writeFieldList fields)) :
    fields.mapM wireField = .ok (fields.map eraseField) ↔ ∀ field ∈ fields, SafeField field :=
  counted_survives (fun _ => field_survives) written

def eraseArm (arm : VariantArmSpec) : VariantArmSpec :=
  { arm with payloadType := arm.payloadType.map eraseSpec, fields := arm.fields.map eraseField }

/-- The arm holds nothing besides what its shape has room for. -/
def SafeArm (arm : VariantArmSpec) : Prop :=
  if arm.fields ≠ [] then
    arm.hasPayload = true ∧ arm.payloadName = [] ∧ arm.payloadType = none ∧
      ∀ field ∈ arm.fields, SafeField field
  else if arm.hasPayload then ∀ spec ∈ arm.payloadType, SafeSpec spec
  else arm.payloadName = [] ∧ arm.payloadType = none

theorem arm_survives {arm : VariantArmSpec} (written : Writable (writeVariantArm arm)) :
    wireVariantArm arm = .ok (eraseArm arm) ↔ SafeArm arm := by
  have rest := (writable_append.mp written).2
  obtain ⟨name, hasPayload, payloadName, payloadType, fields⟩ := arm
  simp only [wireVariantArm, SafeArm, eraseArm] at rest ⊢
  by_cases record : fields ≠ []
  · simp only [if_pos record] at rest ⊢
    have fieldsOk := (writable_append.mp rest).2
    have present : (!(fields.map eraseField).isEmpty) = true := by
      cases fields with
      | nil => exact absurd rfl record
      | cons => rfl
    simp only [← fields_survive fieldsOk, bind_eq_ok, pure, Except.pure, ok.injEq,
      VariantArmSpec.mk.injEq, true_and]
    constructor
    · rintro ⟨_, fieldsEq, flag, payload, type, rfl⟩
      exact ⟨flag.symm.trans present, payload.symm, Option.map_eq_none_iff.mp type.symm, fieldsEq⟩
    · rintro ⟨flag, payload, type, fieldsEq⟩
      exact ⟨_, fieldsEq, present.trans flag.symm, payload.symm, by rw [type]; rfl, rfl⟩
  · obtain rfl := not_not.mp record
    cases hasPayload with
    | true =>
      obtain ⟨_, typeOk⟩ := (writable_append.mp (writable_append.mp rest).2).2
      cases payloadType with
      | none => cases typeOk
      | some payloadType =>
        simp only [Option.mem_some_iff, forall_eq']
        refine (map_injective_eq_ok (f := fun typ =>
          (⟨name, true, payloadName, some typ, []⟩ : VariantArmSpec)) ?_).trans
          (spec_survives _ _ typeOk)
        rintro _ _ ⟨⟩
        rfl
    | false => simp [eq_comm]

/-- A function that is not variadic has `any` for a variadic type. -/
def SafeVariadic (isVariadic : Bool) (variadicType : FieldTypeSpec) : Prop :=
  if isVariadic then SafeSpec variadicType else eraseSpec variadicType = anyTypeSpec

theorem variadic_survives {isVariadic : Bool} {variadicType : FieldTypeSpec}
    (written : Writable (if isVariadic then writeTypeSpec variadicType else .raw [])) :
    wireVariadicType isVariadic variadicType = .ok (eraseSpec variadicType) ↔
      SafeVariadic isVariadic variadicType := by
  cases isVariadic with
  | true => exact written.elim (spec_survives _)
  | false =>
    rw [wireVariadicType, SafeVariadic, if_neg Bool.false_ne_true, if_neg Bool.false_ne_true,
      ok.injEq]
    exact eq_comm

def eraseMethod (method : InterfaceMethodSpec) : InterfaceMethodSpec :=
  { method with
    variadicType := eraseSpec method.variadicType
    paramTypes := method.paramTypes.map eraseSpec
    returnTypes := method.returnTypes.map eraseSpec }

/-- The types in a signature survive, and the reader accepts its arity. -/
structure SafeSignature (arity : UInt8) (isVariadic hasTypedParams : Bool)
    (variadicType : FieldTypeSpec) (paramTypes returnTypes : List FieldTypeSpec) : Prop where
  shape : validArityShape arity isVariadic hasTypedParams paramTypes.length = true
  variadic : SafeVariadic isVariadic variadicType
  params : ∀ spec ∈ paramTypes, SafeSpec spec
  returns : ∀ spec ∈ returnTypes, SafeSpec spec

/-- Whatever is built from the types of a signature survives when the signature does. -/
theorem signature_survives {α : Type}
    {f : FieldTypeSpec → List FieldTypeSpec → List FieldTypeSpec → α}
    (injective : ∀ {v p r v' p' r'}, f v p r = f v' p' r' → v = v' ∧ p = p' ∧ r = r')
    {arity : UInt8} {isVariadic hasTypedParams : Bool} {variadicType : FieldTypeSpec}
    {paramTypes returnTypes : List FieldTypeSpec}
    (variadicOk : Writable (if isVariadic then writeTypeSpec variadicType else .raw []))
    (paramsOk : Writable (.counted .panic 2 writeTypeSpec paramTypes))
    (returnsOk : Writable (.counted .panic 2 writeTypeSpec returnTypes)) :
    (do
      let variadicType ← wireVariadicType isVariadic variadicType
      if validArityShape arity isVariadic hasTypedParams paramTypes.length then do
        let paramTypes ← paramTypes.mapM wireTypeSpec
        let returnTypes ← returnTypes.mapM wireTypeSpec
        return f variadicType paramTypes returnTypes
      else .error .malformedSection) =
      .ok (f (eraseSpec variadicType) (paramTypes.map eraseSpec) (returnTypes.map eraseSpec)) ↔
    SafeSignature arity isVariadic hasTypedParams variadicType paramTypes returnTypes := by
  have variadicIff := variadic_survives variadicOk
  have paramsIff := specs_survive spec_survives paramsOk
  have returnsIff := specs_survive spec_survives returnsOk
  simp only [bind_eq_ok]
  constructor
  · rintro ⟨variadic, variadicEq, rest⟩
    split at rest
    case isFalse => cases rest
    case isTrue shape =>
      obtain ⟨params, paramsEq, rest⟩ := bind_eq_ok.mp rest
      obtain ⟨returns, returnsEq, same⟩ := bind_eq_ok.mp rest
      obtain ⟨rfl, rfl, rfl⟩ := injective (ok.inj same)
      exact ⟨shape, variadicIff.mp variadicEq, paramsIff.mp paramsEq, returnsIff.mp returnsEq⟩
  · intro safe
    refine ⟨_, variadicIff.mpr safe.variadic, ?_⟩
    rw [if_pos safe.shape]
    exact bind_eq_ok.mpr ⟨_, paramsIff.mpr safe.params, bind_eq_ok.mpr
      ⟨_, returnsIff.mpr safe.returns, rfl⟩⟩

def SafeMethod (method : InterfaceMethodSpec) : Prop :=
  SafeSignature method.arity method.isVariadic method.hasTypedParams method.variadicType
    method.paramTypes method.returnTypes

theorem method_survives {method : InterfaceMethodSpec}
    (written : Writable (writeInterfaceMethod method)) :
    wireInterfaceMethod method = .ok (eraseMethod method) ↔ SafeMethod method := by
  simp only [writeInterfaceMethod, writable_append] at written
  obtain ⟨-, -, -, variadicOk, -, -, paramsOk, returnsOk⟩ := written
  refine signature_survives (f := fun variadicType paramTypes returnTypes =>
    { method with variadicType, paramTypes, returnTypes }) ?_ variadicOk paramsOk returnsOk
  intro _ _ _ _ _ _ same
  obtain ⟨-, -, -, variadic, params, returns, -⟩ := InterfaceMethodSpec.mk.inj same
  exact ⟨variadic, params, returns⟩

/-- A parent's name, where the empty one stands for none. -/
def SafeParent (parentName : Option Bytes) : Prop :=
  parentName ≠ some []

theorem parentOfName_eq_iff {parentName : Option Bytes} :
    parentOfName (parentName.getD []) = parentName ↔ SafeParent parentName := by
  rw [parentOfName, SafeParent]
  cases parentName with
  | none => simp
  | some name => cases name <;> simp

def eraseStruct (type : StructType) : StructType :=
  { type with fields := type.fields.map eraseField }

def eraseVariant (type : VariantType) : VariantType :=
  { type with
    sharedFields := type.sharedFields.map eraseField
    arms := type.arms.map eraseArm }

def eraseInterface (type : InterfaceType) : InterfaceType :=
  { type with methods := type.methods.map eraseMethod }

def eraseNamedType {Func : Type} (type : NamedType Func) : NamedType Func :=
  { type with
    elemSpec := type.elemSpec.map eraseSpec
    keySpec := type.keySpec.map eraseSpec
    valSpec := type.valSpec.map eraseSpec }

/-- The data of a named type besides its predicate. -/
structure SafeNamedType (type : NamedType FuncRef) : Prop where
  parent : SafeParent type.parentName
  elem : ∀ spec ∈ type.elemSpec, SafeSpec spec
  key : ∀ spec ∈ type.keySpec, SafeSpec spec
  val : ∀ spec ∈ type.valSpec, SafeSpec spec
  message : type.predicate = none → type.predicateMsg = none

theorem default_survives {base : NamedTypeBase} {value : ScalarValue}
    (written : Writable (writeDefault base value)) : wireDefault base value = .ok value := by
  cases base with
  | arrayT | mapT | enumT => cases written.choose_spec
  | int | float | rune | decimal | string | bool => rfl

theorem namedType_survives {type : NamedType FuncRef} {predicateFuncIdx : Option ℕ}
    (present : predicateFuncIdx = none ↔ type.predicate = none)
    (written : Writable (writeNamedType type predicateFuncIdx)) :
    wireNamedType type predicateFuncIdx =
        .ok (.namedT { eraseNamedType type with predicate := none } predicateFuncIdx) ↔
      SafeNamedType type := by
  simp only [writeNamedType, writable_append] at written
  obtain ⟨-, -, -, -, -, -, -, elemOk, keyOk, valOk, -, -, -, defaultOk⟩ := written
  have elemIff := optSpec_survives spec_survives elemOk
  have keyIff := optSpec_survives spec_survives keyOk
  have valIff := optSpec_survives spec_survives valOk
  have defaultEq : type.defaultVal.mapM (wireDefault type.base) = .ok type.defaultVal := by
    have each := @mapM_option_eq_ok _ _ _ (wireDefault type.base) id type.defaultVal
    rw [Option.map_id_fun] at each
    exact each.mpr fun value member => default_survives (defaultOk.option value member)
  have messageIff : predicateFuncIdx.bind (fun _ => type.predicateMsg) = type.predicateMsg ↔
      (type.predicate = none → type.predicateMsg = none) := by
    rw [← present]
    cases predicateFuncIdx with
    | none => simp [eq_comm]
    | some => simp
  simp only [wireNamedType, bind_eq_ok, pure, Except.pure, ok.injEq,
    RawTypeEntry.namedT.injEq, eraseNamedType, NamedType.mk.injEq, true_and, and_true,
    parentOfName_eq_iff, messageIff]
  constructor
  · rintro ⟨_, elemEq, _, keyEq, _, valEq, _, _, parent, rfl, rfl, rfl, message, _⟩
    exact ⟨parent, elemIff.mp elemEq, keyIff.mp keyEq, valIff.mp valEq, message⟩
  · intro safe
    exact ⟨_, elemIff.mpr safe.elem, _, keyIff.mpr safe.key, _, valIff.mpr safe.val, _, defaultEq,
      safe.parent, rfl, rfl, rfl, safe.message, rfl⟩

/-- A type table entry as it should come back. -/
def eraseEntry : TypeEntryInfo → RawTypeEntry
  | .structT type => .structT (eraseStruct type)
  | .variantT type => .variantT (eraseVariant type)
  | .namedT type predicateFuncIdx =>
    .namedT { eraseNamedType type with predicate := none } predicateFuncIdx
  | .interfaceT type => .interfaceT (eraseInterface type)
  | .enumT type => .enumT type
  | .taskT type behaviorFuncIdx => .taskT type.name type.qualifiedName behaviorFuncIdx

def SafeEntry : TypeEntryInfo → Prop
  | .structT type => ∀ field ∈ type.fields, SafeField field
  | .variantT type =>
    (∀ field ∈ type.sharedFields, SafeField field) ∧ ∀ arm ∈ type.arms, SafeArm arm
  | .namedT type _ => SafeNamedType type
  | .interfaceT type => ∀ method ∈ type.methods, SafeMethod method
  | .enumT type => SafeParent type.parentName
  | .taskT _ _ => True

/-- A named type has a function table index when it has a predicate. -/
def TypeEntryInfo.PredicateIndexed : TypeEntryInfo → Prop
  | .namedT type predicateFuncIdx => predicateFuncIdx = none ↔ type.predicate = none
  | _ => True

theorem entry_survives {entry : TypeEntryInfo} (indexed : entry.PredicateIndexed)
    (written : Writable (writeTypeEntry entry)) :
    wireTypeEntry entry = .ok (eraseEntry entry) ↔ SafeEntry entry := by
  have behindNames {kind : UInt8} {name qualifiedName : Bytes} {rest : Writer WriteError}
      (whole : Writable (u8 kind ++ (str name ++ (str qualifiedName ++ rest)))) :
        Writable rest := by
    simp only [writable_append] at whole
    exact whole.2.2.2
  cases entry with
  | structT type =>
    have fieldsOk := behindNames written
    refine (map_injective_eq_ok (f := fun fields =>
      RawTypeEntry.structT { type with fields := fields }) ?_).trans (fields_survive fieldsOk)
    rintro _ _ ⟨⟩
    rfl
  | variantT type =>
    obtain ⟨fieldsOk, armsOk⟩ := writable_append.mp (behindNames written)
    have armsIff : type.arms.mapM wireVariantArm = .ok (type.arms.map eraseArm) ↔
        ∀ arm ∈ type.arms, SafeArm arm :=
      counted_survives (fun _ => arm_survives) armsOk
    refine (map_injective2_eq_ok (f := fun sharedFields arms =>
      RawTypeEntry.variantT { type with sharedFields, arms }) ?_).trans
      (and_congr (fields_survive fieldsOk) armsIff)
    rintro _ _ _ _ ⟨⟩
    exact ⟨rfl, rfl⟩
  | namedT type predicateFuncIdx =>
    exact namedType_survives indexed (behindNames written)
  | interfaceT type =>
    have methodsIff : type.methods.mapM wireInterfaceMethod = .ok (type.methods.map eraseMethod) ↔
        ∀ method ∈ type.methods, SafeMethod method :=
      counted_survives (fun _ => method_survives) (behindNames written)
    refine (map_injective_eq_ok (f := fun methods =>
      RawTypeEntry.interfaceT { type with methods := methods }) ?_).trans methodsIff
    rintro _ _ ⟨⟩
    rfl
  | enumT type =>
    rw [SafeEntry, ← parentOfName_eq_iff, wireTypeEntry, eraseEntry, ok.injEq,
      RawTypeEntry.enumT.injEq, wireEnumType]
    exact ⟨fun same => congrArg EnumType.parentName same, fun same => by rw [same]⟩
  | taskT => exact iff_of_true rfl trivial

/-- A function table entry as it should come back. -/
def eraseFunction (consts : List (Constant FuncRef)) (entry : FuncEntryInfo) : RawFuncEntry where
  nameConstantIdx := nameIndex consts entry
  length := entry.length
  f := { ip := entry.ip
         arity := entry.f.arity
         isVariadic := entry.f.isVariadic
         variadicType := eraseSpec entry.f.variadicType
         captureSlots := entry.f.captureSlots
         paramTypes := entry.f.paramTypes.map eraseSpec
         hasTypedParams := entry.f.hasTypedParams
         returnTypes := entry.f.returnTypes.map eraseSpec
         hasTypedReturns := entry.f.hasTypedReturns
         namedReturnCount := entry.f.namedReturnCount }

/-- The types of a function survive. -/
def SafeFuncTypes (func : FuncObj) : Prop :=
  SafeSignature func.arity func.isVariadic func.hasTypedParams func.variadicType func.paramTypes
    func.returnTypes

theorem function_survives {consts : List (Constant FuncRef)} {entry : FuncEntryInfo}
    (written : Writable (writeFunction consts entry)) :
    wireFunction consts entry = .ok (eraseFunction consts entry) ↔ SafeFuncTypes entry.f := by
  simp only [writeFunction, writable_append] at written
  obtain ⟨-, -, -, -, -, -, variadicOk, -, -, -, paramsOk, returnsOk, -⟩ := written
  refine signature_survives (f := fun variadicType paramTypes returnTypes =>
    { eraseFunction consts entry with
      f := { (eraseFunction consts entry).f with variadicType, paramTypes, returnTypes } })
    ?_ variadicOk paramsOk returnsOk
  intro _ _ _ _ _ _ same
  obtain ⟨-, -, func⟩ := RawFuncEntry.mk.inj same
  obtain ⟨-, -, -, variadic, -, params, -, returns, -⟩ := FuncObj.mk.inj func
  exact ⟨variadic, params, returns⟩

/-- What comes back of a function differs from what should at most in its types. -/
theorem wireFunction_eq_ok {consts : List (Constant FuncRef)} {entry : FuncEntryInfo}
    {raw : RawFuncEntry} (wired : wireFunction consts entry = .ok raw) :
    ∃ variadicType paramTypes returnTypes, raw = { eraseFunction consts entry with
        f := { (eraseFunction consts entry).f with variadicType, paramTypes, returnTypes } } := by
  obtain ⟨variadicType, _, rest⟩ := bind_eq_ok.mp wired
  split at rest
  case isFalse => cases rest
  case isTrue =>
    obtain ⟨paramTypes, _, rest⟩ := bind_eq_ok.mp rest
    obtain ⟨returnTypes, _, same⟩ := bind_eq_ok.mp rest
    exact ⟨variadicType, paramTypes, returnTypes, (ok.inj same).symm⟩

/-!
# Function names

The writer gives every named function the index of a constant with its name; the
reader loads the functions without names and then follows those indices, finding
each function through the constant that holds it.
-/

variable {consts : List (Constant FuncRef)}

theorem findStringConstIdx_eq_some {name : Bytes} {index : ℕ}
    (found : findStringConstIdx consts name = some index) :
    consts[index]? = some (.string name) := by
  rw [findStringConstIdx] at found
  split at found
  case isTrue => cases found
  case isFalse =>
    obtain ⟨inside, holds, -⟩ := List.findIdx?_eq_some_iff_getElem.mp found
    rw [List.getElem?_eq_getElem inside]
    split at holds
    case h_1 bytes same => rw [same, of_decide_eq_true holds]
    case h_2 => cases holds

/-- A name is missing among the constants. -/
def Unlisted (consts : List (Constant FuncRef)) (name : Bytes) : Prop :=
  name ≠ [] ∧ findStringConstIdx consts name = none

instance (consts : List (Constant FuncRef)) : DecidablePred (Unlisted consts) := fun _ =>
  inferInstanceAs (Decidable (_ ∧ _))

/-- The names that are appended are those of functions without a constant of that name. -/
theorem assignNames_extra (consts : List (Constant FuncRef)) (entries : List FuncEntryInfo)
    (extra : List Bytes) :
    (assignNames consts entries extra).2 =
      extra ++ (entries.map (·.name)).filter (Unlisted consts ·) := by
  induction entries generalizing extra with
  | nil => exact (append_nil _).symm
  | cons entry entries ih =>
    rw [assignNames, map_cons]
    split
    case isTrue unnamed =>
      rw [filter_cons_of_neg (by simp [Unlisted, unnamed])]
      exact ih extra
    case isFalse named =>
      split
      case h_1 index found =>
        rw [filter_cons_of_neg (by simp [Unlisted, found])]
        exact ih extra
      case h_2 missing =>
        rw [filter_cons_of_pos (by simp [Unlisted, named, missing])]
        exact (ih _).trans (List.append_assoc ..)

/-- The entry carries no name, or the index of a constant with its name. -/
def Named (pool : List (Constant FuncRef)) (entry named : FuncEntryInfo) : Prop :=
  ∃ nameConstIdx, named = { entry with nameConstIdx } ∧
    (entry.name = [] ∧ nameConstIdx = none ∨
      ∃ index, nameConstIdx = some index ∧ pool[index]? = some (.string entry.name))

theorem assignNames_named {entries : List FuncEntryInfo} {extra : List Bytes}
    (fresh : ∀ entry ∈ entries, entry.nameConstIdx = none) :
    List.Forall₂ (Named (consts ++ (assignNames consts entries extra).2.map .string)) entries
      (assignNames consts entries extra).1 := by
  induction entries generalizing extra with
  | nil => exact .nil
  | cons entry entries ih =>
    obtain ⟨own, others⟩ := forall_mem_cons.mp fresh
    rw [assignNames]
    split
    case isTrue unnamed =>
      exact .cons ⟨none, own ▸ rfl, .inl ⟨unnamed, rfl⟩⟩ (ih others)
    case isFalse =>
      split
      case h_1 index found =>
        have listed := findStringConstIdx_eq_some found
        refine .cons ⟨some index, rfl, .inr ⟨index, rfl, ?_⟩⟩ (ih others)
        rw [List.getElem?_append_left (List.getElem?_eq_some_iff.mp listed).1, listed]
      case h_2 =>
        refine .cons ⟨_, rfl, .inr ⟨_, rfl, ?_⟩⟩ (ih others)
        rw [List.getElem?_append_right (by omega), Nat.add_sub_cancel_left, List.getElem?_map,
          assignNames_extra, List.append_assoc, List.getElem?_append_right le_rfl, Nat.sub_self]
        rfl

theorem nameIndex_of_named (consts : List (Constant FuncRef)) {pool : List (Constant FuncRef)}
    {entry named : FuncEntryInfo} (isNamed : Named pool entry named) :
    entry.name = [] ∧ nameIndex consts named = noName ∨
      pool[nameIndex consts named]? = some (.string entry.name) := by
  obtain ⟨_, rfl, ⟨unnamed, rfl⟩ | ⟨index, rfl, listed⟩⟩ := isNamed
  · refine .inl ⟨unnamed, ?_⟩
    rw [nameIndex, findStringConstIdx, if_pos unnamed]
    rfl
  · exact .inr listed

/-- What comes back of the type of a constant with a function object holds one too. -/
theorem resolve_targetOf {fidx index : ℕ} {const : Constant FuncRef} {func : FuncRef}
    {source : FuncRef × (FuncObj → Bytes)} {own others : List RawTypeEntry}
    {consts : List (Constant FuncRef)}
    (wired : List.Forall₂ (fun entry raw => wireTypeEntry entry = .ok raw)
      (typeOf fidx const).toList own) (isFunc : funcOf const = some source)
    (found : consts[index]? = some (loadedConst (own ++ others).head? const func)) :
    (targetOf const index).resolve consts = some func := by
  cases const with
  | int | float | rune | boolean | null | string | closure | other | structType | variantType
  | interfaceType | enumType => cases isFunc
  | function =>
    simp only [loadedConst] at found
    simp only [targetOf, FuncNamePatchTarget.resolve, found]
  | namedType type =>
    rw [typeOf, isFunc] at wired
    obtain ⟨raw, _, wires, _, rfl⟩ := List.forall₂_cons_left_iff.mp wired
    obtain ⟨hasFunc, notTask⟩ := refs_wireTypeEntry wires
    cases raw with
    | structT | variantT | interfaceT | enumT => cases hasFunc
    | taskT => cases notTask
    | namedT type predicateFuncIdx =>
      obtain rfl : predicateFuncIdx = some fidx := hasFunc
      simp only [loadedConst, cons_append, List.head?_cons, Option.map_some,
        Option.getD_some, RawTypeEntry.toConstant] at found
      simp only [targetOf, FuncNamePatchTarget.resolve, found]
  | taskType type =>
    obtain ⟨raw, _, wires, _, rfl⟩ := List.forall₂_cons_left_iff.mp wired
    obtain ⟨hasFunc, isTask⟩ := refs_wireTypeEntry wires
    cases raw with
    | structT | variantT | interfaceT | enumT => cases hasFunc
    | namedT => cases isTask
    | taskT =>
      simp only [loadedConst, cons_append, List.head?_cons, Option.map_some,
        Option.getD_some, RawTypeEntry.toConstant] at found
      simp only [targetOf, FuncNamePatchTarget.resolve, found]

/-- Every target leads back to the function object of its constant. -/
theorem resolve_targetsFrom {fidx func : ℕ} {types : List RawTypeEntry}
    {before : List (Constant FuncRef)}
    (wired : List.Forall₂ (fun entry raw => wireTypeEntry entry = .ok raw)
      (typesFrom fidx consts) types) :
    (targetsFrom before.length consts).map
        (·.resolve (before ++ loadedFrom func types consts)) =
      (List.range' func (consts.map funcCount).sum).map some := by
  induction consts generalizing fidx func types before with
  | nil => rfl
  | cons const consts ih =>
    obtain ⟨own, others, rfl, ownWired, otherWired⟩ := split_typesFrom wired
    have length : own.length = typeCount const :=
      ownWired.length_eq.symm.trans (length_typeOf _ const)
    have rest := @ih _ (func + funcCount const) others
      (before ++ [loadedConst (own ++ others).head? const func]) otherWired
    rw [length_append, length_singleton] at rest
    rw [loadedFrom_cons length, targetsFrom, map_append, map_cons, sum_cons,
      ← List.range'_append_1, map_append, ← List.append_assoc, rest, map_map]
    congr 1
    cases isFunc : funcOf const with
    | none => simp [funcCount, isFunc]
    | some source =>
      have resolved := @resolve_targetOf fidx before.length const func source own others
        (before ++ [loadedConst (own ++ others).head? const func] ++
          loadedFrom (func + funcCount const) others consts) ownWired isFunc (by simp)
      have single : funcCount const = 1 := by
        rw [funcCount, isFunc]
        rfl
      rw [single] at resolved ⊢
      exact congrArg (fun result => [result]) resolved

/-- What the name index of an entry says about its name. -/
def Reads (consts : List (Constant FuncRef)) (constBase constCount : ℕ) (nameIdx : ℕ)
    (name : Bytes) : Prop :=
  nameIdx = noName ∧ name = [] ∨
    nameIdx ≠ noName ∧ nameIdx < constCount ∧ consts[constBase + nameIdx]? = some (.string name)

variable {α : Type}

theorem modify_append_cons (f : α → α) (done : List α) (item : α) (rest : List α) :
    (done ++ item :: rest).modify done.length f = done ++ f item :: rest := by
  induction done with
  | nil => rfl
  | cons head done ih =>
    exact congrArg (head :: ·) ih

theorem patchName_eq {constBase constCount : ℕ} {state : State} {raw : RawFuncEntry}
    {target : FuncNamePatchTarget} {done rest : List FuncObj} {func : FuncObj} {name : Bytes}
    (funcs : state.funcs = done ++ func :: rest) (unnamed : func.name = [])
    (resolved : target.resolve state.consts = some done.length)
    (reads : Reads state.consts constBase constCount raw.nameConstantIdx name) :
    patchName constBase constCount state (raw, some target) =
      { state with funcs := done ++ { func with name } :: rest } := by
  rw [patchName]
  rcases reads with ⟨absent, rfl⟩ | ⟨present, inside, found⟩
  · have same : { func with name := [] } = func := by rw [← unnamed]
    simp only [absent, true_or, if_true, same, ← funcs]
  · have go : ¬ (raw.nameConstantIdx = noName ∨ constCount ≤ raw.nameConstantIdx) := by omega
    simp only [if_neg go, found, resolved, funcs]
    rw [modify_append_cons]

/-- Naming all functions, when each target leads to the function of its entry. -/
theorem foldl_patchName {constBase constCount : ℕ} {consts : List (Constant FuncRef)}
    {raws : List RawFuncEntry} {targets : List FuncNamePatchTarget} {state : State}
    {done rest : List FuncObj} {names : List Bytes}
    (constsEq : state.consts = consts) (funcs : state.funcs = done ++ rest)
    (unnamed : ∀ func ∈ rest, func.name = [])
    (resolved : targets.map (·.resolve consts) = (List.range' done.length rest.length).map some)
    (reads : List.Forall₂ (fun raw name =>
      Reads consts constBase constCount raw.nameConstantIdx name) raws names)
    (length : rest.length = raws.length) :
    (raws.zip (targets.map some)).foldl (patchName constBase constCount) state =
      { state with
        funcs := done ++ List.zipWith (fun func name => { func with name }) rest names } := by
  induction reads generalizing targets state done rest with
  | nil =>
    obtain rfl := eq_nil_of_length_eq_zero length
    rw [append_nil] at funcs
    rw [zipWith_nil_left, append_nil, ← funcs]
    rfl
  | @cons raw name raws names read _ ih =>
    cases rest with
    | nil => cases length
    | cons func rest =>
      cases targets with
      | nil => cases resolved
      | cons target targets =>
        rw [map_cons, length_cons, List.range'_succ, map_cons] at resolved
        obtain ⟨head, tail⟩ := List.cons.inj resolved
        obtain ⟨unnamed, othersUnnamed⟩ := forall_mem_cons.mp unnamed
        rw [map_cons, zip_cons_cons, foldl_cons,
          patchName_eq funcs unnamed (constsEq ▸ head) (constsEq ▸ read)]
        have later := @ih targets
          { state with funcs := done ++ { func with name } :: rest }
          (done ++ [{ func with name }]) rest constsEq (append_cons ..)
          othersUnnamed (by rw [length_append]; exact tail)
          (Nat.succ.inj length)
        rw [List.append_assoc] at later
        exact later

theorem exists_of_mem_right {β : Type} {R : α → β → Prop} {items : List α} {others : List β}
    (related : List.Forall₂ R items others) : ∀ other ∈ others, ∃ item ∈ items, R item other := by
  induction related with
  | nil => exact forall_mem_nil _
  | cons head _ ih =>
    refine forall_mem_cons.mpr ⟨⟨_, mem_cons_self, head⟩, fun other member => ?_⟩
    obtain ⟨item, itemMember, isRelated⟩ := ih other member
    exact ⟨item, mem_cons_of_mem _ itemMember, isRelated⟩

theorem forall₂_through {β γ : Type} {R : α → β → Prop} {S : β → γ → Prop} {T : γ → α → Prop}
    (through : ∀ item middle last, R item middle → S middle last → T last item) {items : List α}
    {middles : List β} {lasts : List γ} (first : List.Forall₂ R items middles)
    (second : List.Forall₂ S middles lasts) : List.Forall₂ T lasts items := by
  induction first generalizing lasts with
  | nil =>
    cases second
    exact .nil
  | cons head _ ih =>
    obtain ⟨_, _, next, others, rfl⟩ := List.forall₂_cons_left_iff.mp second
    exact .cons (through _ _ _ head next) (ih others)

theorem Parts.Of.named {parts : Parts} {state : State} (of : parts.Of state) :
    List.Forall₂ (Named parts.pool) parts.tables.funcs parts.funcs := by
  refine assignNames_named fun entry member => ?_
  obtain ⟨_, _, _, _, _, _, _, fresh⟩ := exists_of_mem_right of.entryOf entry member
  exact fresh

/-- A loaded chunk with its functions named. -/
def State.named (base : State) (parts : Parts) (rawFuncs : List RawFuncEntry)
    (types : List RawTypeEntry) (codeBase : ℕ)
    (room : base.consts.length + parts.pool.length ≤ MaxConst) : State :=
  { State.loaded base rawFuncs types codeBase parts.pool room with
    funcs := base.funcs ++ List.zipWith
      (fun func entry => { func with name := entry.name })
      (rawFuncs.map (·.loaded codeBase)) parts.tables.funcs }

theorem patchNames_eq {parts : Parts} {state base : State} {rawFuncs : List RawFuncEntry}
    {types : List RawTypeEntry} {codeBase : ℕ} (of : parts.Of state)
    (funcsWired : wireFunctionsSection parts.cs.consts parts.funcs = .ok rawFuncs)
    (wired : parts.tables.types.mapM wireTypeEntry = .ok types)
    (room : base.consts.length + parts.pool.length ≤ MaxConst) :
    patchNames base.consts.length parts.pool.length rawFuncs
        { state := State.loaded base rawFuncs types codeBase parts.pool room
          funcPatch := (targetsFrom base.consts.length parts.pool).map some } =
      State.named base parts rawFuncs types codeBase room := by
  have funcsBack := mapM_eq_ok.mp (wireTable_eq_ok.mp funcsWired).2
  have length := wireFunctionsSection_length funcsWired
  rw [of.types_eq] at wired
  have areNamed := of.named
  have reads : List.Forall₂ (fun raw name => Reads (base.consts ++
      loadedFrom base.funcs.length types parts.pool) base.consts.length parts.pool.length
      raw.nameConstantIdx name) rawFuncs (parts.tables.funcs.map (·.name)) := by
    rw [List.forall₂_map_right_iff]
    refine forall₂_through (fun entry named raw isNamed isWired => ?_) areNamed funcsBack
    obtain ⟨_, _, _, rfl⟩ := wireFunction_eq_ok isWired
    rcases nameIndex_of_named parts.cs.consts isNamed with ⟨unnamed, absent⟩ | listed
    · exact .inl ⟨absent, unnamed⟩
    · have inside := (List.getElem?_eq_some_iff.mp listed).1
      have small : MaxConst < noName := by decide
      refine .inr ⟨(by omega : nameIndex parts.cs.consts named < noName).ne, inside, ?_⟩
      rw [List.getElem?_append_right (Nat.le_add_right _ _), Nat.add_sub_cancel_left]
      have scalar : IsScalar (.string entry.name : Constant FuncRef) := trivial
      exact (getElem?_loadedFrom scalar).mpr listed
  have unnamed : ∀ func ∈ rawFuncs.map (·.loaded codeBase), func.name = [] := by
    rw [forall_mem_map]
    intro raw member
    obtain ⟨_, _, isWired⟩ := exists_of_mem_right funcsBack raw member
    obtain ⟨_, _, _, rfl⟩ := wireFunction_eq_ok isWired
    rfl
  have whole := @foldl_patchName _ _ _ _ (targetsFrom base.consts.length parts.pool)
    (State.loaded base rawFuncs types codeBase parts.pool room) _ _ _ rfl rfl unnamed
    (by rw [length_map, length, of.length_funcs]; exact resolve_targetsFrom (mapM_eq_ok.mp wired))
    reads (length_map _)
  rw [patchNames, State.named]
  refine whole.trans ?_
  rw [zipWith_map_right]

end Gengo.Gbc
