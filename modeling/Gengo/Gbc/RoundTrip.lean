import Gengo.Defuse.Output
import Gengo.Gbc.Names

/-!
# The round trip

Reading a written artifact into a fresh chunk gives the defused code and the constants
back. The reader accepts the artifact, and loses nothing but type parameters, exactly
when the conditions of `RoundTripSafe` hold. One of them is about the end of the
embedded standard library, whose position is written in the coordinates of the fused
code.
-/

namespace Gengo.Gbc

open Bytecode Defuse Fallible Records Wire List Option Except Nat

def State.fresh : State where
  code := []
  codeLen_le := Nat.zero_le _

/-- A fresh chunk with the code and the library position of an artifact, once the strings of its
types are interned. -/
def State.opened (parts : Parts) (fits : parts.defused.length ≤ MaxCode)
    (strSlices : List Bytes) : State where
  code := parts.defused
  strSlices
  stdScriptConstBase := parts.cs.stdScriptConstBase
  stdScriptConstCount := parts.cs.stdScriptConstCount
  stdScriptCodeEnd := parts.cs.stdScriptCodeEnd
  codeLen_le := fits

variable {parts : Parts}

theorem installCode_fresh (fits : parts.defused.length ≤ MaxCode) :
    installCode State.fresh 0 parts.defused =
      .ok { State.fresh with code := parts.defused, codeLen_le := fits } := by
  have inside : 0 + parts.defused.length ≤ MaxCode := by omega
  rw [installCode, dif_pos inside]
  have noSlack : (State.fresh.code ++ State.fresh.slack).drop (0 + parts.defused.length) = [] :=
    drop_nil
  simp only [noSlack, take_zero, nil_append]
  rfl

theorem installStdScript_opened {state : State} (of : parts.Of state)
    (fits : parts.defused.length ≤ MaxCode) :
    installStdScript { State.fresh with code := parts.defused, codeLen_le := fits }
        (some parts.stdScript) = .ok (State.opened parts fits []) := by
  have back := ((u16_back _).andThen ((u16_back _).andThen ((u32_back _).finish rfl)) :
    ReadsBack (u16 parts.cs.stdScriptConstBase.toNat ++
        (u16 parts.cs.stdScriptConstCount.toNat ++ u32 parts.cs.stdScriptCodeEnd))
      (do
        let constBase ← readU16
        let constCount ← readU16
        let codeEnd ← readU32
        return (constBase, constCount, codeEnd))
      (.ok (parts.cs.stdScriptConstBase.toNat, parts.cs.stdScriptConstCount.toNat,
        parts.cs.stdScriptCodeEnd))) _ of.stdScript []
  rw [append_nil] at back
  simp only [installStdScript, bind_eq_ok]
  refine ⟨_, back, ?_⟩
  simp only [State.opened, UInt16.ofNat_toNat]
  rfl

theorem read_eq_ok {state loaded : State} {artifact : Bytes} {expectedRootSource : Option Bytes}
    {parsed : ParsedHeader} (of : parts.Of state)
    (opened : parseHeaderAndSections artifact expectedRootSource = .ok parsed)
    (holds : Holds parsed parts) (fits : parts.defused.length ≤ MaxCode) :
    read artifact State.fresh expectedRootSource = .ok loaded ↔
      ∃ rawFuncs types, wireFunctionsSection parts.cs.consts parts.funcs = .ok rawFuncs ∧
        wireTable .tooManyTypes wireTypeEntry parts.tables.types = .ok types ∧
        (∀ const ∈ parts.pool, codepointOk const = true) ∧
        HasSlices [] (types.flatMap (·.strings) ++ parts.pool.flatMap constStrings) ∧
        ∃ room, loaded = State.named (State.opened parts fits
          ((types.flatMap (·.strings)).foldl internInto [])) parts rawFuncs types 0 room := by
  have opensCode := installCode_fresh fits
  have opensScript := installStdScript_opened of fits
  rw [read]
  refine map_eq_ok.trans ?_
  simp only [loadSections, opened, holds.bytecode, holds.constants, holds.functions, holds.types,
    holds.stdScript, readFunctionsSection_run of, readTypesSection_run of, bind_eq_ok,
    Bool.false_eq_true, if_false, ok.injEq, exists_eq_left', opensCode, opensScript]
  simp only [hasSlices_append]
  constructor
  · rintro ⟨_, ⟨_, funcsOk, _, typesOk, _, internsOk, _, constsOk, result⟩, rfl⟩
    obtain ⟨rawFuncs, funcsWired, rfl⟩ := map_eq_ok.mp funcsOk
    obtain ⟨types, typesWired, rfl⟩ := map_eq_ok.mp typesOk
    obtain rfl := ok.inj result
    have wired := (wireTable_eq_ok.mp typesWired).2
    obtain ⟨typeStrings, rfl⟩ := internAll_eq_ok.mp internsOk
    obtain ⟨codepoints, strings, room, rfl⟩ := (readConstantsSection_eq_ok of
      (wireFunctionsSection_length funcsWired) wired).mp constsOk
    exact ⟨rawFuncs, types, funcsWired, typesWired, codepoints, ⟨typeStrings, strings⟩, room,
      patchNames_eq of funcsWired wired room⟩
  · rintro ⟨rawFuncs, types, funcsWired, typesWired, codepoints, ⟨typeStrings, strings⟩, room, rfl⟩
    have wired := (wireTable_eq_ok.mp typesWired).2
    exact ⟨_, ⟨_, map_eq_ok.mpr ⟨rawFuncs, funcsWired, rfl⟩, _,
      map_eq_ok.mpr ⟨types, typesWired, rfl⟩, _, internAll_eq_ok.mpr ⟨typeStrings, rfl⟩, _,
      (readConstantsSection_eq_ok of (wireFunctionsSection_length funcsWired) wired).mpr
        ⟨codepoints, strings, room, rfl⟩, rfl⟩,
      patchNames_eq of funcsWired wired room⟩

/-- What a function object is besides its place in the table. -/
structure Signature where
  name : Bytes
  ip : ℕ
  arity : UInt8
  isVariadic : Bool
  variadicType : FieldTypeSpec
  captureSlots : List UInt8
  paramTypes : List FieldTypeSpec
  hasTypedParams : Bool
  returnTypes : List FieldTypeSpec
  hasTypedReturns : Bool
  namedReturnCount : UInt8
  defaults : List (Constant FuncRef)

def signature (func : FuncObj) : Signature where
  name := func.name
  ip := func.ip
  arity := func.arity
  isVariadic := func.isVariadic
  variadicType := func.variadicType
  captureSlots := func.captureSlots
  paramTypes := func.paramTypes
  hasTypedParams := func.hasTypedParams
  returnTypes := func.returnTypes
  hasTypedReturns := func.hasTypedReturns
  namedReturnCount := func.namedReturnCount
  defaults := func.defaults

def eraseSignature (func : FuncObj) : Signature :=
  { signature func with
    variadicType := eraseSpec func.variadicType
    paramTypes := func.paramTypes.map eraseSpec
    returnTypes := func.returnTypes.map eraseSpec }

section Map

variable {Func Func' : Type} (f : Func → Func')

def mapPredicate : Predicate Func → Predicate Func'
  | .function func => .function (f func)
  | .closure func upvalues => .closure (f func) upvalues
  | .other => .other

def mapNamedType (type : NamedType Func) : NamedType Func' :=
  { type with predicate := type.predicate.map (mapPredicate f) }

def mapTaskType (type : TaskType Func) : TaskType Func' :=
  { type with behavior := f type.behavior }

/-- The constant over other function objects. -/
def mapConst : Constant Func → Constant Func'
  | .int value => .int value
  | .float bits => .float bits
  | .rune codepoint => .rune codepoint
  | .boolean value => .boolean value
  | .null => .null
  | .string bytes => .string bytes
  | .function func => .function (f func)
  | .closure func upvalues => .closure (f func) upvalues
  | .structType type => .structType type
  | .namedType type => .namedType (mapNamedType f type)
  | .variantType type => .variantType type
  | .interfaceType type => .interfaceType type
  | .enumType type => .enumType type
  | .taskType type => .taskType (mapTaskType f type)
  | .other => .other

end Map

/-- The constant with `any` for every type parameter in its types. -/
def eraseConst {Func : Type} : Constant Func → Constant Func
  | .structType type => .structType (eraseStruct type)
  | .namedType type => .namedType (eraseNamedType type)
  | .variantType type => .variantType (eraseVariant type)
  | .interfaceType type => .interfaceType (eraseInterface type)
  | const => const

/-- A constant with its function objects in place. -/
def view (funcs : List FuncObj) (const : Constant FuncRef) : Constant (Option Signature) :=
  mapConst (fun func => funcs[func]?.map signature) const

/-- What is to be read back of a constant. -/
def expected (funcs : List FuncObj) (const : Constant FuncRef) : Constant (Option Signature) :=
  mapConst (fun func => funcs[func]?.map eraseSignature) (eraseConst const)

/-- The function survives: the values of its default parameters are not written. -/
structure SafeFunc (func : FuncObj) : Prop where
  types : SafeFuncTypes func
  defaults : func.defaults = []

/-- The constant survives the wire. A predicate comes back as an anonymous closure
without upvalues, and a task behavior under the name of its type. -/
def SafeConst (funcs : List FuncObj) : Constant FuncRef → Prop
  | .rune codepoint => codepoint.val ≤ 0x10FFFF
  | .function func => ∀ f ∈ funcs[func]?, SafeFunc f
  | .structType type => ∀ field ∈ type.fields, SafeField field
  | .namedType type =>
    SafeNamedType type ∧ ∀ predicate ∈ type.predicate, ∃ func, predicate = .closure func 0 ∧
      ∀ f ∈ funcs[func]?, SafeFunc f ∧ [] = f.name
  | .variantType type =>
    (∀ field ∈ type.sharedFields, SafeField field) ∧ ∀ arm ∈ type.arms, SafeArm arm
  | .interfaceType type => ∀ method ∈ type.methods, SafeMethod method
  | .enumType type => SafeParent type.parentName
  | .taskType type => ∀ f ∈ funcs[type.behavior]?, SafeFunc f ∧ type.name = f.name
  | _ => True

/-- The function object `func` was loaded for the one behind a constant. -/
def CameBack (funcs : List FuncObj) (source : FuncRef × (FuncObj → Bytes)) (func : FuncObj) :
    Prop :=
  ∃ f, funcs[source.1]? = some f ∧
    (signature func = eraseSignature f ↔ SafeFunc f ∧ source.2 f = f.name)

variable {entry : TypeEntryInfo}

theorem raw_eq_iff {raw : RawTypeEntry} (indexed : entry.PredicateIndexed)
    (written : Writable (writeTypeEntry entry)) (wires : wireTypeEntry entry = .ok raw) :
    raw = eraseEntry entry ↔ SafeEntry entry := by
  rw [← entry_survives indexed written, wires, ok.injEq]

variable {funcs : List FuncObj} {fidx : ℕ}

/-- A predicate comes back as a closure without upvalues over a function without a name. -/
theorem predicate_iff {loaded : List FuncObj} {func : ℕ} {type : NamedType FuncRef}
    (supported : funcOf (.namedType type) = none ↔ type.predicate = none)
    (cameBack : ∀ source ∈ funcOf (.namedType type),
      ∃ f, loaded[func]? = some f ∧ CameBack funcs source f) :
    ((((funcOf (.namedType type)).map fun _ => fidx).map fun _ => Predicate.closure func 0).map
        (mapPredicate fun func => loaded[func]?.map signature) =
      type.predicate.map (mapPredicate fun func => funcs[func]?.map eraseSignature)) ↔
      ∀ predicate ∈ type.predicate, ∃ func, predicate = .closure func 0 ∧
        ∀ f ∈ funcs[func]?, SafeFunc f ∧ [] = f.name := by
  cases present : type.predicate with
  | none =>
    rw [supported.mpr present]
    exact iff_of_true rfl (by rintro _ ⟨⟩)
  | some predicate =>
    rw [present] at supported
    simp only [mem_some_iff, forall_eq', map_some]
    cases predicate with
    | other =>
      rw [funcOf, present] at supported
      cases supported.mp rfl
    | function ref =>
      have isFunc : funcOf (.namedType type) = some (ref, fun _ => []) := by
        rw [funcOf, present]
      rw [isFunc]
      exact iff_of_false (by rintro ⟨⟩) (by rintro ⟨_, ⟨⟩, _⟩)
    | closure ref upvalues =>
      have isFunc : funcOf (.namedType type) = some (ref, fun _ => []) := by
        rw [funcOf, present]
      obtain ⟨f, found, original, isOriginal, same⟩ := cameBack _ isFunc
      have isOriginal : funcs[ref]? = some original := isOriginal
      simp only [isFunc, map_some, mapPredicate, found, isOriginal, some.injEq,
        Predicate.closure.injEq, same]
      constructor
      · rintro ⟨safe, rfl⟩
        exact ⟨ref, ⟨rfl, rfl⟩, by simpa [isOriginal] using safe⟩
      · rintro ⟨_, ⟨rfl, rfl⟩, safe⟩
        exact ⟨safe original isOriginal, rfl⟩

variable {const : Constant FuncRef}

theorem view_eq_iff {loaded : List FuncObj} {func : ℕ} {own others : List RawTypeEntry}
    (supported : Supported const) (codepoint : codepointOk const = true)
    (wired : List.Forall₂ (fun entry raw => wireTypeEntry entry = .ok raw)
      (typeOf fidx const).toList own)
    (written : ∀ entry ∈ typeOf fidx const, Writable (writeTypeEntry entry))
    (cameBack : ∀ source ∈ funcOf const, ∃ f, loaded[func]? = some f ∧ CameBack funcs source f) :
    view loaded (loadedConst (own ++ others).head? const func) = expected funcs const ↔
      SafeConst funcs const := by
  cases const with
  | int | float | boolean | null | string => exact iff_of_true rfl trivial
  | rune value =>
    have small : value.val ≤ 0x10FFFF := of_decide_eq_true codepoint
    exact iff_of_true rfl small
  | closure | other => cases supported
  | function ref =>
    obtain ⟨f, found, original, present, same⟩ := cameBack _ rfl
    simp only [view, loadedConst, mapConst, expected, eraseConst, found, present, map_some,
      SafeConst, Constant.function.injEq, some.injEq, same, mem_some_iff, forall_eq']
    exact and_iff_left trivial
  | structType type =>
    obtain ⟨raw, _, wires, _, rfl⟩ := List.forall₂_cons_left_iff.mp wired
    refine Iff.trans ?_ (@raw_eq_iff (.structT type) raw trivial (written _ rfl) wires)
    obtain ⟨_, _, same⟩ := bind_eq_ok.mp wires
    obtain rfl := ok.inj same
    exact ⟨fun same => congrArg _ (Constant.structType.inj same),
      fun same => congrArg _ (RawTypeEntry.structT.inj same)⟩
  | variantType type =>
    obtain ⟨raw, _, wires, _, rfl⟩ := List.forall₂_cons_left_iff.mp wired
    refine Iff.trans ?_ (@raw_eq_iff (.variantT type) raw trivial (written _ rfl) wires)
    obtain ⟨_, _, rest⟩ := bind_eq_ok.mp wires
    obtain ⟨_, _, same⟩ := bind_eq_ok.mp rest
    obtain rfl := ok.inj same
    exact ⟨fun same => congrArg _ (Constant.variantType.inj same),
      fun same => congrArg _ (RawTypeEntry.variantT.inj same)⟩
  | interfaceType type =>
    obtain ⟨raw, _, wires, _, rfl⟩ := List.forall₂_cons_left_iff.mp wired
    refine Iff.trans ?_ (@raw_eq_iff (.interfaceT type) raw trivial (written _ rfl) wires)
    obtain ⟨_, _, same⟩ := bind_eq_ok.mp wires
    obtain rfl := ok.inj same
    exact ⟨fun same => congrArg _ (Constant.interfaceType.inj same),
      fun same => congrArg _ (RawTypeEntry.interfaceT.inj same)⟩
  | enumType type =>
    obtain ⟨raw, _, wires, _, rfl⟩ := List.forall₂_cons_left_iff.mp wired
    refine Iff.trans ?_ (@raw_eq_iff (.enumT type) raw trivial (written _ rfl) wires)
    obtain rfl := ok.inj wires
    exact ⟨fun same => congrArg _ (Constant.enumType.inj same),
      fun same => congrArg _ (RawTypeEntry.enumT.inj same)⟩
  | taskType type =>
    obtain ⟨raw, _, wires, _, rfl⟩ := List.forall₂_cons_left_iff.mp wired
    obtain rfl := ok.inj wires
    obtain ⟨f, found, original, present, same⟩ := cameBack _ rfl
    have present : funcs[type.behavior]? = some original := present
    simp only [view, loadedConst, cons_append, List.head?_cons, map_some,
      getD_some, RawTypeEntry.toConstant, mapConst, mapTaskType, expected, eraseConst,
      found, present, SafeConst, Constant.taskType.injEq, TaskType.mk.injEq, true_and,
      some.injEq, same, mem_some_iff, forall_eq']
  | namedType type =>
    obtain ⟨raw, _, wires, _, rfl⟩ := List.forall₂_cons_left_iff.mp wired
    have indexed : (funcOf (.namedType type)).map (fun _ => fidx) = none ↔
        type.predicate = none := map_eq_none_iff.trans supported
    have data := @raw_eq_iff (.namedT type _) raw indexed (written _ rfl) wires
    simp only [wireTypeEntry, wireNamedType, bind_eq_ok] at wires
    obtain ⟨_, _, _, _, _, _, _, _, same⟩ := wires
    obtain rfl := ok.inj same
    simp only [eraseEntry, RawTypeEntry.namedT.injEq, eraseNamedType, NamedType.mk.injEq,
      true_and, and_true, SafeEntry] at data
    simp only [view, loadedConst, cons_append, List.head?_cons, map_some,
      getD_some, RawTypeEntry.toConstant, mapConst, mapNamedType, expected, eraseConst,
      SafeConst, Constant.namedType.injEq, eraseNamedType, NamedType.mk.injEq, true_and, ← data]
    rw [predicate_iff supported cameBack]
    constructor
    · rintro ⟨parent, elem, key, val, predicate, message, default⟩
      exact ⟨⟨parent, elem, key, val, message, default⟩, predicate⟩
    · rintro ⟨⟨parent, elem, key, val, message, default⟩, predicate⟩
      exact ⟨parent, elem, key, val, predicate, message, default⟩

theorem views_eq_iff {funcs objs before after : List FuncObj} {fidx : ℕ}
    {consts : List (Constant FuncRef)} {types : List RawTypeEntry}
    (supported : ∀ const ∈ consts, Supported const)
    (codepoints : ∀ const ∈ consts, codepointOk const = true)
    (wired : List.Forall₂ (fun entry raw => wireTypeEntry entry = .ok raw)
      (typesFrom fidx consts) types)
    (written : ∀ entry ∈ typesFrom fidx consts, Writable (writeTypeEntry entry))
    (cameBack : List.Forall₂ (CameBack funcs) (consts.filterMap funcOf) objs) :
    (loadedFrom before.length types consts).map (view (before ++ objs ++ after)) =
        consts.map (expected funcs) ↔
      ∀ const ∈ consts, SafeConst funcs const := by
  induction consts generalizing fidx types before objs with
  | nil => exact iff_of_true rfl (forall_mem_nil _)
  | cons const consts ih =>
    obtain ⟨own, others, rfl, ownWired, otherWired⟩ := split_typesFrom wired
    have length : own.length = typeCount const :=
      ownWired.length_eq.symm.trans (length_typeOf _ const)
    obtain ⟨isSupported, supported⟩ := forall_mem_cons.mp supported
    obtain ⟨codepoint, codepoints⟩ := forall_mem_cons.mp codepoints
    rw [typesFrom] at written
    have ownWritten : ∀ entry ∈ typeOf fidx const, Writable (writeTypeEntry entry) :=
      fun entry member => written entry (mem_append_left _ (mem_toList.mpr member))
    have othersWritten := fun entry member => written entry (mem_append_right _ member)
    rw [loadedFrom_cons length, map_append, map_singleton, map_cons,
      singleton_append, List.cons.injEq, forall_mem_cons]
    cases isFunc : funcOf const with
    | none =>
      rw [filterMap_cons_none isFunc] at cameBack
      have noFunc : funcCount const = 0 := by rw [funcCount, isFunc]; rfl
      rw [noFunc] at otherWired othersWritten ⊢
      refine and_congr (view_eq_iff isSupported codepoint ownWired ownWritten ?_)
        (ih supported codepoints otherWired othersWritten cameBack)
      rw [isFunc]
      rintro _ ⟨⟩
    | some source =>
      rw [filterMap_cons_some isFunc] at cameBack
      obtain ⟨f, objs, ownBack, othersBack, rfl⟩ := List.forall₂_cons_left_iff.mp cameBack
      have oneFunc : funcCount const = 1 := by rw [funcCount, isFunc]; rfl
      rw [oneFunc] at otherWired othersWritten ⊢
      have rest := @ih objs (before ++ [f]) _ _ supported codepoints otherWired
        othersWritten othersBack
      rw [length_append, length_singleton, append_assoc before] at rest
      refine and_congr (view_eq_iff isSupported codepoint ownWired ownWritten ?_) rest
      rw [isFunc]
      rintro _ ⟨⟩
      exact ⟨f, by simp, ownBack⟩

variable {consts : List (Constant FuncRef)}

/-- A loaded function object is the one that was entered, when its types are safe and its
name is the one it was entered under. -/
theorem cameBack_of_entry {source : FuncRef × (FuncObj → Bytes)} {entry named : FuncEntryInfo}
    {raw : RawFuncEntry} {pool : List (Constant FuncRef)}
    (entered : EntryOf funcs source entry) (isNamed : Named pool entry named)
    (written : Writable (writeFunction consts named))
    (wired : wireFunction consts named = .ok raw) :
    CameBack funcs source { raw.loaded 0 with name := entry.name } := by
  obtain ⟨f, found, same, ip, name, -⟩ := entered
  obtain ⟨nameConstIdx, rfl, -⟩ := isNamed
  refine ⟨f, found, ?_⟩
  have survives := function_survives written
  rw [wired, ok.injEq] at survives
  obtain ⟨_, _, _, rfl⟩ := wireFunction_eq_ok wired
  subst same
  simp only [signature, eraseSignature, RawFuncEntry.loaded, eraseFunction, Signature.mk.injEq,
    RawFuncEntry.mk.injEq, FuncObj.mk.injEq, true_and, and_true, zero_add, ip, name] at survives ⊢
  constructor
  · rintro ⟨sameName, variadic, params, returns, defaults⟩
    exact ⟨⟨survives.mp ⟨variadic, params, returns⟩, defaults.symm⟩, sameName⟩
  · rintro ⟨safe, sameName⟩
    obtain ⟨variadic, params, returns⟩ := survives.mpr safe.types
    exact ⟨sameName, variadic, params, returns, safe.defaults.symm⟩

theorem forall₂_cameBack {pool : List (Constant FuncRef)}
    {sources : List (FuncRef × (FuncObj → Bytes))} {entries named : List FuncEntryInfo}
    {raws : List RawFuncEntry} (entered : List.Forall₂ (EntryOf funcs) sources entries)
    (areNamed : List.Forall₂ (Named pool) entries named)
    (wired : List.Forall₂ (fun entry raw => wireFunction consts entry = .ok raw) named raws)
    (written : ∀ entry ∈ named, Writable (writeFunction consts entry)) :
    List.Forall₂ (CameBack funcs) sources
      (List.zipWith (fun func entry => { func with name := entry.name })
        (raws.map (·.loaded 0)) entries) := by
  induction entered generalizing named raws with
  | nil =>
    rw [zipWith_nil_right]
    exact .nil
  | cons isEntry _ ih =>
    obtain ⟨_, _, isNamed, othersNamed, rfl⟩ := List.forall₂_cons_left_iff.mp areNamed
    obtain ⟨_, _, isWired, othersWired, rfl⟩ := List.forall₂_cons_left_iff.mp wired
    obtain ⟨own, others⟩ := forall_mem_cons.mp written
    exact .cons (cameBack_of_entry isEntry isNamed own isWired) (ih othersNamed othersWired others)

theorem indexed_of_supported (isType : typeOf fidx const = some entry)
    (supported : Supported const) : entry.PredicateIndexed := by
  cases const <;> cases isType
  case namedType => exact map_eq_none_iff.trans supported
  all_goals trivial

theorem safeEntry_of_safeConst (isType : typeOf fidx const = some entry)
    (safe : SafeConst funcs const) : SafeEntry entry := by
  cases const <;> cases isType
  case namedType => exact safe.1
  case taskType => trivial
  all_goals exact safe

theorem safeFunc_of_safeConst {source : FuncRef × (FuncObj → Bytes)}
    (isFunc : funcOf const = some source) (safe : SafeConst funcs const) :
    ∀ f ∈ funcs[source.1]?, SafeFunc f := by
  cases const with
  | int | float | rune | boolean | null | string | closure | other | structType | variantType
  | interfaceType | enumType => cases isFunc
  | function =>
    cases isFunc
    exact safe
  | taskType =>
    cases isFunc
    exact fun f member => (safe f member).1
  | namedType type =>
    obtain ⟨-, predicates⟩ := safe
    rw [funcOf] at isFunc
    cases present : type.predicate with
    | none =>
      rw [present] at isFunc
      cases isFunc
    | some predicate =>
      obtain ⟨func, rfl, funcSafe⟩ := predicates predicate present
      rw [present] at isFunc
      cases isFunc
      exact fun f member => (funcSafe f member).1

theorem forall_typesFrom {P : TypeEntryInfo → Prop}
    (each : ∀ const ∈ consts, ∀ fidx entry, typeOf fidx const = some entry → P entry) :
    ∀ entry ∈ typesFrom fidx consts, P entry := by
  induction consts generalizing fidx with
  | nil => exact forall_mem_nil _
  | cons const consts ih =>
    obtain ⟨own, others⟩ := forall_mem_cons.mp each
    intro entry member
    rcases mem_append.mp member with first | later
    · exact own fidx entry (mem_toList.mp first)
    · exact ih others entry later

theorem typesFrom_names {names : List Bytes} :
    typesFrom fidx (consts ++ names.map .string) = typesFrom fidx consts := by
  induction consts generalizing fidx with
  | cons const consts ih =>
    exact congrArg ((typeOf fidx const).toList ++ ·) ih
  | nil =>
    induction names generalizing fidx with
    | nil => rfl
    | cons name names ih => exact ih

theorem filterMap_names {names : List Bytes} :
    (consts ++ names.map (@Constant.string FuncRef)).filterMap funcOf =
      consts.filterMap funcOf := by
  have noFunc : (names.map (@Constant.string FuncRef)).filterMap funcOf = [] := by
    rw [filterMap_eq_nil_iff, List.forall_mem_map]
    exact fun _ _ => rfl
  rw [filterMap_append, noFunc, append_nil]

theorem take_loadedFrom {func : FuncRef} {types : List RawTypeEntry}
    {others : List (Constant FuncRef)} :
    (loadedFrom func types (consts ++ others)).take consts.length =
      loadedFrom func types consts := by
  induction consts generalizing func types with
  | nil => rfl
  | cons const consts ih => exact congrArg (_ :: ·) ih

theorem length_typesFrom_le (fidx : ℕ) (consts : List (Constant FuncRef)) :
    (typesFrom fidx consts).length ≤ consts.length := by
  induction consts generalizing fidx with
  | nil => exact le_rfl
  | cons const consts ih =>
    have rest := ih (fidx + funcCount const)
    have own : (typeOf fidx const).toList.length ≤ 1 := by
      cases typeOf fidx const with
      | none => exact zero_le _
      | some => exact le_rfl
    rw [typesFrom, length_append, length_cons]
    omega

/-- The name a constant's function is entered under. -/
def enteredName (funcs : List FuncObj) (const : Constant FuncRef) : Option Bytes :=
  (funcOf const).bind fun source => funcs[source.1]?.map source.2

theorem map_name_entries {entries : List FuncEntryInfo}
    (entered : List.Forall₂ (EntryOf funcs) (consts.filterMap funcOf) entries) :
    entries.map (·.name) = consts.filterMap (enteredName funcs) := by
  induction consts generalizing entries with
  | nil =>
    obtain rfl := List.forall₂_nil_left_iff.mp entered
    rfl
  | cons const consts ih =>
    cases isFunc : funcOf const with
    | none =>
      rw [filterMap_cons_none isFunc] at entered
      rw [filterMap_cons_none (by rw [enteredName, isFunc]; rfl)]
      exact ih entered
    | some source =>
      rw [filterMap_cons_some isFunc] at entered
      obtain ⟨entry, _, ⟨f, found, -, -, name, -⟩, others, rfl⟩ :=
        List.forall₂_cons_left_iff.mp entered
      rw [filterMap_cons_some (b := source.2 f)
        (by rw [enteredName, isFunc, bind_some, found]; rfl)]
      exact congr (congrArg _ name) (ih others)

/-- The strings that are interned for the type of a constant. -/
def typeStrings : Constant FuncRef → List Bytes
  | .structType type => (RawTypeEntry.structT type).strings
  | .variantType type => (RawTypeEntry.variantT type).strings
  | .namedType type => (RawTypeEntry.namedT type none).strings
  | _ => []

theorem names_eraseField (fields : List StructFieldSpec) :
    (fields.map eraseField).map (·.name) = fields.map (·.name) := by
  rw [List.map_map]
  rfl

theorem strings_typesFrom :
    ((typesFrom fidx consts).map eraseEntry).flatMap (·.strings) =
      consts.flatMap typeStrings := by
  induction consts generalizing fidx with
  | nil => rfl
  | cons const consts ih =>
    rw [typesFrom, map_append, flatMap_append, ih, flatMap_cons]
    congr 1
    cases const with
    | structType type =>
      exact (append_nil _).trans (names_eraseField type.fields)
    | variantType type =>
      refine (append_nil _).trans (congrArg₂ (· ++ ·) (names_eraseField type.sharedFields) ?_)
      rw [eraseVariant, flatMap_map]
      exact flatMap_congr fun arm _ => names_eraseField arm.fields
    | namedType | interfaceType | enumType | taskType => exact append_nil _
    | _ => rfl

/-- The condition under which the reader gives back what the writer was given, for the
chunk the writer serializes. -/
theorem loads_iff {state : State} {artifact : Bytes} {expectedRootSource : Option Bytes}
    {parts : Parts} {parsed : ParsedHeader} (of : parts.Of state)
    (opened : parseHeaderAndSections artifact expectedRootSource = .ok parsed)
    (holds : Holds parsed parts) (fits : parts.defused.length ≤ MaxCode) :
    (∃ loaded, read artifact State.fresh expectedRootSource = .ok loaded ∧
      loaded.code = parts.defused ∧
      (loaded.consts.take parts.cs.consts.length).map (view loaded.funcs) =
        parts.cs.consts.map (expected parts.cs.funcs) ∧
      loaded.stdScriptConstBase = parts.cs.stdScriptConstBase ∧
      loaded.stdScriptConstCount = parts.cs.stdScriptConstCount ∧
      loaded.stdScriptCodeEnd = parts.cs.stdScriptCodeEnd) ↔
      (∀ const ∈ parts.cs.consts, SafeConst parts.cs.funcs const) ∧
        parts.pool.length ≤ MaxConst ∧
        ((parts.cs.consts.flatMap typeStrings ++ parts.pool.flatMap constStrings).foldl
          internInto []).length ≤ MaxStrSlices := by
  obtain ⟨_, _, allSupported, _⟩ := writeConsts_eq_ok of.writeConsts_pool
  have supported : ∀ const ∈ parts.cs.consts, Supported const := fun const member =>
    allSupported const (mem_append_left _ member)
  have entered : List.Forall₂ (EntryOf parts.cs.funcs) (parts.cs.consts.filterMap funcOf)
      parts.tables.funcs := by
    have whole := of.entryOf
    rwa [Parts.pool, filterMap_names] at whole
  have typesEq : parts.tables.types = typesFrom 0 parts.cs.consts := by
    rw [of.types_eq, Parts.pool, typesFrom_names]
  have typesWritten : ∀ entry ∈ typesFrom 0 parts.cs.consts, Writable (writeTypeEntry entry) := by
    rw [← typesEq]
    exact Writable.counted ⟨_, of.types⟩
  have funcsWritten := Writable.counted ⟨_, of.functions⟩
  -- once everything is read, only the values of the constants are in question
  have views {rawFuncs : List RawFuncEntry} {types : List RawTypeEntry}
      (funcsWired : wireFunctionsSection parts.cs.consts parts.funcs = .ok rawFuncs)
      (typesWired : wireTable .tooManyTypes wireTypeEntry parts.tables.types = .ok types)
      (codepoints : ∀ const ∈ parts.pool, codepointOk const = true) (slices) (room) :
      ((State.named (State.opened parts fits slices) parts rawFuncs types 0 room).consts.take
          parts.cs.consts.length).map
          (view (State.named (State.opened parts fits slices) parts rawFuncs types 0 room).funcs) =
        parts.cs.consts.map (expected parts.cs.funcs) ↔
      ∀ const ∈ parts.cs.consts, SafeConst parts.cs.funcs const := by
    have wired := mapM_eq_ok.mp (wireTable_eq_ok.mp typesWired).2
    rw [typesEq] at wired
    have cameBack := forall₂_cameBack entered of.named
      (mapM_eq_ok.mp (wireTable_eq_ok.mp funcsWired).2) funcsWritten
    have whole := @views_eq_iff _ _ [] [] 0 _ _ supported
      (fun const member => codepoints const (mem_append_left _ member)) wired typesWritten
      cameBack
    rw [append_nil, nil_append, length_nil, ← take_loadedFrom] at whole
    exact whole
  have typesOk (safe : ∀ const ∈ parts.cs.consts, SafeConst parts.cs.funcs const) :
      parts.tables.types.mapM wireTypeEntry = .ok (parts.tables.types.map eraseEntry) := by
    have entries : ∀ entry ∈ typesFrom 0 parts.cs.consts, entry.PredicateIndexed ∧
      SafeEntry entry :=
      forall_typesFrom fun const member _ _ isType =>
        ⟨indexed_of_supported isType (supported const member),
          safeEntry_of_safeConst isType (safe const member)⟩
    rw [mapM_map_eq_ok, typesEq]
    intro entry member
    obtain ⟨indexed, isSafe⟩ := entries entry member
    exact (entry_survives indexed (typesWritten entry member)).mpr isSafe
  have strings : HasSlices [] ((parts.tables.types.map eraseEntry).flatMap (·.strings) ++
        parts.pool.flatMap constStrings) ↔
      ((parts.cs.consts.flatMap typeStrings ++ parts.pool.flatMap constStrings).foldl
        internInto []).length ≤ MaxStrSlices := by
    rw [typesEq, strings_typesFrom]
    exact hasSlices_iff (zero_le _)
  constructor
  · rintro ⟨loaded, done, -, consts, -⟩
    obtain ⟨rawFuncs, types, funcsWired, typesWired, codepoints, interned, room, rfl⟩ :=
      (read_eq_ok of opened holds fits).mp done
    have safe := (views funcsWired typesWired codepoints _ room).mp consts
    obtain rfl := ok.inj ((typesOk safe).symm.trans (wireTable_eq_ok.mp typesWired).2)
    exact ⟨safe, (le_add_left _ _).trans room, strings.mp interned⟩
  · rintro ⟨safe, room, few⟩
    have funcsOk : parts.funcs.mapM (wireFunction parts.cs.consts) =
        .ok (parts.funcs.map (eraseFunction parts.cs.consts)) := by
      rw [mapM_map_eq_ok]
      intro entry member
      have own := funcsWritten entry member
      obtain ⟨unnamed, unnamedMember, _, rfl, _⟩ := exists_of_mem_right of.named entry member
      obtain ⟨source, sourceMember, f, found, same, _⟩ :=
        exists_of_mem_right entered unnamed unnamedMember
      obtain ⟨const, constMember, isFunc⟩ := mem_filterMap.mp sourceMember
      refine (function_survives own).mpr ?_
      subst same
      exact (safeFunc_of_safeConst isFunc (safe const constMember) _ found).types
    have codepoints : ∀ const ∈ parts.pool, codepointOk const = true := by
      intro const member
      rcases mem_append.mp member with own | name
      · cases const with
        | rune codepoint => exact decide_eq_true (safe _ own)
        | _ => rfl
      · obtain ⟨_, _, rfl⟩ := mem_map.mp name
        rfl
    have small : MaxConst ≤ 65536 := by decide
    have constCount := parts.cs.constCount_le
    have funcsFew : parts.funcs.length ≤ 65536 := by
      have few := length_filterMap_le funcOf parts.cs.consts
      rw [entered.length_eq] at few
      rw [Parts.funcs, length_assignNames]
      omega
    have typesFew : parts.tables.types.length ≤ 65536 := by
      have few := length_typesFrom_le 0 parts.cs.consts
      rw [typesEq]
      omega
    have funcsWired : wireFunctionsSection parts.cs.consts parts.funcs = .ok _ :=
      wireTable_eq_ok.mpr ⟨funcsFew, funcsOk⟩
    have typesWired : wireTable .tooManyTypes wireTypeEntry parts.tables.types = .ok _ :=
      wireTable_eq_ok.mpr ⟨typesFew, typesOk safe⟩
    have room (slices) : (State.opened parts fits slices).consts.length + parts.pool.length ≤
        MaxConst := by
      rwa [State.opened, length_nil, zero_add]
    exact ⟨_, (read_eq_ok of opened holds fits).mpr ⟨_, _, funcsWired, typesWired, codepoints,
      strings.mpr few, room _, rfl⟩, rfl, (views funcsWired typesWired codepoints _ _).mpr safe,
      rfl, rfl, rfl⟩

/-- The same function objects, up to their entries. -/
def Moved (funcs moved : List FuncObj) : Prop :=
  ∀ ref : FuncRef, ∃ ip : FuncObj → ℕ, moved[ref]? = funcs[ref]?.map fun f => { f with ip := ip f }

variable {state : State}

theorem moved_of_cs {cs : State} {program : Program}
    (same : cs = state ∨ cs = state.remapConstFuncIps (ipMapOf program)) :
    Moved state.funcs cs.funcs := by
  intro ref
  rcases same with rfl | rfl
  · exact ⟨(·.ip), Option.map_id_fun'.symm ▸ rfl⟩
  · rw [State.remapConstFuncIps, List.getElem?_mapIdx]
    by_cases inPool : ref ∈ state.poolFuncs
    · simp only [if_pos inPool]
      exact ⟨fun f => (ipMapOf program).getD f.ip f.ip, rfl⟩
    · simp only [if_neg inPool]
      exact ⟨(·.ip), rfl⟩

variable {moved : List FuncObj}

section

variable (isMoved : Moved funcs moved)
include isMoved

theorem forall_moved_iff {P : FuncObj → Prop} (entry : ∀ f ip, P { f with ip } ↔ P f)
    (ref : FuncRef) : (∀ f ∈ moved[ref]?, P f) ↔ ∀ f ∈ funcs[ref]?, P f := by
  obtain ⟨ip, same⟩ := isMoved ref
  rw [same]
  cases funcs[ref]? with
  | none => exact iff_of_true nofun nofun
  | some f => simp [entry]

omit isMoved in
theorem safeFunc_moved (f : FuncObj) (ip : ℕ) : SafeFunc { f with ip } ↔ SafeFunc f :=
  ⟨fun safe => ⟨safe.types, safe.defaults⟩, fun safe => ⟨safe.types, safe.defaults⟩⟩

theorem safeConst_moved (const : Constant FuncRef) :
    SafeConst moved const ↔ SafeConst funcs const := by
  cases const with
  | int | float | rune | boolean | null | string | closure | other | structType | variantType
  | interfaceType | enumType => exact .rfl
  | function ref => exact forall_moved_iff isMoved safeFunc_moved ref
  | taskType type =>
    exact forall_moved_iff isMoved (P := fun f => SafeFunc f ∧ type.name = f.name)
      (fun f ip => and_congr_left' (safeFunc_moved f ip)) type.behavior
  | namedType type =>
    refine and_congr_right fun _ => forall₂_congr fun predicate _ => exists_congr fun func =>
      and_congr_right fun _ => ?_
    exact forall_moved_iff isMoved (P := fun f => SafeFunc f ∧ [] = f.name)
      (fun f ip => and_congr_left' (safeFunc_moved f ip)) func

theorem enteredName_moved : enteredName moved = enteredName funcs := by
  funext const
  cases isFunc : funcOf const with
  | none => rw [enteredName, enteredName, isFunc]; rfl
  | some source =>
    obtain ⟨ip, same⟩ := isMoved source.1
    have byName : ∀ f : FuncObj, source.2 { f with ip := ip f } = source.2 f := by
      intro f
      cases const with
      | int | float | rune | boolean | null | string | closure | other | structType
      | variantType | interfaceType | enumType => cases isFunc
      | function | taskType => cases isFunc; rfl
      | namedType type =>
        rw [funcOf] at isFunc
        split at isFunc <;> cases isFunc <;> rfl
    rw [enteredName, enteredName, isFunc, bind_some, bind_some, same, Option.map_map]
    exact congrArg (fun f => funcs[source.1]?.map f) (funext byName)

end

/-- Where an offset of the code lies in the code that is shipped. -/
def shippedPosition (code : List UInt8) (offset : ℕ) : ℕ :=
  match buildIpMap code with
  | .ok (ipMap, _) => ipMap.getD offset offset
  | .error _ => offset

theorem extent_newWidth_eq_iff (instrs : List Instr) :
    extent Instr.width instrs = extent newWidth instrs ↔
      ∀ instr ∈ instrs, newWidth instr = instr.width := by
  induction instrs with
  | nil => exact iff_of_true rfl (forall_mem_nil _)
  | cons instr instrs ih =>
    have wider := width_le_newWidth instr
    have othersWider : ∀ others : List Instr, extent Instr.width others ≤
      extent newWidth others := by
      intro others
      induction others with
      | nil => exact le_rfl
      | cons other others ih =>
        have otherWider := width_le_newWidth other
        rw [extent_cons, extent_cons]
        omega
    have rest := othersWider instrs
    rw [forall_mem_cons, ← ih, extent_cons, extent_cons]
    omega

/-- An instruction start keeps its position when no instruction before it grows. -/
theorem shippedPosition_eq_iff {code : List UInt8} {offset : ℕ} (clean : DecodesCleanly code)
    (start : Sweep code offset) :
    offset = shippedPosition code offset ↔
      ∀ item ∈ listing code, item.1 < offset →
        expandedWidth item.2.op item.2.width = item.2.width := by
  obtain ⟨program, rfl⟩ := decodesCleanly_iff.mp clean
  obtain ⟨before, after, split, rfl⟩ := program.sweep_iff.mp start
  have moved : shippedPosition program.code (extent Instr.width before) =
    extent newWidth before := by
    simp only [shippedPosition, buildIpMap_code, getD_eq_getElem?_getD,
      getElem?_ipMapOf_extent split, getD_some]
  rw [moved, extent_newWidth_eq_iff, Program.listing_code, List.forall_mem_map]
  constructor
  · rintro whole ⟨pos, instr⟩ listed inside
    rw [Program.listing, split, placed_append, mem_append, zero_add] at listed
    rcases listed with early | late
    · obtain ⟨first, last, rfl, -⟩ := mem_placed_iff.mp early
      exact whole instr (by simp)
    · obtain ⟨first, last, -, rfl⟩ := mem_placed_iff.mp late
      exact absurd inside (not_lt.mpr (le_add_right _ _))
  · intro whole instr member
    obtain ⟨first, last, rfl⟩ := append_of_mem member
    refine whole (extent Instr.width first, instr) ?_ ?_
    · exact Program.mem_listing_iff.mpr ⟨first, last ++ after, by simpa using split, rfl⟩
    · have positive := instr.width_pos
      rw [extent_append, extent_cons]
      change extent Instr.width first < _
      omega

/-- Reading the artifact into a fresh chunk gives back the defused code, the constants by
value with their functions in its coordinates, and the place of the standard library. -/
def RoundTrips (state : State) (artifact : Bytes) (expectedRootSource : Option Bytes) : Prop :=
  ∃ out cs loaded, buildDefusedCode state = .ok (out, cs) ∧
    read artifact State.fresh expectedRootSource = .ok loaded ∧
    loaded.code = out ∧
    (loaded.consts.take state.consts.length).map (view loaded.funcs) =
      state.consts.map (expected cs.funcs) ∧
    loaded.stdScriptConstBase = state.stdScriptConstBase ∧
    loaded.stdScriptConstCount = state.stdScriptConstCount ∧
    loaded.stdScriptCodeEnd = shippedPosition state.code state.stdScriptCodeEnd

/-- The constants that are shipped: the pool, and behind it the function names that are no
constants yet. -/
def shippedConsts (consts : List (Constant FuncRef)) (funcs : List FuncObj) :
    List (Constant FuncRef) :=
  consts ++ ((consts.filterMap (enteredName funcs)).filter (Unlisted consts ·)).map .string

/-- The strings that are interned when the artifact of a chunk is loaded: short ones once each. -/
def internedStrings (state : State) : List Bytes :=
  (state.consts.flatMap typeStrings ++
    (shippedConsts state.consts state.funcs).flatMap constStrings).foldl internInto []

structure RoundTripSafe (state : State) : Prop where
  consts : ∀ const ∈ state.consts, SafeConst state.funcs const
  /-- The names that are no constants yet fit into the pool as well. -/
  names : (shippedConsts state.consts state.funcs).length ≤ MaxConst
  strings : (internedStrings state).length ≤ MaxStrSlices
  /-- No instruction of the standard library grows when it is expanded. -/
  library : ∀ item ∈ listing state.code, item.1 < state.stdScriptCodeEnd →
    expandedWidth item.2.op item.2.width = item.2.width

theorem pool_eq (of : parts.Of state) :
    parts.pool = shippedConsts parts.cs.consts parts.cs.funcs := by
  have entered := of.entryOf
  rw [Parts.pool, filterMap_names] at entered
  rw [Parts.pool, Parts.extra, assignNames_extra, nil_append, map_name_entries entered]
  rfl

theorem stdScriptCodeEnd_cs (clean : DecodesCleanly state.code) (of : parts.Of state) :
    parts.cs.stdScriptCodeEnd = state.stdScriptCodeEnd := by
  obtain ⟨program, codeEq⟩ := decodesCleanly_iff.mp clean
  rcases cs_of_buildDefusedCode codeEq of.defused with same | same <;> rw [same]
  rfl

theorem shippedPosition_of_roundTrips {opts : WriteOptions} {artifact : Bytes}
    {expectedRootSource : Option Bytes} (clean : DecodesCleanly state.code)
    (written : write state opts = .ok artifact) (matching : SourceMatches opts expectedRootSource)
    (whole : RoundTrips state artifact expectedRootSource) :
    state.stdScriptCodeEnd = shippedPosition state.code state.stdScriptCodeEnd := by
  obtain ⟨program, codeEq⟩ := decodesCleanly_iff.mp clean
  obtain ⟨parts, of, parsed, opened, holds⟩ := exists_holds written matching
  obtain ⟨_, _, loaded, _, done, _, _, _, _, codeEnd⟩ := whole
  obtain ⟨_, _, _, _, _, _, _, rfl⟩ :=
    (read_eq_ok of opened holds (length_buildDefusedCode codeEq of.defused)).mp done
  exact (stdScriptCodeEnd_cs clean of).symm.trans codeEnd

/-- **The round trip.** Reading a written artifact gives the chunk back exactly when its
constants are safe, its function names fit into the pool and the standard library holds no
instruction that grows. -/
theorem roundTrips_iff {state : State} {opts : WriteOptions} {artifact : Bytes}
    {expectedRootSource : Option Bytes} (clean : DecodesCleanly state.code)
    (start : Sweep state.code state.stdScriptCodeEnd)
    (written : write state opts = .ok artifact)
    (matching : SourceMatches opts expectedRootSource) :
    RoundTrips state artifact expectedRootSource ↔ RoundTripSafe state := by
  obtain ⟨program, codeEq⟩ := decodesCleanly_iff.mp clean
  obtain ⟨parts, of, parsed, opened, holds⟩ := exists_holds written matching
  have fits := length_buildDefusedCode codeEq of.defused
  have same := cs_of_buildDefusedCode codeEq of.defused
  have isMoved := moved_of_cs same
  obtain ⟨constsEq, baseEq, countEq⟩ : parts.cs.consts = state.consts ∧
      parts.cs.stdScriptConstBase = state.stdScriptConstBase ∧
      parts.cs.stdScriptConstCount = state.stdScriptConstCount := by
    rcases same with same | same <;> rw [same] <;> exact ⟨rfl, rfl, rfl⟩
  have loads := loads_iff of opened holds fits
  have pool : parts.pool = shippedConsts state.consts state.funcs := by
    rw [pool_eq of, constsEq, shippedConsts, enteredName_moved isMoved]
    rfl
  rw [pool, constsEq, baseEq, countEq, stdScriptCodeEnd_cs clean of] at loads
  have library := shippedPosition_eq_iff clean start
  constructor
  · intro whole
    have sameEnd := shippedPosition_of_roundTrips clean written matching whole
    obtain ⟨_, _, loaded, built, done, code, consts, base, count, codeEnd⟩ := whole
    obtain ⟨rfl, rfl⟩ := Prod.mk.inj (ok.inj (of.defused.symm.trans built))
    obtain ⟨safe, names, strings⟩ :=
      loads.mp ⟨loaded, done, code, consts, base, count, codeEnd.trans sameEnd.symm⟩
    exact ⟨fun const member => (safeConst_moved isMoved const).mp (safe const member), names,
      strings, library.mp sameEnd⟩
  · intro safe
    obtain ⟨loaded, done, code, consts, base, count, codeEnd⟩ := loads.mpr
      ⟨fun const member => (safeConst_moved isMoved const).mpr (safe.consts const member),
        safe.names, safe.strings⟩
    exact ⟨_, _, loaded, of.defused, done, code, consts, base, count,
      codeEnd.trans (library.mpr safe.library)⟩

/-- A function that returns a constant, and behind it the end of the embedded library. -/
def returnsConst (stdScriptCodeEnd : ℕ) : State where
  code := [Op.jump.toByte, 0, 0, 0, 3, Op.retConst.toByte, 0, 0, Op.halt.toByte]
  consts := [.int 1, .function 0]
  funcs := [{ ip := 5, arity := 0, isVariadic := false, variadicType := [.any],
              captureSlots := [], paramTypes := [], hasTypedParams := false, returnTypes := [],
              hasTypedReturns := false, name := [0x66] }]
  stdScriptCodeEnd
  codeLen_le := show 9 ≤ MaxCode by decide
  constCount_le := show 2 ≤ MaxConst by decide

theorem returnsConst_clean (stdScriptCodeEnd : ℕ) :
    DecodesCleanly (returnsConst stdScriptCodeEnd).code :=
  ⟨_, .cons rfl (.cons rfl (.cons rfl (.nil _)))⟩

theorem returnsConst_safe : RoundTripSafe (returnsConst 0) where
  consts := by
    refine forall_mem_cons.mpr ⟨trivial, forall_mem_singleton.mpr ?_⟩
    rintro f ⟨⟩
    refine ⟨⟨rfl, ?_, forall_mem_nil _, forall_mem_nil _⟩, rfl⟩
    rw [SafeVariadic, if_neg Bool.false_ne_true, eraseSpec_eq]
    rfl
  names := by decide
  strings := by decide
  library := fun _ _ impossible => absurd impossible (not_lt_zero _)

/-- Without an embedded library the function comes back. -/
theorem roundTrips_returnsConst :
    ∃ artifact, write (returnsConst 0) { rootSource := [] } = .ok artifact ∧
      RoundTrips (returnsConst 0) artifact none := by
  obtain ⟨artifact, written⟩ :=
    exists_write (show (write (returnsConst 0) { rootSource := [] }).toBool =
      true by decide +kernel)
  exact ⟨artifact, written,
    (roundTrips_iff (returnsConst_clean 0) ⟨_, .nil _⟩ written (sourceMatches_none _)).mpr
      returnsConst_safe⟩

/-- With the library ending behind the function, its end is read back one byte early. -/
theorem not_roundTrips_fusedLibrary :
    ∃ artifact, write (returnsConst 8) { rootSource := [] } = .ok artifact ∧
      ¬ RoundTrips (returnsConst 8) artifact none := by
  obtain ⟨artifact, written⟩ :=
    exists_write (show (write (returnsConst 8) { rootSource := [] }).toBool =
      true by decide +kernel)
  refine ⟨artifact, written, fun whole => ?_⟩
  have same := shippedPosition_of_roundTrips (returnsConst_clean 8) written
    (sourceMatches_none _) whole
  exact absurd same (by decide)

end Gengo.Gbc
