import Gengo.Gbc.Records

/-!
# The constants loop

The writer's loop over the constants fills the function and the type table; the
reader's loop finds each constant's function and type at the next free index of
those tables. What the reader's loop adds is told by the constants alone.
-/

namespace Gengo.Gbc

open Bytecode Fallible Wire List Except

/-- The function object behind a constant, and the name it is entered under. -/
def funcOf : Constant FuncRef → Option (FuncRef × (FuncObj → Bytes))
  | .function func => some (func, (·.name))
  | .namedType type =>
    match type.predicate with
    | some (.function func) | some (.closure func _) => some (func, fun _ => [])
    | _ => none
  | .taskType type => some (type.behavior, fun _ => type.name)
  | _ => none

/-- The type table entry of a constant whose function gets index `fidx`. -/
def typeOf (fidx : ℕ) : Constant FuncRef → Option TypeEntryInfo
  | .structType type => some (.structT type)
  | .namedType type =>
    some (.namedT type ((funcOf (.namedType type)).map fun _ => fidx))
  | .variantType type => some (.variantT type)
  | .interfaceType type => some (.interfaceT type)
  | .enumType type => some (.enumT type)
  | .taskType type => some (.taskT type fidx)
  | _ => none

/-- The function table entry is the one of this function object under this name. -/
def EntryOf (funcObjs : List FuncObj) (source : FuncRef × (FuncObj → Bytes))
    (entry : FuncEntryInfo) : Prop :=
  ∃ f, funcObjs[source.1]? = some f ∧ entry.f = f ∧ entry.ip = f.ip ∧ entry.name = source.2 f ∧
    entry.nameConstIdx = none

variable {defused : List UInt8} {funcObjs : List FuncObj} {tables tables' : Tables} {func : FuncRef}

theorem registerFunc_eq_ok {name : FuncObj → Bytes} {index : ℕ}
    (registered : registerFunc defused funcObjs tables func name = .ok (tables', index)) :
    index = tables.funcs.length ∧ ∃ entry, EntryOf funcObjs (func, name) entry ∧
      tables' = { tables with funcs := tables.funcs ++ [entry] } := by
  rw [registerFunc] at registered
  split at registered
  case h_1 => cases registered
  case h_2 f found =>
    split at registered
    case isTrue => cases registered
    case isFalse =>
      obtain ⟨length, _, same⟩ := bind_eq_ok.mp registered
      obtain ⟨rfl, rfl⟩ := Prod.mk.inj (ok.inj same)
      exact ⟨rfl, _, ⟨f, found, rfl, rfl, rfl, rfl⟩, rfl⟩

variable {bytes : List UInt8}

theorem writeTypeRef_eq_ok {type : TypeEntryInfo}
    (written : writeTypeRef tables type = .ok (tables', bytes)) :
    u8 ConstTag.typeRef.toByte ++ u32 tables.types.length = .ok bytes ∧
      tables' = { tables with types := tables.types ++ [type] } := by
  obtain ⟨_, bytesOk, same⟩ := bind_eq_ok.mp written
  obtain ⟨rfl, rfl⟩ := Prod.mk.inj (ok.inj same)
  exact ⟨bytesOk, rfl⟩

theorem funcOf_of_predicateFunc {type : NamedType FuncRef} {predicate : Predicate FuncRef}
    (present : type.predicate = some predicate) (isFunc : predicateFunc predicate = .ok func) :
    funcOf (.namedType type) = some (func, fun _ => []) := by
  rw [funcOf, present]
  cases predicate with
  | function => exact ok.inj isFunc ▸ rfl
  | closure =>
    rw [predicateFunc] at isFunc
    split at isFunc
    case isTrue => cases isFunc
    case isFalse => exact ok.inj isFunc ▸ rfl
  | other => cases isFunc

/-- What one constant adds to the tables. -/
structure Enters (funcObjs : List FuncObj) (tables tables' : Tables) (const : Constant FuncRef) :
    Prop where
  funcs : ∃ entries, tables'.funcs = tables.funcs ++ entries ∧
    List.Forall₂ (EntryOf funcObjs) (funcOf const).toList entries
  types : tables'.types = tables.types ++ (typeOf tables.funcs.length const).toList

/-- The bytes of a constant: its tag, and its value or its index in a table. -/
def constBytes (tables : Tables) : Constant FuncRef → Writer WriteError
  | .int value => u8 ConstTag.int.toByte ++ i64 value
  | .float bits => u8 ConstTag.number.toByte ++ f64 bits
  | .rune codepoint => u8 ConstTag.rune.toByte ++ u32 codepoint.val
  | .boolean flag => u8 ConstTag.bool.toByte ++ bool8 flag
  | .null => u8 ConstTag.null.toByte
  | .string bytes => u8 ConstTag.string.toByte ++ str bytes
  | .function _ => u8 ConstTag.funcRef.toByte ++ u32 tables.funcs.length
  | .closure _ _ | .other => .error .unsupportedConstant
  | .structType _ | .namedType _ | .variantType _ | .interfaceType _ | .enumType _
  | .taskType _ => u8 ConstTag.typeRef.toByte ++ u32 tables.types.length

/-- The writer knows the kind of the constant and, of a named type, that of its predicate. -/
def Supported : Constant FuncRef → Prop
  | .closure _ _ | .other => False
  | .namedType type => funcOf (.namedType type) = none ↔ type.predicate = none
  | _ => True

variable {const : Constant FuncRef}

theorem writeConst_eq_ok
    (written : writeConst defused funcObjs tables const = .ok (tables', bytes)) :
    constBytes tables const = .ok bytes ∧ Supported const ∧
      Enters funcObjs tables tables' const := by
  cases const with
  | int | float | rune | boolean | null | string =>
    obtain ⟨_, bytesOk, same⟩ := bind_eq_ok.mp written
    obtain ⟨rfl, rfl⟩ := Prod.mk.inj (ok.inj same)
    exact ⟨bytesOk, trivial, ⟨[], (append_nil _).symm, .nil⟩, (append_nil _).symm⟩
  | structType | variantType | interfaceType | enumType =>
    obtain ⟨bytesOk, rfl⟩ := writeTypeRef_eq_ok written
    exact ⟨bytesOk, trivial, ⟨[], (append_nil _).symm, .nil⟩, rfl⟩
  | function func =>
    obtain ⟨⟨_, _⟩, registered, rest⟩ := bind_eq_ok.mp written
    obtain ⟨rfl, entry, isEntry, rfl⟩ := registerFunc_eq_ok registered
    obtain ⟨_, bytesOk, same⟩ := bind_eq_ok.mp rest
    obtain ⟨rfl, rfl⟩ := Prod.mk.inj (ok.inj same)
    exact ⟨bytesOk, trivial, ⟨[entry], rfl, .cons isEntry .nil⟩, (append_nil _).symm⟩
  | taskType type =>
    obtain ⟨⟨_, _⟩, registered, rest⟩ := bind_eq_ok.mp written
    obtain ⟨rfl, entry, isEntry, rfl⟩ := registerFunc_eq_ok registered
    obtain ⟨bytesOk, rfl⟩ := writeTypeRef_eq_ok rest
    exact ⟨bytesOk, trivial, ⟨[entry], rfl, .cons isEntry .nil⟩, rfl⟩
  | namedType type =>
    simp only [writeConst] at written
    split at written
    case h_1 absent =>
      obtain ⟨bytesOk, rfl⟩ := writeTypeRef_eq_ok written
      refine ⟨bytesOk, ?_, ⟨[], (append_nil _).symm, ?_⟩, ?_⟩
      · rw [Supported, funcOf, absent]
        exact iff_of_true rfl rfl
      · rw [funcOf, absent]
        exact .nil
      · rw [typeOf, funcOf, absent]
        rfl
    case h_2 predicate present =>
      obtain ⟨func, isFunc, rest⟩ := bind_eq_ok.mp written
      obtain ⟨⟨_, _⟩, registered, rest⟩ := bind_eq_ok.mp rest
      obtain ⟨rfl, entry, isEntry, rfl⟩ := registerFunc_eq_ok registered
      obtain ⟨bytesOk, rfl⟩ := writeTypeRef_eq_ok rest
      refine ⟨bytesOk, ?_, ⟨[entry], rfl, ?_⟩, ?_⟩
      · rw [Supported, funcOf_of_predicateFunc present isFunc, present]
        exact iff_of_false nofun nofun
      · rw [funcOf_of_predicateFunc present isFunc]
        exact .cons isEntry .nil
      · rw [typeOf, funcOf_of_predicateFunc present isFunc]
        rfl
  | closure | other => cases written

/-- What the reader does with a constant whose function and type, if it has them, are
the entries `fidx` and `tidx` of the tables. -/
def wireConst (rawFuncs : List RawFuncEntry) (rawTypes : List RawTypeEntry)
    (codeBase fidx tidx : ℕ) (load : Loading) : Constant FuncRef → Except ReadError Loading
  | .rune codepoint =>
    if codepoint.val ≤ 0x10FFFF then load.addConst (.rune codepoint)
    else .error .malformedSection
  | .function _ => load.addFuncConst rawFuncs codeBase fidx .directConst .function
  | .structType _ | .namedType _ | .variantType _ | .interfaceType _ | .enumType _
  | .taskType _ =>
    match rawTypes[tidx]? with
    | none => .error .typeRefOutOfRange
    | some type => load.addTypeRef rawFuncs codeBase type
  | const => load.addConst const

variable {rawFuncs : List RawFuncEntry} {codeBase : ℕ}

theorem const_back {rawTypes : List RawTypeEntry} (tables : Tables) (load : Loading)
    (const : Constant FuncRef) :
    ReadsBack (constBytes tables const) (readConst rawFuncs rawTypes codeBase load)
      (wireConst rawFuncs rawTypes codeBase tables.funcs.length tables.types.length load
        const) := by
  cases const with
  | null => exact (u8_back _).settle rfl
  | int value => exact (u8_back _).andThen ((i64_back value).settle rfl)
  | float bits => exact (u8_back _).andThen ((f64_back bits).settle rfl)
  | boolean flag => exact (u8_back _).andThen ((bool8_back flag).settle rfl)
  | string bytes => exact (u8_back _).andThen ((str_back bytes).settle rfl)
  | function => exact (u8_back _).andThen ((u32_back _).settle rfl)
  | rune codepoint =>
    refine (u8_back _).andThen ((u32_back _).settle ?_)
    rw [wireConst]
    by_cases inRange : codepoint.val ≤ 0x10FFFF
    · rw [dif_pos inRange, if_pos inRange]
    · rw [dif_neg inRange, if_neg inRange]
      rfl
  | structType | namedType | variantType | interfaceType | enumType | taskType =>
    refine (u8_back _).andThen ((u32_back _).settle ?_)
    simp only [wireConst]
    cases rawTypes[tables.types.length]? <;> rfl
  | closure | other => exact .stopped

/-- The function table index in a type table entry. -/
def TypeEntryInfo.funcIdx : TypeEntryInfo → Option ℕ
  | .namedT _ predicateFuncIdx => predicateFuncIdx
  | .taskT _ behaviorFuncIdx => some behaviorFuncIdx
  | _ => none

def RawTypeEntry.funcIdx : RawTypeEntry → Option ℕ
  | .namedT _ predicateFuncIdx => predicateFuncIdx
  | .taskT _ _ behaviorFuncIdx => some behaviorFuncIdx
  | _ => none

/-- Whether the function object of an entry is a task behavior. -/
def TypeEntryInfo.isTask : TypeEntryInfo → Bool
  | .taskT _ _ => true
  | _ => false

def RawTypeEntry.isTask : RawTypeEntry → Bool
  | .taskT _ _ _ => true
  | _ => false

variable {entry : TypeEntryInfo}

/-- What comes back of a type table entry refers to the same function table entry. -/
theorem refs_wireTypeEntry {raw : RawTypeEntry} (wired : wireTypeEntry entry = .ok raw) :
    raw.funcIdx = entry.funcIdx ∧ raw.isTask = entry.isTask := by
  cases entry with
  | structT | interfaceT =>
    obtain ⟨_, _, same⟩ := bind_eq_ok.mp wired
    exact ok.inj same ▸ ⟨rfl, rfl⟩
  | variantT =>
    obtain ⟨_, _, wired⟩ := bind_eq_ok.mp wired
    obtain ⟨_, _, same⟩ := bind_eq_ok.mp wired
    exact ok.inj same ▸ ⟨rfl, rfl⟩
  | namedT =>
    simp only [wireTypeEntry, wireNamedType, bind_eq_ok] at wired
    obtain ⟨_, _, _, _, _, _, _, _, same⟩ := wired
    exact ok.inj same ▸ ⟨rfl, rfl⟩
  | enumT | taskT => exact ok.inj wired ▸ ⟨rfl, rfl⟩

/-- The constant a type table entry becomes, with its function object. -/
def RawTypeEntry.toConstant (func : FuncRef) : RawTypeEntry → Constant FuncRef
  | .structT type => .structType type
  | .variantT type => .variantType type
  | .interfaceT type => .interfaceType type
  | .enumT type => .enumType type
  | .namedT type predicateFuncIdx =>
    .namedType { type with predicate := predicateFuncIdx.map fun _ => .closure func 0 }
  | .taskT name qualifiedName _ => .taskType { name, qualifiedName, behavior := func }

/-- The constant that is loaded for a constant, with its function object and with what
came back of its type. -/
def loadedConst (type : Option RawTypeEntry) (const : Constant FuncRef) (func : FuncRef) :
    Constant FuncRef :=
  match const with
  | .function _ => .function func
  | .structType _ | .namedType _ | .variantType _ | .interfaceType _ | .enumType _
  | .taskType _ => (type.map (·.toConstant func)).getD .other
  | const => const

/-- Where the function object of a constant is found again. -/
def targetOf (const : Constant FuncRef) (index : ℕ) : FuncNamePatchTarget :=
  match const with
  | .function _ => .directConst index
  | .taskType _ => .taskBehaviorConst index
  | _ => .predicateConst index

variable {fidx : ℕ}

theorem refs_typeOf (isType : typeOf fidx const = some entry) :
    entry.funcIdx = (funcOf const).map (fun _ => fidx) ∧
      targetOf const = if entry.isTask then .taskBehaviorConst else .predicateConst := by
  cases const <;> cases isType <;> exact ⟨rfl, rfl⟩

/-- A rune is a code point. -/
def codepointOk : Constant FuncRef → Bool
  | .rune codepoint => codepoint.val ≤ 0x10FFFF
  | _ => true

/-- Add a constant, with a function object if it has one. -/
def Loading.addEntry (load : Loading) (rawFuncs : List RawFuncEntry) (codeBase : ℕ)
    (fidx : Option ℕ) (target : ℕ → FuncNamePatchTarget) (const : FuncRef → Constant FuncRef) :
    Except ReadError Loading :=
  match fidx with
  | none => load.addConst (const load.state.funcs.length)
  | some fidx => load.addFuncConst rawFuncs codeBase fidx target const

theorem addTypeRef_eq (load : Loading) (rawFuncs : List RawFuncEntry) (codeBase : ℕ)
    (raw : RawTypeEntry) :
    load.addTypeRef rawFuncs codeBase raw =
      load.addEntry rawFuncs codeBase raw.funcIdx
        (if raw.isTask then .taskBehaviorConst else .predicateConst) (raw.toConstant ·) := by
  cases raw with
  | namedT type predicateFuncIdx => cases predicateFuncIdx <;> rfl
  | structT | variantT | interfaceT | enumT | taskT => rfl

theorem addTypeRef_typeOf (load : Loading) (rawFuncs : List RawFuncEntry) (codeBase : ℕ)
    {raw : RawTypeEntry} (isType : typeOf fidx const = some entry)
    (wires : wireTypeEntry entry = .ok raw) :
    load.addTypeRef rawFuncs codeBase raw =
      load.addEntry rawFuncs codeBase ((funcOf const).map fun _ => fidx) (targetOf const)
        (raw.toConstant ·) := by
  obtain ⟨sameIdx, sameTask⟩ := refs_wireTypeEntry wires
  obtain ⟨entryIdx, target⟩ := refs_typeOf isType
  rw [addTypeRef_eq, sameIdx, sameTask, entryIdx, target]

variable {load : Loading}

theorem wireConst_eq {before types : List RawTypeEntry} (supported : Supported const)
    (wired : ∀ entry, typeOf fidx const = some entry → ∃ raw, types.head? = some raw ∧
      wireTypeEntry entry = .ok raw) :
    wireConst rawFuncs (before ++ types) codeBase fidx before.length load const =
      if codepointOk const then
        load.addEntry rawFuncs codeBase ((funcOf const).map fun _ => fidx) (targetOf const)
          (loadedConst types.head? const)
      else .error .malformedSection := by
  cases isType : typeOf fidx const with
  | none =>
    cases const with
    | int | float | boolean | null | string | function => rfl
    | rune codepoint =>
      simp only [wireConst, codepointOk, decide_eq_true_eq]
      rfl
    | closure | other => cases supported
    | structType | namedType | variantType | interfaceType | enumType | taskType =>
      cases isType
  | some entry =>
    obtain ⟨raw, first, wires⟩ := wired entry isType
    obtain ⟨others, rfl⟩ := List.head?_eq_some_iff.mp first
    have found : (before ++ raw :: others)[before.length]? = some raw := by simp
    have added := addTypeRef_typeOf load rawFuncs codeBase isType wires
    cases const with
    | int | float | boolean | null | string | function | rune | closure | other => cases isType
    | structType | namedType | variantType | interfaceType | enumType | taskType =>
      simp only [wireConst, found]
      exact added

theorem internStr_eq_ok {state state' : State} {s : Bytes} :
    State.internStr state s = .ok state' ↔
      (s.length ≤ 32 ∧ s ∈ state.strSlices ∨ state.strSlices.length < MaxStrSlices) ∧
        state' = { state with strSlices := internInto state.strSlices s } := by
  rw [State.internStr, internInto]
  split
  case isTrue listed =>
    rw [and_iff_right (Or.inl listed), ok.injEq]
    exact eq_comm
  case isFalse unlisted =>
    rw [or_iff_right unlisted]
    split
    case isTrue full =>
      constructor
      · intro failed
        cases failed
      · intro served
        exact absurd full (Nat.not_le.mpr served.1)
    case isFalse room =>
      rw [and_iff_right (Nat.not_le.mp room), ok.injEq]
      exact eq_comm

theorem internAll_eq_ok {state state' : State} {strings : List Bytes} :
    State.internAll state strings = .ok state' ↔ HasSlices state.strSlices strings ∧
      state' = { state with strSlices := strings.foldl internInto state.strSlices } := by
  induction strings generalizing state with
  | nil => exact ⟨fun same => ⟨trivial, (ok.inj same).symm⟩, fun same => congrArg _ same.2.symm⟩
  | cons s rest ih =>
    rw [State.internAll, bind_eq_ok, HasSlices, List.foldl_cons]
    simp only [internStr_eq_ok, ih]
    constructor
    · rintro ⟨_, ⟨own, rfl⟩, others, same⟩
      exact ⟨⟨own, others⟩, same⟩
    · rintro ⟨⟨own, others⟩, same⟩
      exact ⟨_, ⟨own, rfl⟩, others, same⟩

/-- The chunk with more constants and function objects. -/
def State.extend (state : State) (consts : List (Constant FuncRef)) (funcs : List FuncObj)
    (room : state.consts.length + consts.length ≤ MaxConst) : State :=
  { state with
    consts := state.consts ++ consts
    strSlices := (consts.flatMap constStrings).foldl internInto state.strSlices
    funcs := state.funcs ++ funcs
    constCount_le := by rwa [List.length_append] }

/-- The function object that is loaded for a function table entry. -/
def RawFuncEntry.loaded (codeBase : ℕ) (raw : RawFuncEntry) : FuncObj :=
  { raw.f with ip := codeBase + raw.f.ip }

/-- How many entries a constant has in the function and in the type table. -/
def funcCount (const : Constant FuncRef) : ℕ :=
  (funcOf const).toList.length

def typeCount (const : Constant FuncRef) : ℕ :=
  (typeOf 0 const).toList.length

theorem length_typeOf (fidx : ℕ) (const : Constant FuncRef) :
    (typeOf fidx const).toList.length = typeCount const := by
  cases const <;> rfl

/-- The types of the constants, when the first function gets index `fidx`. -/
def typesFrom (fidx : ℕ) : List (Constant FuncRef) → List TypeEntryInfo
  | [] => []
  | const :: consts => (typeOf fidx const).toList ++ typesFrom (fidx + funcCount const) consts

/-- The constants that are loaded, when the first function object is `func`. -/
def loadedFrom (func : FuncRef) : List RawTypeEntry → List (Constant FuncRef) →
    List (Constant FuncRef)
  | _, [] => []
  | types, const :: consts =>
    loadedConst types.head? const func ::
      loadedFrom (func + funcCount const) (types.drop (typeCount const)) consts

@[simp]
theorem length_loadedFrom (func : FuncRef) (types : List RawTypeEntry)
    (consts : List (Constant FuncRef)) : (loadedFrom func types consts).length = consts.length := by
  induction consts generalizing func types with
  | nil => rfl
  | cons const consts ih =>
    exact congrArg Nat.succ (ih _ _)

variable {consts : List (Constant FuncRef)}

theorem loadedFrom_cons {own others : List RawTypeEntry} (length : own.length = typeCount const) :
    loadedFrom func (own ++ others) (const :: consts) =
      [loadedConst (own ++ others).head? const func] ++
        loadedFrom (func + funcCount const) others consts := by
  rw [loadedFrom, drop_left' length]
  rfl

/-- Where the function objects are found again, when the first constant gets `index`. -/
def targetsFrom (index : ℕ) : List (Constant FuncRef) → List FuncNamePatchTarget
  | [] => []
  | const :: consts =>
    (funcOf const).toList.map (fun _ => targetOf const index) ++ targetsFrom (index + 1) consts

def wireConsts (rawFuncs : List RawFuncEntry) (rawTypes : List RawTypeEntry) (codeBase : ℕ)
    (fidx tidx : ℕ) (load : Loading) : List (Constant FuncRef) → Except ReadError Loading
  | [] => .ok load
  | const :: consts => do
    let load ← wireConst rawFuncs rawTypes codeBase fidx tidx load const
    wireConsts rawFuncs rawTypes codeBase (fidx + funcCount const) (tidx + typeCount const)
      load consts

/-- The constants loop of the writer fills the tables from the constants alone, and its
bytes are read back constant by constant. -/
theorem writeConsts_eq_ok
    (written : writeConsts defused funcObjs tables consts = .ok (tables', bytes)) :
    (∃ entries, tables'.funcs = tables.funcs ++ entries ∧
      List.Forall₂ (EntryOf funcObjs) (consts.filterMap funcOf) entries) ∧
    tables'.types = tables.types ++ typesFrom tables.funcs.length consts ∧
    (∀ const ∈ consts, Supported const) ∧
    ∀ (rawFuncs : List RawFuncEntry) (rawTypes : List RawTypeEntry) (codeBase : ℕ)
      (load : Loading) (rest : List UInt8),
      readConsts rawFuncs rawTypes codeBase consts.length load (bytes ++ rest) =
        (wireConsts rawFuncs rawTypes codeBase tables.funcs.length tables.types.length load
          consts).map (·, rest) := by
  induction consts generalizing tables bytes with
  | nil =>
    obtain ⟨rfl, rfl⟩ := Prod.mk.inj (ok.inj written)
    exact ⟨⟨[], (append_nil _).symm, .nil⟩, (append_nil _).symm,
      forall_mem_nil _, fun _ _ _ _ _ => rfl⟩
  | cons const consts ih =>
    obtain ⟨⟨between, front⟩, first, written⟩ := bind_eq_ok.mp written
    obtain ⟨⟨_, back⟩, others, same⟩ := bind_eq_ok.mp written
    obtain ⟨rfl, rfl⟩ := Prod.mk.inj (ok.inj same)
    obtain ⟨bytesOk, isSupported, ⟨entry, funcs, isEntry⟩, types⟩ := writeConst_eq_ok first
    obtain ⟨⟨entries, otherFuncs, areEntries⟩, otherTypes, supported, otherBack⟩ :=
      ih others
    have funcsLength : between.funcs.length = tables.funcs.length + funcCount const := by
      rw [funcs, length_append, ← isEntry.length_eq, funcCount]
    have typesLength : between.types.length = tables.types.length + typeCount const := by
      rw [types, length_append, length_typeOf]
    refine ⟨⟨entry ++ entries, ?_, ?_⟩, ?_, ?_, ?_⟩
    · rw [otherFuncs, funcs, List.append_assoc]
    · have split : (const :: consts).filterMap funcOf =
          (funcOf const).toList ++ consts.filterMap funcOf := by
        cases isFunc : funcOf const <;> simp [isFunc]
      rw [split]
      exact rel_append isEntry areEntries
    · rw [otherTypes, types, List.append_assoc, funcsLength]
      rfl
    · exact forall_mem_cons.mpr ⟨isSupported, supported⟩
    · intro rawFuncs rawTypes codeBase load rest
      have firstBack : readConst rawFuncs rawTypes codeBase load (front ++ (back ++ rest)) = _ :=
        const_back tables load const front bytesOk (back ++ rest)
      have taken : readConsts rawFuncs rawTypes codeBase (consts.length + 1) load
            (front ++ (back ++ rest)) =
          (readConst rawFuncs rawTypes codeBase load (front ++ (back ++ rest))).bind fun item =>
            readConsts rawFuncs rawTypes codeBase consts.length item.1 item.2 :=
        rfl
      rw [length_cons, List.append_assoc, taken, firstBack]
      simp only [wireConsts]
      cases wireConst rawFuncs rawTypes codeBase tables.funcs.length tables.types.length load
          const with
      | error error => rfl
      | ok load =>
        refine (otherBack rawFuncs rawTypes codeBase load rest).trans ?_
        rw [funcsLength, typesLength]
        rfl

theorem State.extend_extend {state : State} {others : List (Constant FuncRef)}
    {funcs otherFuncs : List FuncObj} (room) (more) :
    State.extend (State.extend state consts funcs room) others otherFuncs more =
      State.extend state (consts ++ others) (funcs ++ otherFuncs)
        (by rw [List.length_append, ← Nat.add_assoc, ← List.length_append]; exact more) := by
  simp only [State.extend, List.append_assoc, flatMap_append, foldl_append]

variable {load' : Loading}

theorem addConst_eq_ok :
    load.addConst const = .ok load' ↔ HasSlices load.state.strSlices (constStrings const) ∧
      ∃ room, load' = { load with state := State.extend load.state [const] [] room } := by
  rw [Loading.addConst, bind_eq_ok]
  simp only [internAll_eq_ok, bind_eq_ok, State.addConst]
  constructor
  · rintro ⟨_, ⟨interns, rfl⟩, ⟨_, _⟩, added, same⟩
    split at added
    case isFalse => cases added
    case isTrue room =>
      obtain ⟨rfl, rfl⟩ := Prod.mk.inj (ok.inj added)
      refine ⟨interns, room, (ok.inj same).symm.trans ?_⟩
      simp only [State.extend, append_nil, flatMap_cons, flatMap_nil]
  · rintro ⟨interns, room, rfl⟩
    refine ⟨_, ⟨interns, rfl⟩, _, dif_pos room, ?_⟩
    simp only [State.extend, append_nil, flatMap_cons, flatMap_nil]
    rfl

theorem addFuncConst_eq_ok {raw : RawFuncEntry} {target : ℕ → FuncNamePatchTarget}
    {const : FuncRef → Constant FuncRef} (found : rawFuncs[fidx]? = some raw)
    (plain : ∀ func, constStrings (const func) = []) :
    load.addFuncConst rawFuncs codeBase fidx target const = .ok load' ↔
      ∃ room, load' = {
        state := State.extend load.state [const load.state.funcs.length] [raw.loaded codeBase] room
        funcPatch := load.funcPatch.set fidx (some (target load.state.consts.length)) } := by
  simp only [Loading.addFuncConst, found, bind_eq_ok, State.addConst, State.extend, flatMap_cons,
    flatMap_nil, append_nil, plain, foldl_nil]
  constructor
  · rintro ⟨⟨_, _⟩, added, same⟩
    split at added
    case isFalse => cases added
    case isTrue room =>
      obtain ⟨rfl, rfl⟩ := Prod.mk.inj (ok.inj added)
      exact ⟨room, (ok.inj same).symm⟩
  · rintro ⟨room, rfl⟩
    exact ⟨_, dif_pos room, rfl⟩

theorem addEntry_eq_ok {before own others : List RawFuncEntry} {target : ℕ → FuncNamePatchTarget}
    {loaded : FuncRef → Constant FuncRef} {patched : List (Option FuncNamePatchTarget)}
    (count : own.length = funcCount const)
    (patch : load.funcPatch = patched ++ List.replicate (own ++ others).length none)
    (length : patched.length = before.length)
    (plain : funcOf const ≠ none → ∀ func, constStrings (loaded func) = []) :
    load.addEntry (before ++ (own ++ others)) codeBase ((funcOf const).map fun _ => before.length)
        target loaded = .ok load' ↔
      HasSlices load.state.strSlices (constStrings (loaded load.state.funcs.length)) ∧
      ∃ room, load' = {
        state := State.extend load.state [loaded load.state.funcs.length]
          (own.map (·.loaded codeBase)) room
        funcPatch := patched ++ (funcOf const).toList.map
            (fun _ => some (target load.state.consts.length)) ++
          List.replicate others.length none } := by
  cases isFunc : funcOf const with
  | none =>
    rw [funcCount, isFunc] at count
    obtain rfl := eq_nil_of_length_eq_zero count
    rw [nil_append] at patch
    simp only [Option.map_none, Loading.addEntry, addConst_eq_ok, Option.toList_none,
      map_nil, append_nil, ← patch]
  | some source =>
    rw [funcCount, isFunc] at count
    obtain ⟨raw, rfl⟩ := length_eq_one_iff.mp count
    have found : (before ++ ([raw] ++ others))[before.length]? = some raw := by simp
    have patched : load.funcPatch.set before.length (some (target load.state.consts.length)) =
        patched ++ [some (target load.state.consts.length)] ++
          List.replicate others.length none := by
      rw [patch, ← length, set_append_right _ _ le_rfl, Nat.sub_self, length_append,
        length_singleton, Nat.add_comm, replicate_succ, set_cons_zero, List.append_assoc]
      rfl
    rw [isFunc] at plain
    have plain := plain (Option.some_ne_none source)
    simp only [Option.map_some, Loading.addEntry, addFuncConst_eq_ok found plain, patched,
      Option.toList_some, map_cons, map_nil, plain, HasSlices, true_and]

theorem split_typesFrom {types : List RawTypeEntry}
    (wired : List.Forall₂ (fun entry raw => wireTypeEntry entry = .ok raw)
      (typesFrom fidx (const :: consts)) types) :
    ∃ own others, types = own ++ others ∧
      List.Forall₂ (fun entry raw => wireTypeEntry entry = .ok raw) (typeOf fidx const).toList own ∧
      List.Forall₂ (fun entry raw => wireTypeEntry entry = .ok raw)
        (typesFrom (fidx + funcCount const) consts) others := by
  have own := List.forall₂_take (typeCount const) wired
  have others := List.forall₂_drop (typeCount const) wired
  rw [typesFrom, take_left' (length_typeOf _ const)] at own
  rw [typesFrom, drop_left' (length_typeOf _ const)] at others
  exact ⟨_, _, (take_append_drop _ types).symm, own, others⟩

theorem constStrings_loadedConst (type : Option RawTypeEntry) (const : Constant FuncRef)
    (func : FuncRef) : constStrings (loadedConst type const func) = constStrings const := by
  have plain : ∀ raw : RawTypeEntry, constStrings (raw.toConstant func) = [] := by
    intro raw
    cases raw <;> rfl
  cases const with
  | int | float | rune | boolean | null | string | function | closure | other => rfl
  | structType | namedType | variantType | interfaceType | enumType | taskType =>
    cases type with
    | none => rfl
    | some raw => exact plain raw

theorem constStrings_of_funcOf (isFunc : funcOf const ≠ none) : constStrings const = [] := by
  cases const with
  | string => exact absurd rfl isFunc
  | _ => rfl

/-- The reader's loop succeeds when every rune is a code point and the pool and the table of
strings have room, and then it appends the loaded constants with their function objects. -/
theorem wireConsts_eq_ok {before funcs : List RawFuncEntry} {beforeTypes types : List RawTypeEntry}
    {codeBase : ℕ} {load load' : Loading} {patched : List (Option FuncNamePatchTarget)}
    {consts : List (Constant FuncRef)}
    (supported : ∀ const ∈ consts, Supported const)
    (wired : List.Forall₂ (fun entry raw => wireTypeEntry entry = .ok raw)
      (typesFrom before.length consts) types)
    (count : funcs.length = (consts.map funcCount).sum)
    (patch : load.funcPatch = patched ++ List.replicate funcs.length none)
    (length : patched.length = before.length) :
    wireConsts (before ++ funcs) (beforeTypes ++ types) codeBase before.length beforeTypes.length
        load consts = .ok load' ↔
      (∀ const ∈ consts, codepointOk const = true) ∧
      HasSlices load.state.strSlices (consts.flatMap constStrings) ∧ ∃ room, load' = {
        state := State.extend load.state (loadedFrom load.state.funcs.length types consts)
          (funcs.map (·.loaded codeBase)) room
        funcPatch := patched ++ (targetsFrom load.state.consts.length consts).map some } := by
  induction consts generalizing before funcs beforeTypes types load patched with
  | nil =>
    obtain rfl := eq_nil_of_length_eq_zero count
    rw [length_nil, replicate_zero, append_nil] at patch
    have same (room) : State.extend load.state [] [] room = load.state := by
      simp only [State.extend, append_nil, flatMap_nil, foldl_nil]
    simp only [wireConsts, loadedFrom, targetsFrom, map_nil, append_nil, same, ← patch, ok.injEq]
    exact ⟨fun same => ⟨forall_mem_nil _, trivial, load.state.constCount_le, same.symm⟩,
      fun ⟨_, _, _, same⟩ => same.symm⟩
  | cons const consts ih =>
    rw [map_cons, sum_cons] at count
    obtain ⟨own, others, rfl, ownCount, otherCount⟩ :
        ∃ own others, funcs = own ++ others ∧ own.length = funcCount const ∧
          others.length = (consts.map funcCount).sum :=
      ⟨_, _, (take_append_drop (funcCount const) funcs).symm,
        by rw [length_take]; omega, by rw [length_drop]; omega⟩
    obtain ⟨ownTypes, otherTypes, rfl, ownWired, otherWired⟩ := split_typesFrom wired
    have typesLength : ownTypes.length = typeCount const :=
      ownWired.length_eq.symm.trans (length_typeOf _ const)
    have first : ∀ entry, typeOf before.length const = some entry →
        ∃ raw, (ownTypes ++ otherTypes).head? = some raw ∧ wireTypeEntry entry = .ok raw := by
      intro entry isType
      rw [isType] at ownWired
      obtain ⟨raw, _, wires, _, rfl⟩ := List.forall₂_cons_left_iff.mp ownWired
      exact ⟨raw, rfl, wires⟩
    obtain ⟨isSupported, supported⟩ := forall_mem_cons.mp supported
    rw [wireConsts, bind_eq_ok, wireConst_eq isSupported first, forall_mem_cons]
    by_cases isCodepoint : codepointOk const = true
    case neg =>
      rw [if_neg isCodepoint]
      exact ⟨fun ⟨_, wrong, _⟩ => (nomatch wrong), fun ⟨⟨wrong, _⟩, _⟩ => absurd wrong isCodepoint⟩
    rw [if_pos isCodepoint]
    have step (room) := @ih (before ++ own) others (beforeTypes ++ ownTypes)
      otherTypes {
        state := State.extend load.state
          [loadedConst (ownTypes ++ otherTypes).head? const load.state.funcs.length]
          (own.map (·.loaded codeBase)) room
        funcPatch := patched ++ (funcOf const).toList.map
            (fun _ => some (targetOf const load.state.consts.length)) ++
          List.replicate others.length none } _
      supported (by rw [length_append, ownCount]; exact otherWired) otherCount rfl
      (by rw [length_append, length_append, ownCount, length, length_map]; rfl)
    have loaded := @loadedFrom_cons load.state.funcs.length const consts _ otherTypes typesLength
    have targets : (targetsFrom load.state.consts.length (const :: consts)).map some =
        (funcOf const).toList.map (fun _ => some (targetOf const load.state.consts.length)) ++
          (targetsFrom (load.state.consts.length + 1) consts).map some := by
      rw [targetsFrom, map_append, map_map]
      rfl
    have objects (room) : (State.extend load.state
          [loadedConst (ownTypes ++ otherTypes).head? const load.state.funcs.length]
          (own.map (·.loaded codeBase)) room).funcs.length =
        load.state.funcs.length + funcCount const := by
      rw [State.extend, length_append, length_map, ownCount]
    have pool (room) : (State.extend load.state
          [loadedConst (ownTypes ++ otherTypes).head? const load.state.funcs.length]
          (own.map (·.loaded codeBase)) room).consts.length =
        load.state.consts.length + 1 := by
      rw [State.extend, length_append, length_singleton]
    simp only [objects, pool, State.extend_extend, length_append, ownCount, typesLength,
      List.append_assoc, ← map_append, ← loaded, ← targets] at step
    have entry (load' : Loading) := @addEntry_eq_ok const codeBase load load' before own others
      (targetOf const) (loadedConst (ownTypes ++ otherTypes).head? const) patched ownCount patch
      length fun isFunc func => by rw [constStrings_loadedConst, constStrings_of_funcOf isFunc]
    have strings (room) : (State.extend load.state
          [loadedConst (ownTypes ++ otherTypes).head? const load.state.funcs.length]
          (own.map (·.loaded codeBase)) room).strSlices =
        (constStrings const).foldl internInto load.state.strSlices := by
      rw [State.extend, flatMap_cons, flatMap_nil, append_nil, constStrings_loadedConst]
    simp only [strings] at step
    simp only [constStrings_loadedConst] at entry
    rw [flatMap_cons, hasSlices_append]
    constructor
    · rintro ⟨between, added, rest⟩
      obtain ⟨ownRoom, room, rfl⟩ := (entry _).mp added
      obtain ⟨codepoints, otherRoom, more, rfl⟩ := (step room).mp
        (by simpa only [List.append_assoc] using rest)
      exact ⟨⟨isCodepoint, codepoints⟩, ⟨ownRoom, otherRoom⟩, _, rfl⟩
    · rintro ⟨⟨_, codepoints⟩, ⟨ownRoom, otherRoom⟩, room, rfl⟩
      rw [length_loadedFrom, length_cons] at room
      have first : load.state.consts.length + 1 ≤ MaxConst := by omega
      have more : load.state.consts.length + 1 + (loadedFrom
          (load.state.funcs.length + funcCount const) otherTypes consts).length ≤ MaxConst := by
        rw [length_loadedFrom]
        omega
      refine ⟨_, (entry _).mpr ⟨ownRoom, first, rfl⟩, ?_⟩
      simpa only [List.append_assoc] using (step first).mpr ⟨codepoints, otherRoom, more, rfl⟩

end Gengo.Gbc
