import Gengo.Gbc.Constants

/-!
# Finding the sections again

The reader accepts the header and the section table of a written artifact, and
finds every section with the bytes the writer put into it.
-/

namespace Gengo.Gbc

open Bytecode Fallible Wire Option Except Nat

/-- The header as it comes back. -/
def wireHeader (opts : WriteOptions) (sourceHash : Bytes) (body : List UInt8) : Header where
  headerSize := headerSize
  flags := opts.flags.toNat
  targetId := opts.targetId.toNat
  backendId := opts.backendId.toNat
  sourceHash
  vmFingerprint := placeholderVmFingerprint
  moduleProviderHash := placeholderVmFingerprint
  optionsHash := optionsHash opts.targetId.toNat opts.backendId.toNat opts.flags.toNat
  bodyLength := body.length
  bodyChecksum := (xxHash64 0 body).toNat

theorem hash32_back {bytes : Bytes} (length : bytes.length = 32) :
    ReadsBack (.raw bytes : Writer WriteError) readHash32 (.ok bytes) := by
  have back := ReadsBack.raw (ε := WriteError) bytes ReadError.truncatedBody
  rwa [length] at back

theorem length_sourceGraphHash {source hash : Bytes} (found : sourceGraphHash source = some hash) :
    hash.length = 32 := by
  simp only [sourceGraphHash, bind_eq_bind, bind_eq_some_iff] at found
  obtain ⟨_, _, _, _, found⟩ := found
  obtain rfl := some.inj found
  exact length_sha256 _

theorem header_back {opts : WriteOptions} {sourceHash : Bytes} (body : List UInt8)
    (source : sourceGraphHash opts.rootSource = some sourceHash) :
    ReadsBack (writeHeader opts body) readHeader (.ok (wireHeader opts sourceHash body)) := by
  rw [writeHeader, source]
  refine (ReadsBack.raw magic _).andThen (.ensured rfl ?_)
  refine (u16_back _).andThen (.ensured rfl ?_)
  refine (u16_back _).andThen (.ensured rfl ?_)
  refine (u16_back _).andThen (.ensured rfl ?_)
  refine (u16_back _).andThen ((u16_back _).andThen ((u16_back _).andThen ?_))
  refine (u32_back _).andThen ((u32_back _).andThen ((u32_back _).andThen ?_))
  refine (u16_back _).andThen ((ReadsBack.raw (List.replicate 6 0) _).andThen (.ensured rfl ?_))
  refine (u64_back _).andThen ((hash32_back (length_sourceGraphHash source)).andThen ?_)
  refine (hash32_back (length_sha256 _)).andThen ((hash32_back (length_sha256 _)).andThen ?_)
  refine (hash32_back (length_sha256 _)).andThen ((u64_back _).andThen ?_)
  exact (u64_back _).finish rfl

theorem header_sized (opts : WriteOptions) (body : List UInt8) :
    Sized (writeHeader opts body) (8 + headerSize) := by
  rw [writeHeader]
  cases source : sourceGraphHash opts.rootSource with
  | none => exact fun _ written => nomatch written
  | some sourceHash =>
    have two (value : ℕ) : Sized (u16 value) 2 := .le _ 2 value
    have four (value : ℕ) : Sized (u32 value) 4 := .le _ 4 value
    have eight (value : ℕ) : Sized (u64 value) 8 := .le _ 8 value
    have hash {bytes : Bytes} (length : bytes.length = 32) :
        Sized (.raw bytes : Writer WriteError) 32 := .raw length
    exact .append (.raw rfl) (.append (two _) (.append (two _) (.append (two _) (.append (two _)
      (.append (two _) (.append (two _) (.append (four _) (.append (four _) (.append (four _)
        (.append (two _) (.append (.raw rfl) (.append (eight _)
          (.append (hash (length_sourceGraphHash source))
            (.append (hash (length_sha256 _)) (.append (hash (length_sha256 _))
              (.append (hash (length_sha256 _)) (.append (eight _) (eight _))))))))))))))))))

/-- The table entries of sections that lie behind `offset`. -/
def entriesFrom (offset : ℕ) : List Section → List SectionEntry
  | [] => []
  | sec :: sections =>
    { id := sec.id, offset, length := sec.data.length } ::
      entriesFrom (offset + sec.data.length) sections

theorem sectionTable_sized (offset : ℕ) (sections : List Section) :
    Sized (writeSectionTable offset sections) (24 * sections.length) := by
  induction sections generalizing offset with
  | nil => exact .raw rfl
  | cons sec sections ih =>
    have entry : Sized (u32 sec.id ++ (u32 (if sec.required then sectionFlagRequired else 0) ++
        (u64 offset ++ u64 sec.data.length))) (4 + (4 + (8 + 8))) :=
      .append (.le _ 4 _) (.append (.le _ 4 _) (.append (.le _ 8 _) (.le _ 8 _)))
    have whole := entry.append (ih (offset + sec.data.length))
    rwa [List.length_cons, mul_succ, add_comm]

theorem sectionTable_back {offset bodyLength : ℕ} {sections : List Section}
    (inside : offset + (sections.flatMap (·.data)).length ≤ bodyLength) :
    ReadsBack (writeSectionTable offset sections)
      (Reader.times sections.length (readSectionEntry bodyLength))
      (.ok (entriesFrom offset sections)) := by
  induction sections generalizing offset with
  | nil => exact .value (.ok [])
  | cons sec sections ih =>
    rw [List.flatMap_cons, List.length_append] at inside
    have entry : ReadsBack (u32 sec.id ++ (u32 (if sec.required then sectionFlagRequired else 0) ++
        (u64 offset ++ u64 sec.data.length))) (readSectionEntry bodyLength)
        (.ok { id := sec.id, offset, length := sec.data.length }) := by
      refine (u32_back _).andThen ((u32_back _).andThen ((u64_back _).andThen ?_))
      refine (u64_back _).finish ?_
      have start : decide (offset ≤ bodyLength) = true := by
        rw [decide_eq_true_eq]
        omega
      have stop : decide (sec.data.length ≤ bodyLength - offset) = true := by
        rw [decide_eq_true_eq]
        omega
      rw [start, stop]
      rfl
    exact entry.andThen ((ih (by omega)).finish rfl)

/-- A section with an id of its own is found at its place behind `before`. -/
theorem find_entriesFrom {before : List UInt8} {sections : List Section} {sec : Section}
    (distinct : (sections.map (·.id)).Nodup) (member : sec ∈ sections) :
    (findSection (entriesFrom before.length sections) sec.id).map
        (fun entry => ((before ++ sections.flatMap (·.data)).drop entry.offset).take entry.length) =
      some sec.data := by
  induction sections generalizing before with
  | nil => cases member
  | cons head sections ih =>
    rw [List.map_cons, List.nodup_cons] at distinct
    rw [entriesFrom, findSection, List.find?_cons, List.flatMap_cons]
    cases member with
    | head =>
      rw [beq_self_eq_true]
      simp
    | tail _ member =>
      have other : (head.id == sec.id) = false := by
        rw [beq_eq_false_iff_ne]
        exact fun same => distinct.1 (List.mem_map.mpr ⟨sec, member, same.symm⟩)
      have found := @ih (before ++ head.data) distinct.2 member
      rw [List.length_append, List.append_assoc] at found
      rw [other]
      exact found

/-- The body is its section table and then the sections, and the table comes back. -/
theorem body_back {sections : List Section} {body : List UInt8} (few : sections.length ≤ 64)
    (written : writeBody sections = .ok body) :
    (∃ table : List UInt8, table.length = 4 + 24 * sections.length ∧
      body = table ++ sections.flatMap (·.data)) ∧
    readSectionTable body.length body =
      .ok (entriesFrom (4 + 24 * sections.length) sections, sections.flatMap (·.data)) := by
  rw [writeBody, ← append_assoc] at written
  obtain ⟨table, data, tableOk, dataOk, rfl⟩ := append_eq_ok.mp written
  obtain rfl := ok.inj dataOk
  have size : table.length = 4 + 24 * sections.length :=
    Sized.append (.le _ 4 _) (sectionTable_sized _ sections) table tableOk
  have back : ReadsBack
      (u32 sections.length ++ writeSectionTable (4 + 24 * sections.length) sections)
      (readSectionTable (table ++ sections.flatMap (·.data)).length)
      (.ok (entriesFrom (4 + 24 * sections.length) sections)) :=
    (u32_back sections.length).andThen (.ensured (decide_eq_true few)
      (sectionTable_back (by rw [List.length_append, size])))
  exact ⟨⟨table, size, rfl⟩, back table tableOk _⟩

/-- What went into the sections of a written chunk. -/
structure Parts where
  defused : List UInt8
  cs : State
  tables : Tables
  constBytes : List UInt8
  constCount : List UInt8
  extraBytes : List UInt8
  functions : List UInt8
  nativeImports : List UInt8
  exports : List UInt8
  types : List UInt8
  dependencies : List UInt8
  stdScript : List UInt8

namespace Parts

variable (parts : Parts)

/-- The function table with its names. -/
def funcs : List FuncEntryInfo :=
  (assignNames parts.cs.consts parts.tables.funcs []).1

/-- The function names that were no constants. -/
def extra : List Bytes :=
  (assignNames parts.cs.consts parts.tables.funcs []).2

def sections : List Section :=
  [{ id := secBytecode, data := parts.defused },
    { id := secConstants, data := parts.constCount ++ (parts.constBytes ++ parts.extraBytes) },
    { id := secFunctions, data := parts.functions },
    { id := secNativeImports, data := parts.nativeImports },
    { id := secExports, data := parts.exports },
    { id := secTypes, data := parts.types },
    { id := secDependencyTable, data := parts.dependencies },
    { id := secStdScriptInfo, data := parts.stdScript, required := false }]

theorem length_sections : parts.sections.length = 8 :=
  rfl

theorem nodup_ids : (parts.sections.map (·.id)).Nodup :=
  show [secBytecode, secConstants, secFunctions, secNativeImports, secExports, secTypes,
    secDependencyTable, secStdScriptInfo].Nodup by decide

/-- The parts are those of this chunk. -/
structure Of (parts : Parts) (state : State) : Prop where
  defused : Defuse.buildDefusedCode state = .ok (parts.defused, parts.cs)
  consts : writeConsts parts.defused parts.cs.funcs {} parts.cs.consts =
    .ok (parts.tables, parts.constBytes)
  extra : Writer.all (fun name => u8 ConstTag.string.toByte ++ str name) parts.extra =
    .ok parts.extraBytes
  functions : writeFunctionsSection parts.cs.consts parts.funcs = .ok parts.functions
  types : writeTypesSection parts.tables.types = .ok parts.types
  stdScript : u16 parts.cs.stdScriptConstBase.toNat ++ (u16 parts.cs.stdScriptConstCount.toNat ++
    u32 parts.cs.stdScriptCodeEnd) = .ok parts.stdScript
  constCount : u32 (parts.cs.consts.length + parts.extra.length) = .ok parts.constCount

end Parts

theorem exists_parts {state : State} {opts : WriteOptions} {sections : List Section}
    (written : writeSections state opts = .ok sections) :
    ∃ parts : Parts, parts.Of state ∧ sections = parts.sections := by
  simp only [writeSections, bind_eq_ok, mapError_eq_ok] at written
  obtain ⟨⟨defused, cs⟩, defusedOk, ⟨tables, constBytes⟩, constsOk, extraBytes, extraOk,
    functions, functionsOk, types, typesOk, nativeImports, _, exports, _, dependencies, _,
    written⟩ := written
  split at written
  case isTrue => cases written
  case isFalse =>
    obtain ⟨stdScript, stdScriptOk, written⟩ := bind_eq_ok.mp written
    obtain ⟨constCount, constCountOk, written⟩ := bind_eq_ok.mp written
    exact ⟨⟨defused, cs, tables, constBytes, constCount, extraBytes, functions, nativeImports,
      exports, types, dependencies, stdScript⟩,
      ⟨defusedOk, constsOk, extraOk, functionsOk, typesOk, stdScriptOk, constCountOk⟩,
      (ok.inj written).symm⟩

/-- The caller's source, where it has one, is the source the artifact was built from. -/
def SourceMatches (opts : WriteOptions) (expectedRootSource : Option Bytes) : Prop :=
  ∀ source, expectedRootSource = some source → source = opts.rootSource

theorem sourceMatches_none (opts : WriteOptions) : SourceMatches opts none :=
  nofun

variable {opts : WriteOptions} {expectedRootSource : Option Bytes}

theorem checkHashes_wireHeader {sourceHash : Bytes} {body : List UInt8}
    (matching : SourceMatches opts expectedRootSource)
    (source : sourceGraphHash opts.rootSource = some sourceHash) :
    checkHashes (wireHeader opts sourceHash body) expectedRootSource = .ok () := by
  cases expectedRootSource with
  | none =>
    simp only [checkHashes, wireHeader, ne_eq, not_true_eq_false, if_false]
    rfl
  | some expected =>
    rw [matching expected rfl]
    simp only [checkHashes, wireHeader, source, ne_eq, not_true_eq_false, if_false]
    rfl

theorem openBody_wireHeader {sourceHash : Bytes} {header body : List UInt8}
    (size : header.length = 8 + headerSize) :
    openBody (header ++ body) (wireHeader opts sourceHash body) = .ok body := by
  simp [openBody, wireHeader, ← size]

/-- The artifact of a chunk opens, and every section holds what was put into it. -/
theorem parse_write {state : State} {opts : WriteOptions} {artifact : Bytes}
    {expectedRootSource : Option Bytes} (written : write state opts = .ok artifact)
    (matching : SourceMatches opts expectedRootSource) :
    ∃ parts : Parts, parts.Of state ∧
      ∃ parsed, parseHeaderAndSections artifact expectedRootSource = .ok parsed ∧
        ∀ sec ∈ parts.sections, parsed.section? sec.id = some sec.data := by
  simp only [write, bind_eq_ok] at written
  obtain ⟨sections, sectionsOk, body, bodyOk, written⟩ := written
  obtain ⟨parts, of, rfl⟩ := exists_parts sectionsOk
  obtain ⟨header, _, headerOk, rawOk, rfl⟩ := append_eq_ok.mp written
  obtain rfl := ok.inj rawOk
  cases source : sourceGraphHash opts.rootSource with
  | none =>
    rw [writeHeader, source] at headerOk
    cases headerOk
  | some sourceHash =>
    have opened := header_back body source header headerOk body
    have size := header_sized opts body header headerOk
    obtain ⟨⟨table, tableSize, bodyEq⟩, tableBack⟩ :=
      body_back (parts.length_sections.trans_le (by decide)) bodyOk
    refine ⟨parts, of, ⟨body, entriesFrom (4 + 24 * parts.sections.length) parts.sections⟩, ?_, ?_⟩
    · simp only [parseHeaderAndSections, bind_eq_ok]
      exact ⟨_, opened, (), checkHashes_wireHeader matching source, body,
        openBody_wireHeader size, _, tableBack, rfl⟩
    · intro sec member
      have found := @find_entriesFrom table _ _ parts.nodup_ids member
      rw [tableSize, ← bodyEq] at found
      exact found

theorem checkHashes_none {header : Header}
    (checked : checkHashes header expectedRootSource = .ok ()) :
    checkHashes header none = .ok () := by
  cases expectedRootSource with
  | none => exact checked
  | some source =>
    simp only [checkHashes] at checked ⊢
    split at checked
    case isTrue => cases checked
    case isFalse same =>
      rw [if_neg same]
      split at checked
      case isTrue => cases checked
      case isFalse same =>
        rw [if_neg same]
        split at checked
        case isTrue => cases checked
        case isFalse same =>
          rw [if_neg same]
          rfl

theorem parse_none {bytes : Bytes} {parsed : ParsedHeader}
    (opened : parseHeaderAndSections bytes expectedRootSource = .ok parsed) :
    parseHeaderAndSections bytes none = .ok parsed := by
  simp only [parseHeaderAndSections, bind_eq_ok] at opened ⊢
  obtain ⟨header, headerOk, _, checked, rest⟩ := opened
  exact ⟨header, headerOk, (), checkHashes_none checked, rest⟩

theorem exists_write {state : State} (accepted : (write state opts).toBool = true) :
    ∃ artifact, write state opts = .ok artifact := by
  cases written : write state opts with
  | error _ =>
    rw [written] at accepted
    cases accepted
  | ok artifact => exact ⟨artifact, rfl⟩

/-!
# Loading a written artifact

What the reader makes of the constants section of a written artifact: the pool of
the chunk, followed by the function names that were no constants.
-/

/-- The constants that go into an artifact. -/
def Parts.pool (parts : Parts) : List (Constant FuncRef) :=
  parts.cs.consts ++ parts.extra.map .string

theorem writeConsts_append {defused : List UInt8} {funcObjs : List FuncObj}
    {tables between tables' : Tables} {consts others : List (Constant FuncRef)}
    {front back : List UInt8}
    (first : writeConsts defused funcObjs tables consts = .ok (between, front))
    (second : writeConsts defused funcObjs between others = .ok (tables', back)) :
    writeConsts defused funcObjs tables (consts ++ others) = .ok (tables', front ++ back) := by
  induction consts generalizing tables front with
  | nil =>
    obtain ⟨rfl, rfl⟩ := Prod.mk.inj (ok.inj first)
    exact second
  | cons const consts ih =>
    obtain ⟨⟨_, own⟩, head, first⟩ := bind_eq_ok.mp first
    obtain ⟨⟨_, rest⟩, tail, same⟩ := bind_eq_ok.mp first
    obtain ⟨rfl, rfl⟩ := Prod.mk.inj (ok.inj same)
    rw [List.cons_append, writeConsts, head]
    simp only [bind_eq_ok]
    refine ⟨_, rfl, _, ih tail, ?_⟩
    rw [List.append_assoc]
    rfl

theorem writeConsts_names {defused : List UInt8} {funcObjs : List FuncObj} {tables : Tables}
    {names : List Bytes} {bytes : List UInt8}
    (written : Writer.all (fun name => u8 ConstTag.string.toByte ++ str name) names = .ok bytes) :
    writeConsts defused funcObjs tables (names.map .string) = .ok (tables, bytes) := by
  induction names generalizing bytes with
  | nil =>
    obtain rfl := ok.inj written
    rfl
  | cons name names ih =>
    obtain ⟨front, back, first, others, rfl⟩ := append_eq_ok.mp written
    simp only [List.map_cons, writeConsts, writeConst, first, bind_eq_ok]
    exact ⟨_, ⟨_, rfl, rfl⟩, _, ih others, rfl⟩

theorem length_assignNames (consts : List (Constant FuncRef)) (entries : List FuncEntryInfo)
    (extra : List Bytes) : (assignNames consts entries extra).1.length = entries.length := by
  induction entries generalizing extra with
  | nil => rfl
  | cons entry entries ih =>
    rw [assignNames]
    split
    case isTrue => exact congrArg Nat.succ (ih _)
    case isFalse => split <;> exact congrArg Nat.succ (ih _)

theorem length_filterMap_funcOf (consts : List (Constant FuncRef)) :
    (consts.filterMap funcOf).length = (consts.map funcCount).sum := by
  induction consts with
  | nil => rfl
  | cons const consts ih =>
    rw [List.map_cons, List.sum_cons, ← ih, List.filterMap_cons, funcCount]
    cases funcOf const with
    | none => exact (zero_add _).symm
    | some => exact add_comm _ 1

namespace Parts.Of

variable {parts : Parts} {state : State} (of : parts.Of state)
include of

theorem writeConsts_pool :
    writeConsts parts.defused parts.cs.funcs {} parts.pool =
      .ok (parts.tables, parts.constBytes ++ parts.extraBytes) :=
  writeConsts_append of.consts (writeConsts_names of.extra)

/-- The function table has an entry for each constant of the pool with a function object. -/
theorem entryOf :
    List.Forall₂ (EntryOf parts.cs.funcs) (parts.pool.filterMap funcOf) parts.tables.funcs := by
  obtain ⟨⟨entries, same, areEntries⟩, _⟩ := writeConsts_eq_ok of.writeConsts_pool
  rw [same]
  exact areEntries

theorem types_eq : parts.tables.types = typesFrom 0 parts.pool :=
  (writeConsts_eq_ok of.writeConsts_pool).2.1

theorem length_funcs : parts.funcs.length = (parts.pool.map funcCount).sum := by
  rw [Parts.funcs, length_assignNames, ← of.entryOf.length_eq, length_filterMap_funcOf]

end Parts.Of

theorem wireTable_eq_ok {α β : Type} {tooMany : ReadError} {wire : α → Except ReadError β}
    {entries : List α} {results : List β} :
    wireTable tooMany wire entries = .ok results ↔
      entries.length ≤ 65536 ∧ entries.mapM wire = .ok results := by
  rw [wireTable]
  split
  case isTrue few => exact ⟨fun done => ⟨of_decide_eq_true few, done⟩, fun ⟨_, done⟩ => done⟩
  case isFalse many => exact ⟨nofun, fun ⟨few, _⟩ => absurd (decide_eq_true few) many⟩

/-- The chunk once the constants of an artifact are loaded. -/
def State.loaded (base : State) (rawFuncs : List RawFuncEntry) (types : List RawTypeEntry)
    (codeBase : ℕ) (pool : List (Constant FuncRef))
    (room : base.consts.length + pool.length ≤ MaxConst) : State :=
  State.extend base (loadedFrom base.funcs.length types pool) (rawFuncs.map (·.loaded codeBase))
    (by rwa [length_loadedFrom])

/-- Reading the constants section succeeds when every rune is a code point and the pool has
room for all constants, as the table of strings has for theirs. -/
theorem readConstantsSection_eq_ok {parts : Parts} {state base : State} (of : parts.Of state)
    {rawFuncs : List RawFuncEntry} {types : List RawTypeEntry} {codeBase : ℕ}
    (funcs : rawFuncs.length = parts.funcs.length)
    (wired : parts.tables.types.mapM wireTypeEntry = .ok types)
    {result : (Loading × ℕ) × List UInt8} :
    (readConstantsSection rawFuncs types codeBase
        { state := base, funcPatch := List.replicate rawFuncs.length none }).run
        (parts.constCount ++ (parts.constBytes ++ parts.extraBytes)) = .ok result ↔
      (∀ const ∈ parts.pool, codepointOk const = true) ∧
      HasSlices base.strSlices (parts.pool.flatMap constStrings) ∧ ∃ room, result =
        (({ state := State.loaded base rawFuncs types codeBase parts.pool room
            funcPatch := (targetsFrom base.consts.length parts.pool).map some },
          parts.pool.length), []) := by
  obtain ⟨_, _, supported, back⟩ := writeConsts_eq_ok of.writeConsts_pool
  rw [of.types_eq] at wired
  let start : Loading := { state := base, funcPatch := List.replicate rawFuncs.length none }
  have constsBack : ReadsBack (.raw (parts.constBytes ++ parts.extraBytes) : Writer WriteError)
      (readConsts rawFuncs types codeBase parts.pool.length start)
      (wireConsts rawFuncs types codeBase 0 0 start parts.pool) := by
    intro bytes written rest
    obtain rfl := ok.inj written
    exact back rawFuncs types codeBase start rest
  have sectionBack : ReadsBack (u32 parts.pool.length ++ .raw
    (parts.constBytes ++ parts.extraBytes))
      (readConstantsSection rawFuncs types codeBase start)
      (if decide (parts.pool.length ≤ MaxConst) then do
        let load ← wireConsts rawFuncs types codeBase 0 0 start parts.pool
        return (load, parts.pool.length)
      else .error .tooManyConstants) :=
    (u32_back _).andThen (.ensure fun _ => constsBack.bind_pure _)
  have length : parts.cs.consts.length + parts.extra.length = parts.pool.length := by
    rw [Parts.pool, List.length_append, List.length_map]
  have counted := of.constCount
  rw [length] at counted
  have taken := sectionBack _ (append_eq_ok.mpr ⟨_, _, counted, rfl, rfl⟩) []
  rw [List.append_nil] at taken
  have loop (load' : Loading) := @wireConsts_eq_ok [] rawFuncs [] types codeBase start load' []
    parts.pool supported (mapM_eq_ok.mp wired) (funcs.trans of.length_funcs) rfl rfl
  refine (iff_of_eq (congrArg (· = _) taken)).trans ?_
  constructor
  · intro done
    split at done
    case isFalse => cases done
    case isTrue =>
      obtain ⟨counted, loaded, rfl⟩ := map_eq_ok.mp done
      obtain ⟨load, loopOk, same⟩ := bind_eq_ok.mp loaded
      obtain rfl := ok.inj same
      obtain ⟨codepoints, strings, room, rfl⟩ := (loop load).mp loopOk
      rw [length_loadedFrom] at room
      exact ⟨codepoints, strings, room, rfl⟩
  · rintro ⟨codepoints, strings, room, rfl⟩
    have few : decide (parts.pool.length ≤ MaxConst) = true := by
      rw [decide_eq_true_eq]
      omega
    rw [if_pos few]
    refine map_eq_ok.mpr ⟨_, bind_eq_ok.mpr ⟨_, (loop _).mpr ⟨codepoints, strings, ?_, rfl⟩, rfl⟩,
      rfl⟩
    rwa [length_loadedFrom]

/-- A value without references into the chunk. -/
def IsScalar {Func : Type} : Constant Func → Prop
  | .int _ | .float _ | .rune _ | .boolean _ | .null | .string _ => True
  | _ => False

theorem isScalar_loadedConst {type : Option RawTypeEntry} {const : Constant FuncRef}
    {func : FuncRef} : (IsScalar (loadedConst type const func) ↔ IsScalar const) ∧
      (IsScalar const → loadedConst type const func = const) := by
  have notScalar (raw : RawTypeEntry) : ¬ IsScalar (raw.toConstant func) := by
    cases raw <;> exact id
  cases const with
  | int | float | rune | boolean | null | string => exact ⟨.rfl, fun _ => rfl⟩
  | function | closure | other => exact ⟨.rfl, nofun⟩
  | structType | namedType | variantType | interfaceType | enumType | taskType =>
    refine ⟨iff_of_false ?_ id, nofun⟩
    cases type with
    | none => exact id
    | some raw => exact notScalar raw

theorem getElem?_loadedFrom {func : FuncRef} {types : List RawTypeEntry}
    {consts : List (Constant FuncRef)} {index : ℕ} {const : Constant FuncRef}
    (scalar : IsScalar const) :
    (loadedFrom func types consts)[index]? = some const ↔ consts[index]? = some const := by
  induction consts generalizing func types index with
  | nil => exact .rfl
  | cons head consts ih =>
    cases index with
    | succ index => exact ih
    | zero =>
      rw [loadedFrom, List.getElem?_cons_zero, List.getElem?_cons_zero, some.injEq, some.injEq]
      constructor
      · intro same
        have headScalar := (@isScalar_loadedConst types.head? head func).1.mp
          (same ▸ scalar : IsScalar (loadedConst types.head? head func))
        rw [← same, isScalar_loadedConst.2 headScalar]
      · rintro rfl
        exact isScalar_loadedConst.2 scalar

theorem patchName_frame (constBase constCount : ℕ) (state : State)
    (entry : RawFuncEntry × Option FuncNamePatchTarget) :
    ∃ funcs, patchName constBase constCount state entry = { state with funcs } := by
  rw [patchName]
  split
  case h_1 => exact ⟨state.funcs, rfl⟩
  case h_2 =>
    dsimp only
    split
    case isTrue => exact ⟨state.funcs, rfl⟩
    case isFalse =>
      split
      case h_1 =>
        split
        case h_1 => exact ⟨_, rfl⟩
        case h_2 => exact ⟨state.funcs, rfl⟩
      case h_2 => exact ⟨state.funcs, rfl⟩

theorem patchNames_frame (constBase constCount : ℕ) (rawFuncs : List RawFuncEntry)
    (load : Loading) :
    ∃ funcs, patchNames constBase constCount rawFuncs load = { load.state with funcs } := by
  rw [patchNames]
  generalize rawFuncs.zip load.funcPatch = entries
  generalize load.state = state
  induction entries generalizing state with
  | nil => exact ⟨state.funcs, rfl⟩
  | cons entry entries ih =>
    obtain ⟨funcs, same⟩ := patchName_frame constBase constCount state entry
    obtain ⟨others, rest⟩ := ih (patchName constBase constCount state entry)
    refine ⟨others, rest.trans ?_⟩
    rw [same]

/-- The sections the loader asks for hold the parts of a written chunk. -/
structure Holds (parsed : ParsedHeader) (parts : Parts) : Prop where
  bytecode : parsed.section? secBytecode = some parts.defused
  constants : parsed.section? secConstants =
    some (parts.constCount ++ (parts.constBytes ++ parts.extraBytes))
  functions : parsed.section? secFunctions = some parts.functions
  types : parsed.section? secTypes = some parts.types
  stdScript : parsed.section? secStdScriptInfo = some parts.stdScript

theorem exists_holds {state : State} {opts : WriteOptions} {artifact : Bytes}
    {expectedRootSource : Option Bytes} (written : write state opts = .ok artifact)
    (matching : SourceMatches opts expectedRootSource) :
    ∃ parts, parts.Of state ∧
      ∃ parsed, parseHeaderAndSections artifact expectedRootSource = .ok parsed ∧
        Holds parsed parts := by
  obtain ⟨parts, of, parsed, opened, found⟩ := parse_write written matching
  obtain ⟨bytecode, constants, functions, -, -, types, -, stdScript, -⟩ :
      parsed.section? secBytecode = some parts.defused ∧
      parsed.section? secConstants =
        some (parts.constCount ++ (parts.constBytes ++ parts.extraBytes)) ∧
      parsed.section? secFunctions = some parts.functions ∧
      parsed.section? secNativeImports = some parts.nativeImports ∧
      parsed.section? secExports = some parts.exports ∧
      parsed.section? secTypes = some parts.types ∧
      parsed.section? secDependencyTable = some parts.dependencies ∧
      parsed.section? secStdScriptInfo = some parts.stdScript ∧ True := by
    simpa only [Parts.sections, List.forall_mem_cons, List.not_mem_nil, false_imp_iff,
      implies_true] using found
  exact ⟨parts, of, parsed, opened, ⟨bytecode, constants, functions, types, stdScript⟩⟩

theorem readFunctionsSection_run {parts : Parts} {state : State} (of : parts.Of state) :
    readFunctionsSection.run parts.functions =
      (wireFunctionsSection parts.cs.consts parts.funcs).map (·, []) := by
  have back := functionsSection_back parts.cs.consts parts.funcs _ of.functions []
  rwa [List.append_nil] at back

theorem readTypesSection_run {parts : Parts} {state : State} (of : parts.Of state) :
    readTypesSection.run parts.types =
      (wireTable .tooManyTypes wireTypeEntry parts.tables.types).map (·, []) := by
  have back := typesSection_back parts.tables.types _ of.types []
  rwa [List.append_nil] at back

theorem wireFunctionsSection_length {consts : List (Constant FuncRef)}
    {funcs : List FuncEntryInfo} {rawFuncs : List RawFuncEntry}
    (wired : wireFunctionsSection consts funcs = .ok rawFuncs) :
    rawFuncs.length = funcs.length :=
  (mapM_eq_ok.mp (wireTable_eq_ok.mp wired).2).length_eq.symm

theorem of_spliceConstIndices {constBase codeBase : ℕ} {state out : State}
    (done : spliceConstIndices constBase codeBase state = .ok out) :
    remapConstIndices constBase state.codeLen codeBase state.code = .ok out.code ∧
      out.consts = state.consts := by
  rw [spliceConstIndices] at done
  split at done
  case h_1 => cases done
  case h_2 code remapped =>
    obtain rfl := ok.inj done
    exact ⟨remapped, rfl⟩

/-- What an artifact appended to a chunk leaves in it. -/
structure Appends (parts : Parts) (types : List RawTypeEntry) (dest linked : State) : Prop where
  wired : parts.tables.types.mapM wireTypeEntry = .ok types
  consts : linked.consts = dest.consts ++ loadedFrom dest.funcs.length types parts.pool
  code : ∃ fuel, parts.defused.length ≤ fuel ∧
    remapConstIndices dest.consts.length fuel dest.codeLen (dest.code ++ parts.defused) =
      .ok linked.code

theorem exists_appends {state dest linked : State} {opts : WriteOptions} {artifact : Bytes}
    {expectedRootSource : Option Bytes} {exports : Option RawExportsSection}
    (written : write state opts = .ok artifact)
    (done : readIntoSession artifact dest expectedRootSource = .ok (linked, exports)) :
    ∃ parts, parts.Of state ∧ findSectionBytes artifact secBytecode none = .ok
      (some parts.defused) ∧
      ∃ types, Appends parts types dest linked := by
  obtain ⟨parts, of, parsed, opened, holds⟩ := exists_holds written (sourceMatches_none opts)
  refine ⟨parts, of, ?_, ?_⟩
  · rw [findSectionBytes, opened]
    exact congrArg Except.ok holds.bytecode
  · rw [readIntoSession, loadSections, bind_eq_ok] at done
    obtain ⟨parsed', opened', done⟩ := done
    obtain rfl := ok.inj (opened.symm.trans (parse_none opened'))
    simp only [holds.bytecode, holds.constants, holds.functions, holds.types,
      readFunctionsSection_run of, readTypesSection_run of, bind_eq_ok, if_true, ok.injEq,
      exists_eq_left'] at done
    obtain ⟨installed, installOk, base, pureOk, ⟨_, _⟩, funcsOk, ⟨_, _⟩, typesOk, interned,
      internsOk, ⟨⟨load, count⟩, _⟩, constsOk, spliced, spliceOk, _, _, _, _, same⟩ := done
    obtain rfl := ok.inj pureOk
    obtain ⟨rfl, -⟩ := Prod.mk.inj (ok.inj same)
    obtain ⟨rawFuncs, funcsWired, same⟩ := map_eq_ok.mp funcsOk
    obtain ⟨rfl, -⟩ := Prod.mk.inj same
    obtain ⟨types, typesWired, same⟩ := map_eq_ok.mp typesOk
    obtain ⟨rfl, -⟩ := Prod.mk.inj same
    have wired := (wireTable_eq_ok.mp typesWired).2
    obtain ⟨-, rfl⟩ := internAll_eq_ok.mp internsOk
    obtain ⟨-, -, room, same⟩ := (readConstantsSection_eq_ok of
      (wireFunctionsSection_length funcsWired) wired).mp constsOk
    obtain ⟨rfl, rfl⟩ := Prod.mk.inj (Prod.mk.inj same).1
    rw [installCode] at installOk
    split at installOk
    case isFalse => cases installOk
    case isTrue fits =>
      obtain rfl := ok.inj installOk
      obtain ⟨funcs, named⟩ := patchNames_frame dest.consts.length parts.pool.length rawFuncs
        { state := State.loaded _ rawFuncs types dest.codeLen parts.pool room
          funcPatch := (targetsFrom dest.consts.length parts.pool).map some }
      rw [named] at spliceOk
      obtain ⟨remapped, sameConsts⟩ := of_spliceConstIndices spliceOk
      have whole : dest.code.take dest.codeLen ++ parts.defused = dest.code ++ parts.defused := by
        rw [State.codeLen, List.take_length]
      refine ⟨types, wired, sameConsts, dest.codeLen + parts.defused.length, le_add_left _ _, ?_⟩
      rw [← whole]
      refine Eq.trans ?_ remapped
      congr 1
      simp [State.loaded, State.extend, State.codeLen]

end Gengo.Gbc
