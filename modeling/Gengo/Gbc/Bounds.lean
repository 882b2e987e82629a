import Gengo.Gbc.Reader
import Gengo.Wire.Containment

/-!
# Reads inside the artifact

The bytes of an artifact come from outside. Every reader of a section asks whether enough is
left before it takes anything; the reader of the header does so for every field but one, the
six reserved bytes. So the loader reads past the end of an artifact exactly when that ends
among them.
-/

namespace Gengo.Gbc

open Bytecode Fallible Wire Reader

/-- The reader stays inside its input: no read needs more than is left. -/
abbrev Inside {α : Type} (read : Reader ReadError α) : Prop :=
  Contained .panic read

instance : Fact (ReadError.truncatedBody ≠ .panic) := ⟨nofun⟩
instance : Fact (ReadError.malformedSection ≠ .panic) := ⟨nofun⟩
instance : Fact (ReadError.badFieldTypeTag ≠ .panic) := ⟨nofun⟩
instance : Fact (ReadError.badConstantTag ≠ .panic) := ⟨nofun⟩
instance : Fact (ReadError.tooManyTypes ≠ .panic) := ⟨nofun⟩
instance : Fact (ReadError.tooManyFunctions ≠ .panic) := ⟨nofun⟩
instance : Fact (ReadError.tooManyConstants ≠ .panic) := ⟨nofun⟩
instance : Fact (ReadError.tooManyExports ≠ .panic) := ⟨nofun⟩
instance : Fact (ReadError.typeRefOutOfRange ≠ .panic) := ⟨nofun⟩
instance : Fact (ReadError.sectionOutOfBounds ≠ .panic) := ⟨nofun⟩
instance : Fact (ReadError.malformedSectionTable ≠ .panic) := ⟨nofun⟩
instance : Fact (ReadError.nonZeroReserved ≠ .panic) := ⟨nofun⟩
instance : Fact (ReadError.invalidMagic ≠ .panic) := ⟨nofun⟩
instance : Fact (ReadError.headerTooSmall ≠ .panic) := ⟨nofun⟩
instance : Fact (ReadError.unsupportedHeaderVersion ≠ .panic) := ⟨nofun⟩
instance : Fact (ReadError.formatMajorMismatch ≠ .panic) := ⟨nofun⟩

section

variable {α : Type} {read : Reader ReadError α} [Inside read]

instance : Inside (readOption read) := by
  unfold readOption
  infer_instance

instance (width : ℕ) : Inside (readCounted width read) := by
  unfold readCounted
  infer_instance

instance : Inside readU8 := by
  unfold readU8
  infer_instance

instance : Inside readU16 := by
  unfold readU16
  infer_instance

instance : Inside readU32 := by
  unfold readU32
  infer_instance

instance : Inside readU64 := by
  unfold readU64
  infer_instance

instance : Inside readI64 := by
  unfold readI64
  infer_instance

instance : Inside readF64 := by
  unfold readF64
  infer_instance

instance : Inside readBool8 := by
  unfold readBool8
  infer_instance

instance : Inside readStr := by
  unfold readStr
  infer_instance

instance : Inside readHash32 := by
  unfold readHash32
  infer_instance

instance (tooMany : ReadError) [Fact (tooMany ≠ .panic)] : Inside (readTable tooMany read) := by
  unfold readTable
  infer_instance

end

instance {readSpec : Reader ReadError FieldTypeSpec} [Inside readSpec] :
    Inside (readTypeAlt readSpec) := by
  refine .skip inferInstance fun tag => ?_
  split <;> infer_instance

instance (room : ℕ) : Inside (readTypeSpecDepth room) := by
  induction room with
  | zero =>
    rw [readTypeSpecDepth]
    infer_instance
  | succ room ih =>
    rw [readTypeSpecDepth]
    infer_instance

instance : Inside readTypeSpec := by
  unfold readTypeSpec
  infer_instance

instance : Inside readFieldList := by
  unfold readFieldList readField
  infer_instance

instance : Inside readVariantArm := by
  refine .skip inferInstance fun name => .skip inferInstance fun shape => ?_
  split <;> infer_instance

instance (isVariadic : Bool) : Inside (readVariadicType isVariadic) := by
  unfold readVariadicType
  split <;> infer_instance

instance : Inside readInterfaceMethod := by
  unfold readInterfaceMethod
  infer_instance

instance (base : NamedTypeBase) : Inside (readDefault base) := by
  cases base <;> unfold readDefault <;> infer_instance

instance (name qualifiedName : Bytes) : Inside (readNamedType name qualifiedName) := by
  refine .skip inferInstance fun baseByte => ?_
  split <;> infer_instance

instance : Inside readOptConstValue := by
  refine .skip inferInstance fun tag => ?_
  split <;> infer_instance

set_option synthInstance.maxSize 400 in
instance : Inside readFunction := by
  unfold readFunction
  infer_instance

instance : Inside readFunctionsSection := by
  unfold readFunctionsSection
  infer_instance

instance : Inside readExport := by
  unfold readExport
  infer_instance

instance : Inside readExportsSection := by
  unfold readExportsSection
  infer_instance

instance (name qualifiedName : Bytes) : Inside (readEnumType name qualifiedName) := by
  refine .skip inferInstance fun members => ?_
  refine .bind inferInstance (.option (.times fun _ _ _ _ => trivial)) fun memberInts length => ?_
  refine .skip inferInstance fun parentName => ?_
  rw [dif_pos fun ints same => (length ints same).1]
  infer_instance

instance : Inside readTypeEntry := by
  refine .skip inferInstance fun kind => .skip inferInstance fun name =>
    .skip inferInstance fun qualifiedName => ?_
  split <;> infer_instance

instance : Inside readTypesSection := by
  unfold readTypesSection
  infer_instance

instance (state : State) (s : Bytes) : Calm .panic (State.internStr state s) := by
  unfold State.internStr
  split
  · infer_instance
  · split <;> infer_instance

instance (state : State) (strings : List Bytes) : Calm .panic (State.internAll state strings) := by
  induction strings generalizing state with
  | nil => exact ⟨nofun⟩
  | cons s rest ih => exact .bind inferInstance fun interned _ => ih interned

instance (state : State) (const : Constant FuncRef) : Calm .panic (State.addConst state const) := by
  unfold State.addConst
  split <;> infer_instance

section

variable (load : Loading) (rawFuncs : List RawFuncEntry) (codeBase : ℕ)

instance (const : Constant FuncRef) : Calm .panic (load.addConst const) :=
  .bind inferInstance fun _ _ => .bind inferInstance fun _ _ => ⟨nofun⟩

instance (fidx : ℕ) (target : ℕ → FuncNamePatchTarget) (const : FuncRef → Constant FuncRef) :
    Calm .panic (load.addFuncConst rawFuncs codeBase fidx target const) := by
  unfold Loading.addFuncConst
  split
  · exact ⟨nofun⟩
  · exact .bind inferInstance fun _ _ => ⟨nofun⟩

instance (type : RawTypeEntry) : Calm .panic (load.addTypeRef rawFuncs codeBase type) := by
  unfold Loading.addTypeRef
  split <;> infer_instance

instance (rawTypes : List RawTypeEntry) : Inside (readConst rawFuncs rawTypes codeBase load) := by
  refine .skip inferInstance fun tag => ?_
  split
  case h_8 =>
    refine .skip inferInstance fun tidx => ?_
    split <;> infer_instance
  all_goals infer_instance

instance (rawTypes : List RawTypeEntry) (count : ℕ) :
    Inside (readConsts rawFuncs rawTypes codeBase count load) := by
  induction count generalizing load with
  | zero => exact inferInstanceAs (Inside (pure load))
  | succ count ih =>
    rw [readConsts]
    infer_instance

instance (rawTypes : List RawTypeEntry) :
    Inside (readConstantsSection rawFuncs rawTypes codeBase load) := by
  unfold readConstantsSection
  infer_instance

end

instance (constBase : ℕ) (constIndexPos : Option ℕ) (code : List UInt8) :
    Calm .panic (moveConstIndex constBase constIndexPos code) := by
  unfold moveConstIndex
  split
  · infer_instance
  · dsimp only
    split <;> infer_instance

instance (constBase fuel pos : ℕ) (code : List UInt8) :
    Calm .panic (remapConstIndices constBase fuel pos code) := by
  induction fuel generalizing pos code with
  | zero => exact ⟨nofun⟩
  | succ fuel ih =>
    rw [remapConstIndices]
    split
    case isFalse => infer_instance
    case isTrue =>
      split
      case h_1 => infer_instance
      case h_2 decoded _ =>
        split
        case h_1 error moves => exact ⟨fun same => Calm.ne (moves.trans same)⟩
        case h_2 moved _ => exact ih (pos + decoded.width) moved

instance (constBase codeBase : ℕ) (state : State) :
    Calm .panic (spliceConstIndices constBase codeBase state) := by
  unfold spliceConstIndices
  split
  case h_1 error remaps =>
    exact ⟨fun same => Calm.ne (remaps.trans (congrArg _ (Except.error.inj same)))⟩
  case h_2 => infer_instance

instance (state : State) (codeBase : ℕ) (bytes : List UInt8) :
    Calm .panic (installCode state codeBase bytes) := by
  unfold installCode
  split <;> exact ⟨nofun⟩

instance (state : State) (info : Option (List UInt8)) :
    Calm .panic (installStdScript state info) := by
  unfold installStdScript
  split
  · infer_instance
  · exact .bind inferInstance fun _ _ => ⟨nofun⟩

private theorem calm_required (parsed : ParsedHeader) (id : ℕ) :
    Calm ReadError.panic (match parsed.section? id with
      | none => .error .missingRequiredSection
      | some data => .ok data) := by
  cases parsed.section? id with
  | none => exact ⟨fun same => ReadError.noConfusion (Except.error.inj same)⟩
  | some data => exact ⟨fun same => by cases same⟩

variable (bytes : Bytes)

/-- Behind the header, nothing that the loader reads or adds up goes wrong. -/
theorem loadSections_eq_panic_iff (state : State) (source : Option Bytes) (splice : Bool) :
    loadSections bytes state source splice = .error .panic ↔
      parseHeaderAndSections bytes source = .error .panic := by
  refine bind_eq_fault_iff_left fun parsed => ?_
  iterate 4 refine .bind (calm_required parsed _) fun _ _ => ?_
  refine .bind inferInstance fun installed _ => ?_
  cases splice <;> refine .bind inferInstance fun positioned _ => ?_
  all_goals refine .bind inferInstance fun ⟨rawFuncs, _⟩ _ => ?_
  all_goals refine .bind inferInstance fun ⟨rawTypes, _⟩ _ => .bind inferInstance fun _ _ => ?_
  all_goals refine .bind inferInstance fun _ _ => ?_
  case false => exact ⟨nofun⟩
  case true =>
    refine .bind inferInstance fun moved _ => .bind (calm_required parsed _) fun data _ => ?_
    exact .bind inferInstance fun _ _ => ⟨nofun⟩

instance (bodyLength : ℕ) : Inside (readSectionEntry bodyLength) := by
  unfold readSectionEntry
  infer_instance

instance (bodyLength : ℕ) : Inside (readSectionTable bodyLength) := by
  unfold readSectionTable
  infer_instance

theorem returns_readSectionTable (bodyLength : ℕ) :
    Returns (readSectionTable bodyLength) fun sections =>
      ∀ sec ∈ sections, sec.offset + sec.length ≤ bodyLength := by
  refine .skip fun count => .skip fun _ => ?_
  have each : Returns (readSectionEntry bodyLength) fun sec =>
      sec.offset + sec.length ≤ bodyLength := by
    refine .skip fun id => .skip fun _ => .skip fun offset => .skip fun length => ?_
    refine (returns_ensure _).bind fun _ inside => (returns_ensure _).bind fun _ fits => .of_pure ?_
    have := of_decide_eq_true inside
    have := of_decide_eq_true fits
    dsimp only
    omega
  exact fun _ _ _ runs => (each.times _ _ _ runs).2

/-- A field of two bytes. -/
def fieldAt (bytes : Bytes) (pos : ℕ) : ℕ :=
  ofLeBytes ((bytes.drop pos).take 2)

/-- The input ends among the six reserved bytes, and everything before them is in order. -/
structure CutInReserved (bytes : Bytes) : Prop where
  isMagic : bytes.take 8 = magic
  size : headerSize ≤ fieldAt bytes 8
  version : fieldAt bytes 10 = headerVersion
  major : fieldAt bytes 12 = formatMajor
  reached : 34 ≤ bytes.length
  cut : bytes.length < 40

theorem readHeader_eq_panic_iff : readHeader bytes = .error .panic ↔ CutInReserved bytes := by
  simp only [readHeader, readU16, readU32, Reader.bind_eq_fault, take_eq_ok, le_eq_ok,
    ensure_eq_ok, take_bind_eq_fault, List.drop_drop, List.length_drop, exists_and_left, and_assoc,
    exists_eq_left', exists_const, Nat.reduceAdd]
  constructor
  · rintro ⟨_, isMagic, _, size, _, version, _, major, few⟩
    exact ⟨eq_of_beq isMagic, of_decide_eq_true size, eq_of_beq version, eq_of_beq major,
      by omega, by omega⟩
  · rintro ⟨isMagic, size, version, major, reached, cut⟩
    simp only [beq_iff_eq, decide_eq_true_eq]
    exact ⟨by omega, isMagic, by omega, size, by omega, version, by omega, major, by omega⟩

/-- A source whose length fits the four bytes it is hashed with. -/
def FitsHash (source : Option Bytes) : Prop :=
  ∀ text, source = some text → text.length < 2 ^ 32

theorem calm_checkHashes (header : Header) {source : Option Bytes} (fits : FitsHash source) :
    Calm ReadError.panic (checkHashes header source) := by
  unfold checkHashes
  dsimp only
  iterate 3
    split
    · exact ⟨nofun⟩
  split
  · exact ⟨nofun⟩
  · split
    case h_1 text _ noHash =>
      simp [sourceGraphHash, lenPrefixed, sourceGraphDomain] at noHash
      exact absurd (fits text rfl) (Nat.not_lt.mpr noHash)
    case h_2 => split <;> exact ⟨nofun⟩

theorem parseHeaderAndSections_eq_panic_iff {source : Option Bytes} (fits : FitsHash source) :
    parseHeaderAndSections bytes source = .error .panic ↔ CutInReserved bytes := by
  rw [← readHeader_eq_panic_iff]
  refine bind_eq_fault_iff_left fun ⟨header, _⟩ => ?_
  refine .bind (calm_checkHashes header fits) fun _ _ => ?_
  refine .bind ?_ fun body _ => ?_
  · unfold openBody
    dsimp only
    repeat' split
    all_goals exact ⟨nofun⟩
  · exact .bind (Contained.calm inferInstance body) fun _ _ => ⟨nofun⟩

theorem returns_readHeader : Returns readHeader fun header => 8 + header.headerSize < 2 ^ 64 := by
  refine .skip fun _ => .skip fun _ => returns_le.bind fun size small => ?_
  iterate 21 refine .skip fun _ => ?_
  exact .of_pure (show 8 + size < 2 ^ 64 by omega)

theorem returns_readFunctionsSection :
    Returns readFunctionsSection fun raws => ∀ raw ∈ raws, raw.f.ip < 2 ^ 32 := by
  have each : Returns readFunction fun raw => raw.f.ip < 2 ^ 32 := by
    refine .skip fun nameConstantIdx => returns_le.bind fun ip small => ?_
    iterate 14 refine .skip fun _ => ?_
    exact .of_pure small
  exact .skip fun count => .skip fun _ _ _ _ runs => (each.times _ _ _ runs).2

/-- An input in memory; it shares the address space with the code buffer of the chunk. -/
structure Input where
  bytes : Bytes
  addressable : bytes.length + MaxCode < 2 ^ 64

/-- A reader of fields: its input and how far it has come. -/
structure ByteReader where
  input : Input
  pos : ℕ
  inside : pos ≤ input.bytes.length

namespace ByteReader

variable (r : ByteReader) (n : ℕ)

def need : Except ReadError Unit :=
  if r.input.bytes.length - r.pos < n then .error .truncatedBody else .ok ()

/-- `bytes[pos..][0..n]`. -/
def slice : Except ReadError Bytes :=
  if r.pos + n ≤ r.input.bytes.length then .ok ((r.input.bytes.drop r.pos).take n)
  else .error .panic

/-- The position behind the field; a sum that wraps fails. -/
def advance : Except ReadError ℕ :=
  if r.pos + n < 2 ^ 64 then .ok (r.pos + n) else .error .panic

/-- What every reader of a field does: check, slice, go on. -/
def fetch : Except ReadError (Bytes × ℕ) := do
  r.need n
  let data ← r.slice n
  let pos ← r.advance n
  return (data, pos)

theorem fetch_eq :
    r.fetch n = (Reader.take .truncatedBody n (r.input.bytes.drop r.pos)).map fun (data, rest) =>
      (data, r.input.bytes.length - rest.length) := by
  have := r.inside
  have := r.input.addressable
  rw [fetch, need, Reader.take, List.length_drop]
  split
  case isTrue => rfl
  case isFalse enough =>
    have within : r.pos + n ≤ r.input.bytes.length := by omega
    have unwrapped : r.pos + n < 2 ^ 64 := by omega
    have behind : r.input.bytes.length - (r.input.bytes.length - (r.pos + n)) = r.pos + n := by
      omega
    rw [slice, advance, if_pos within, if_pos unwrapped]
    simp only [Except.map, List.drop_drop, List.length_drop, behind]
    rfl

end ByteReader

theorem constIndexPos_inside {code : List UInt8} {pos cip : ℕ} {inst : DecodedInstruction}
    (decoded : decodeAt code pos = .ok inst) (surfaced : inst.constIndexPos = some cip) :
    cip + 1 < code.length := by
  rw [decodeAt] at decoded
  split at decoded
  · cases decoded
  split at decoded
  · cases decoded
  rename_i op _
  obtain ⟨_, -, decoded⟩ := Fallible.bind_eq_ok.mp decoded
  obtain ⟨_, -, decoded⟩ := Fallible.bind_eq_ok.mp decoded
  obtain ⟨index, isIndex, same⟩ := Fallible.bind_eq_ok.mp decoded
  obtain rfl := Except.ok.inj same
  obtain ⟨offset, isOffset, rfl⟩ := Option.map_eq_some_iff.mp surfaced
  rw [readConstIndex, isOffset] at isIndex
  obtain ⟨value, isValue, -⟩ := Fallible.bind_eq_ok.mp isIndex
  rw [readU16At] at isValue
  split at isValue
  case h_1 low => exact (List.getElem?_eq_some_iff.mp low).1
  case h_2 => cases isValue

/-- Nothing that loads the artifact, alone or into a chunk, reads outside of it or takes a sum
that wraps; the sections it accepts lie in the body. -/
structure ReadsInside (input : Input) (state : State) (splice : Bool) : Prop where
  fields : ∀ (r : ByteReader) (n : ℕ), r.input = input → r.fetch n ≠ .error .panic
  typeSpec : Inside readTypeSpec
  types : Inside readTypesSection
  functions : Inside readFunctionsSection
  exports : Inside readExportsSection
  header : ∀ source, FitsHash source → parseHeaderAndSections input.bytes source ≠ .error .panic
  headerEnd : ∀ header rest, readHeader input.bytes = .ok (header, rest) →
    8 + header.headerSize < 2 ^ 64
  sections : ∀ source parsed, parseHeaderAndSections input.bytes source = .ok parsed →
    ∀ sec ∈ parsed.sections, sec.offset + sec.length ≤ parsed.body.length ∧
      state.codeLen + sec.length < 2 ^ 64
  entries : ∀ data raws rest, readFunctionsSection data = .ok (raws, rest) →
    ∀ raw ∈ raws, state.codeLen + raw.f.ip < 2 ^ 64
  indices : state.consts.length + 2 ^ 16 < 2 ^ 32
  patches : ∀ code pos inst cip, decodeAt code pos = .ok inst →
    inst.constIndexPos = some cip → cip + 1 < code.length
  load : ∀ source, FitsHash source → loadSections input.bytes state source splice ≠ .error .panic

theorem sections_inside {bytes : Bytes} {source : Option Bytes} {parsed : ParsedHeader}
    (accepted : parseHeaderAndSections bytes source = .ok parsed) :
    parsed.body.length ≤ bytes.length ∧
      ∀ sec ∈ parsed.sections, sec.offset + sec.length ≤ parsed.body.length := by
  obtain ⟨⟨header, _⟩, -, accepted⟩ := Fallible.bind_eq_ok.mp accepted
  obtain ⟨_, -, accepted⟩ := Fallible.bind_eq_ok.mp accepted
  obtain ⟨body, opened, accepted⟩ := Fallible.bind_eq_ok.mp accepted
  obtain ⟨⟨sections, _⟩, tabled, same⟩ := Fallible.bind_eq_ok.mp accepted
  obtain rfl := Except.ok.inj same
  refine ⟨?_, returns_readSectionTable _ _ _ _ tabled⟩
  rw [openBody] at opened
  split at opened
  · cases opened
  split at opened
  · cases opened
  split at opened
  · cases opened
  rw [← Except.ok.inj opened]
  exact List.length_take_le' _ _ |>.trans (List.length_drop ▸ Nat.sub_le _ _)

theorem fitsHash_none : FitsHash none :=
  fun _ => nofun

theorem readsInside_iff (input : Input) (state : State) (splice : Bool) :
    ReadsInside input state splice ↔ ¬ CutInReserved input.bytes := by
  refine ⟨fun reads cut => reads.header none fitsHash_none
    ((parseHeaderAndSections_eq_panic_iff _ fitsHash_none).mpr cut), fun whole => ?_⟩
  have header (source) (fits : FitsHash source) :
      parseHeaderAndSections input.bytes source ≠ .error .panic :=
    fun ends => whole ((parseHeaderAndSections_eq_panic_iff _ fits).mp ends)
  have codeLen : state.codeLen ≤ MaxCode := state.codeLen_le
  have constCount := state.constCount_le
  have addressable := input.addressable
  rw [MaxCode] at codeLen addressable
  rw [MaxConst] at constCount
  constructor
  case fields =>
    rintro r n rfl ends
    rw [r.fetch_eq] at ends
    cases taken : Reader.take ReadError.truncatedBody n (r.input.bytes.drop r.pos) with
    | error failure =>
      rw [taken] at ends
      cases ends
      exact (Contained.calm inferInstance _).ne taken
    | ok pair =>
      rw [taken] at ends
      cases ends
  case header => exact header
  case headerEnd => exact fun found rest runs => returns_readHeader _ _ _ runs
  case sections =>
    intro source parsed accepted sec listed
    obtain ⟨short, inside⟩ := sections_inside accepted
    have := inside sec listed
    omega
  case entries =>
    intro data raws rest runs raw listed
    have := returns_readFunctionsSection _ _ _ runs raw listed
    omega
  case indices => omega
  case patches => exact fun _ _ _ _ => constIndexPos_inside
  case load =>
    exact fun source fits ends => header source fits ((loadSections_eq_panic_iff ..).mp ends)
  all_goals infer_instance

/-- An artifact that ends where its reserved bytes start. -/
def cutArtifact : Input where
  bytes := magic ++ [184, 0, 1, 0, 2, 0] ++ List.replicate 20 0
  addressable := by decide

theorem not_readsInside : ¬ ReadsInside cutArtifact { code := [], codeLen_le := by decide } false :=
  fun reads => reads.header none fitsHash_none rfl

end Gengo.Gbc
