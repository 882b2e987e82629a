import Gengo.Bindings.Scopes

/-!
# Operands of one byte

The counts and the indices that the compiler emits in one byte. A program is a tree of
constructs. The parsers of lists count their parts in a byte, most of them up to a limit, and
a count without a limit wraps. Slots of locals and indices of captured variables come from the
tables of the functions that are being compiled.
-/

namespace Gengo.Operands

open Nat
open Bindings (FuncInfo Local Name Refusal Upvalue enterScope maxLocals maxScopes resolveUpvalue
  resolveUpvalueConst)
open Fallible (refuse)

/-- The operands of one byte: the operation, or which of its operands it is. `captureSlot` is a
byte of `capture_slots`. -/
inductive Role
  | call
  | callSpread
  | spreadCount
  | invokeMethod
  | deferCall
  | deferInvokeMethod
  | append
  | buildArray
  | buildMap
  | buildStructInstance
  | buildTuple
  | tupleCheckArity
  | tupleGet
  | getLocal
  | setLocal
  | getUpvalue
  | setUpvalue
  | closeUpvalue
  | captureSlot
  deriving DecidableEq, Repr

/-- What the handlers read from an operand: a number, and the flag that two of them have. -/
def decode (role : Role) (byte : UInt8) : ℕ × Bool :=
  match role with
  | .call | .captureSlot => ((byte &&& 0x7F).toNat, decide (byte &&& 0x80 ≠ 0))
  | _ => (byte.toNat, false)

/-- What is emitted: an operand for a number and a flag of the source, or an access to a global,
with whether the name is a variable of an enclosing function. -/
inductive Emission
  | operand (role : Role) (number : ℕ) (flag : Bool) (byte : UInt8)
  | global (captured : Bool)
  deriving DecidableEq, Repr

/-- The operand is read as what the source has, and no variable is taken for a global. -/
def Emission.Faithful : Emission → Prop
  | operand role number flag byte => decode role byte = (number, flag)
  | global captured => captured = false

instance : DecidablePred Emission.Faithful
  | .operand role number flag byte =>
    inferInstanceAs (Decidable (decode role byte = (number, flag)))
  | .global captured => inferInstanceAs (Decidable (captured = false))

inductive PrimType
  | int
  | float
  | bool
  | string
  | rune
  | decimal
  deriving DecidableEq, Repr

/-- `FieldTypeAlt`, as far as `argProvenForParam` tells alternatives apart. -/
inductive FieldTypeAlt
  | any
  | int
  | float
  | boolean
  | string
  | rune
  | struct (name : Name)
  | interface (name : Name)
  | variant (name : Name)
  | other
  deriving DecidableEq, Repr

/-- `ExprPrimInfo`: what is known of the value of an expression. -/
structure ExprPrimInfo where
  prim : Option PrimType
  namedType : Option Name
  structType : Option Name
  variantType : Option Name
  deriving DecidableEq, Repr

/-- `CallSigView`. The types of a parameter are its alternatives. -/
structure CallSigView where
  arity : UInt8
  isVariadic : Bool
  defaultCount : UInt8
  paramTypes : List (List FieldTypeAlt)

/-- A call of a value, with what is known of functions, of the arguments and of the context. -/
structure CallSite where
  callSigForQname : Name → Option CallSigView
  structConformsToInterface : Name → Name → Bool
  argInfo : ℕ → ExprPrimInfo
  lhsCount : UInt8

/-- What is known of a callee: its signature, and how many results it has if they are named. -/
structure Callee where
  sig : Option CallSigView
  spread : UInt8

/-- A callee of which nothing is known. -/
def Callee.unknown : Callee :=
  ⟨none, 0⟩

namespace CallSite

variable (site : CallSite)

def argProvenForParam (sig : CallSigView) (argIndex : ℕ) (info : ExprPrimInfo) : Bool :=
  match sig.paramTypes[argIndex]? with
  | some [.any] => true
  | some [.struct name] => info.structType = some name
  | some [.interface name] =>
    match info.structType with
    | some struct => site.structConformsToInterface struct name
    | none => false
  | some [.variant name] => info.variantType = some name
  | some [alt] =>
    if info.namedType.isSome then false
    else
      match alt, info.prim with
      | .int, some prim => prim = .int ∨ prim = .rune
      | .float, some prim => prim = .float ∨ prim = .rune
      | .boolean, some prim => prim = .bool
      | .string, some prim => prim = .string
      | .rune, some prim => prim = .rune
      | _, _ => false
  | _ => false

/-- The runtime checks of so many arguments are proven: for every argument, and for a callee that
takes as many. -/
def proven (callee : Callee) (args : ℕ) : Bool :=
  match callee.sig with
  | none => false
  | some sig =>
    (List.range args).all (fun index => site.argProvenForParam sig index (site.argInfo index)) &&
      !sig.isVariadic && sig.defaultCount == 0 && sig.arity.toNat == args

/-- `proven`, as the compiler finds it out with an index and a count in a byte. -/
def provenInByte (callee : Callee) (args : ℕ) (argc : UInt8) : Bool :=
  match callee.sig with
  | none => false
  | some sig =>
    (List.range args).all (fun index =>
        site.argProvenForParam sig (UInt8.ofNat index).toNat (site.argInfo index)) &&
      !sig.isVariadic && sig.defaultCount == 0 && sig.arity == argc

end CallSite

/-- A construct of the source. Its parts are the expressions, entries, statements or
declarations in it, in the order in which they are compiled. -/
inductive Construct
  /-- Whatever has no operand of one byte of its own: literals, operators, fields, conditions, the
  entry of a map. -/
  | plain
  /-- An expression in parentheses. -/
  | group
  /-- `emitGetVar`, with the number of named results that is registered for a global function of the
  name. -/
  | getVar (name : Name) (returnCount : UInt8)
  /-- `emitSetVar`, behind the value. -/
  | setVar (name : Name)
  | defineLocal (name : Name) (isConst : Bool)
  | block
  /-- The captured ones of some locals are closed, at the end of a round of a loop, before a
  jump out of it, or before a return. -/
  | closeUpvalues (slots : List ℕ)
  /-- `compileFuncWithPrefix`, with the parameters and the named results. -/
  | func (params : List Local) (returns : List Name)
  /-- `compileDeferBlock` and its `defer_call`. -/
  | deferBlock
  | arrayLit
  | typedArrayLit
  | mapLit
  | structInstanceLit
  /-- A conversion to a named type. -/
  | cast
  /-- An operator that a method defines. -/
  | dunderBinaryOp
  /-- A function of the standard library, in full. -/
  | stdCall
  /-- `std.core.append`, which has an operation of its own. -/
  | append
  /-- A method of a receiver, which a named type may have as a function. -/
  | methodCall (isStatic : Bool)
  | deferCall
  | deferMethod
  /-- A method of a type that is deferred with its receiver as the first argument. -/
  | deferTypeMethod (isDirect : Bool)
  | exprListTuple
  | returnList
  /-- Values for the named results. -/
  | namedReturn
  /-- `multiBindStmt`, behind the values, for so many targets. -/
  | multiBind (targets : ℕ) (spread : Bool)
  /-- `emitModuleObject` -/
  | moduleObject (exports : List Name)

/-- A construct with its parts, or a call of a value with its arguments. -/
inductive Code
  | node (construct : Construct) (parts : List Code)
  | call (callee : Code) (site : CallSite) (args : List Code)

inductive CompileError
  | refused (refusal : Refusal)
  | tooManyElements
  | tooManyFields
  | arityMismatch
  deriving DecidableEq, Repr

/-- The functions that are being compiled, and the locals that inner functions have captured, each
with the number of functions around its own. The global that was named last is there for the next
call, with the number of its results. -/
structure Compiler where
  scope : FuncInfo
  namedReturnBase : ℕ
  namedReturnCount : ℕ
  enclosing : List FuncInfo
  captured : List (ℕ × ℕ)
  pendingCallQname : Option Name
  pendingCallSpreadCount : UInt8

namespace Compiler

variable (compiler : Compiler)

def init : Compiler :=
  ⟨.empty, 0, 0, [], [], none, 0⟩

/-- How many functions are around the one that is being compiled. -/
def depth : ℕ :=
  compiler.enclosing.length

def isCaptured (slot : ℕ) : Bool :=
  (compiler.depth, slot) ∈ compiler.captured

/-- The callee that a call takes from what is pending. -/
def pendingCallee (site : CallSite) : Callee :=
  ⟨compiler.pendingCallQname.bind site.callSigForQname, compiler.pendingCallSpreadCount⟩

/-- A call has taken what was pending. -/
def takePending : Compiler :=
  { compiler with pendingCallQname := none, pendingCallSpreadCount := 0 }

/-- A name stands for no variable of a function. -/
def isGlobal (name : Name) : Bool :=
  (compiler.scope.resolveLocal name).isNone && (resolveUpvalueConst name compiler.enclosing).isNone

/-- The local of an enclosing function that a name stands for. -/
def captureOf (name : Name) : List FuncInfo → Option (ℕ × ℕ)
  | [] => none
  | around :: outer =>
    match around.resolveLocal name with
    | some slot => some (outer.length, slot)
    | none => captureOf name outer

end Compiler

/-- What the source tells of a callee: a global function by its name, perhaps in parentheses. -/
def Code.callee (site : CallSite) (compiler : Compiler) : Code → Callee
  | .node (.getVar name returnCount) [] =>
    if compiler.isGlobal name then ⟨site.callSigForQname name, returnCount⟩ else .unknown
  | .node .group [inner] => inner.callee site compiler
  | _ => .unknown

/-- An operand for a number of the source that has been brought into a byte. -/
def operand (role : Role) (number : ℕ) : Emission :=
  .operand role number false (UInt8.ofNat number)

/-- An access to a variable, with the roles of locals and of captured variables. -/
def access (ofLocal ofUpvalue : Role) (name : Name) (compiler : Compiler) : Emission × Compiler :=
  match compiler.scope.resolveLocal name with
  | some slot => (operand ofLocal slot, compiler)
  | none =>
    let (found, scope, enclosing) := resolveUpvalue name compiler.scope compiler.enclosing
    let after : Compiler :=
      { compiler with
        scope := scope
        enclosing := enclosing
        captured := (Compiler.captureOf name compiler.enclosing).toList ++ compiler.captured }
    match found with
    | some index => (operand ofUpvalue index, after)
    | none => (.global (resolveUpvalueConst name compiler.enclosing).isSome, after)

/-- What is pending behind the access to a variable. -/
def Compiler.setPending (compiler : Compiler) (name : Name) (returnCount : UInt8) :
    Emission → Compiler
  | .operand .. => compiler.takePending
  | .global _ =>
    { compiler with pendingCallQname := some name, pendingCallSpreadCount := returnCount }

/-- `close_upvalue` for the captured ones of some locals. -/
def closeCaptured (compiler : Compiler) (slots : List ℕ) : List Emission :=
  (slots.filter compiler.isCaptured).map (operand .closeUpvalue)

/-- `cleanupLocals`: the locals from a slot on are closed and dropped, the last one first. -/
def cleanupLocals (base : ℕ) (compiler : Compiler) : List Emission × Compiler :=
  let dropped := (List.range' base (compiler.scope.locals.length - base)).reverse
  (closeCaptured compiler dropped, { compiler with
      scope := compiler.scope.cleanupLocals base
      captured := compiler.captured.filter fun entry =>
        decide (¬(entry.1 = compiler.depth ∧ entry.2 ∈ dropped)) })

/-- `emitImplicitReturn` -/
def emitImplicitReturn (compiler : Compiler) : List Emission :=
  if compiler.namedReturnCount = 1 then [operand .getLocal compiler.namedReturnBase] else []

/-- The bytes of `capture_slots`. -/
def captureSlots (compiler : Compiler) : List Emission :=
  compiler.scope.upvalues.map fun upvalue =>
    .operand .captureSlot upvalue.index upvalue.fromUpvalue
      ((if upvalue.fromUpvalue then 0x80 else 0) ||| UInt8.ofNat upvalue.index)

def ofScope {α : Type} (result : Except Refusal α) : Except CompileError α :=
  result.mapError .refused

/-- A new function with the parameters and the named results that it has. -/
def enterFunction (params : List Local) (returns : List Name) (compiler : Compiler) :
    Except CompileError Compiler := do
  refuse (maxScopes ≤ compiler.depth + 1) (.refused .tooManyNestedFunctions)
  let scope ← ofScope (enterScope params returns)
  return {
    scope := scope
    namedReturnBase := params.length
    namedReturnCount := returns.length
    enclosing := compiler.scope :: compiler.enclosing
    captured := compiler.captured
    pendingCallQname := compiler.pendingCallQname
    pendingCallSpreadCount := compiler.pendingCallSpreadCount }

/-- The end of a function: its locals from a slot on are dropped, and the function around it goes
on. -/
def leaveFunction (base : ℕ) (before compiler : Compiler) : List Emission × Compiler :=
  let (closed, compiler) := cleanupLocals base compiler
  (closed ++ emitImplicitReturn compiler ++ captureSlots compiler,
    { scope := compiler.enclosing.headD before.scope
      namedReturnBase := before.namedReturnBase
      namedReturnCount := before.namedReturnCount
      enclosing := compiler.enclosing.tail
      captured := compiler.captured.filter fun entry => decide (entry.1 ≠ compiler.depth)
      pendingCallQname := compiler.pendingCallQname
      pendingCallSpreadCount := compiler.pendingCallSpreadCount })

/-- What happens before the parts of a construct are compiled. -/
def openConstruct (construct : Construct) (compiler : Compiler) : Except CompileError Compiler :=
  match construct with
  | .func params returns => enterFunction params returns compiler
  | .deferBlock => enterFunction [] [] compiler
  | _ => .ok compiler

/-- When the parser of a list compares its count with 255. -/
inductive Limit
  | none
  | beforeElement
  | afterElement
  deriving DecidableEq, Repr

def limit : Construct → Limit
  | .arrayLit | .typedArrayLit => .afterElement
  | .mapLit | .structInstanceLit | .deferCall | .deferMethod | .deferTypeMethod _
  | .exprListTuple | .returnList => .beforeElement
  | _ => .none

/-- The operands of a call of a value: the bytes are those of the callee that is taken, for the
numbers of the callee that the source has. -/
def callOperands (site : CallSite) (taken own : Callee) (args : ℕ) (argc : UInt8) :
    List Emission :=
  if 2 ≤ taken.spread then
    let spread : List Emission :=
      [.operand .callSpread args false argc,
        .operand .spreadCount own.spread.toNat false taken.spread]
    if site.lhsCount = taken.spread then spread
    else spread ++ [.operand .buildTuple own.spread.toNat false taken.spread]
  else
    [.operand .call args (site.proven own args)
      (if site.provenInByte taken args argc then argc ||| 0x80 else argc)]

/-- What is emitted for a construct behind its parts, with their number and with the number that
has been counted, and the state before its parts. -/
def closeConstruct (construct : Construct) (parts : ℕ) (count : UInt8)
    (before compiler : Compiler) : Except CompileError (List Emission × Compiler) :=
  match construct with
  | .plain | .group => .ok ([], compiler)
  | .getVar name returnCount =>
    let (emission, compiler) := access .getLocal .getUpvalue name compiler
    .ok ([emission], compiler.setPending name returnCount emission)
  | .setVar name =>
    let (emission, compiler) := access .setLocal .setUpvalue name compiler
    .ok ([emission], compiler)
  | .defineLocal name isConst => do
    let scope ← ofScope (compiler.scope.defineLocal name isConst)
    return ([], { compiler with scope := scope })
  | .block => .ok (cleanupLocals before.scope.locals.length compiler)
  | .closeUpvalues slots => .ok (closeCaptured compiler slots, compiler)
  | .func params returns =>
    .ok (leaveFunction (params.length + returns.length) before compiler)
  | .deferBlock =>
    let (emissions, compiler) := leaveFunction 0 before compiler
    .ok (emissions ++ [operand .deferCall 0], compiler)
  | .arrayLit => .ok ([.operand .buildArray parts false count], compiler)
  | .typedArrayLit =>
    .ok ([.operand .buildArray parts false count, operand .call 1], compiler)
  | .mapLit => .ok ([.operand .buildMap parts false count], compiler)
  | .structInstanceLit => .ok ([.operand .buildStructInstance parts false count], compiler)
  | .cast => .ok ([operand .call 1], compiler)
  | .dunderBinaryOp => .ok ([operand .call 2], compiler)
  | .stdCall => .ok ([.operand .call parts false count], compiler)
  | .append => .ok ([.operand .append parts false count], compiler)
  | .methodCall true => .ok ([.operand .call (parts + 1) false (count + 1)], compiler)
  | .methodCall false => .ok ([.operand .invokeMethod parts false count], compiler)
  | .deferCall => .ok ([.operand .deferCall parts false count], compiler)
  | .deferMethod => .ok ([.operand .deferInvokeMethod parts false count], compiler)
  | .deferTypeMethod isDirect => do
    refuse (count = 0) .arityMismatch
    if isDirect then return ([.operand .deferCall parts false count], compiler)
    else return ([.operand .deferInvokeMethod (parts - 1) false (count - 1)], compiler)
  | .exprListTuple | .returnList =>
    .ok (if 1 < count then [.operand .buildTuple parts false count] else [], compiler)
  | .namedReturn =>
    let slots : List ℕ := List.range' compiler.namedReturnBase compiler.namedReturnCount
    .ok (slots.map (operand .setLocal) ++ emitImplicitReturn compiler, compiler)
  | .multiBind targets spread => do
    refuse (maxLocals < targets) (.refused .tooManyLocals)
    if spread then return ([], compiler)
    else
      return (operand .tupleCheckArity targets :: (List.range targets).map (operand .tupleGet),
        compiler)
  | .moduleObject exports => do
    refuse (256 < exports.length) .tooManyFields
    return ([operand .buildStructInstance exports.length], compiler)

/-- What operands are emitted for: a construct, or a call with the callee that is taken for it and
its own one. -/
inductive Emitter
  | construct (construct : Construct)
  | call (site : CallSite) (taken own : Callee)

/-- Where something is emitted: what for, how many parts it has, and the state behind them. -/
structure Site where
  emitter : Emitter
  parts : ℕ
  compiler : Compiler

/-- What has been emitted, with the construct that each of it is for. -/
abbrev Listing := List (Site × List Emission)

mutual

def compile : Code → Compiler → Except CompileError (Listing × Compiler)
  | .node construct parts, before => do
    let opened ← openConstruct construct before
    let (count, listing, behind) ← compileParts (limit construct) 0 parts opened
    let (emissions, after) ← closeConstruct construct parts.length count before behind
    return (listing ++ [(⟨.construct construct, parts.length, behind⟩, emissions)], after)
  | .call callee site args, before => do
    let (first, compiler) ← compile callee before
    let (argc, listing, behind) ← compileParts .none 0 args compiler.takePending
    let taken := compiler.pendingCallee site
    let own := callee.callee site before
    return (first ++ listing ++ [(⟨.call site taken own, args.length, behind⟩,
      callOperands site taken own args.length argc)], behind)

/-- The loop over the parts of a construct, with the count so far. -/
def compileParts (limit : Limit) (count : UInt8) :
    List Code → Compiler → Except CompileError (UInt8 × Listing × Compiler)
  | [], compiler => .ok (count, [], compiler)
  | part :: parts, compiler => do
    refuse (limit = .beforeElement ∧ count = 255) .tooManyElements
    let (listing, compiler) ← compile part compiler
    refuse (limit = .afterElement ∧ count = 255) .tooManyElements
    let (count, others, compiler) ← compileParts limit (count + 1) parts compiler
    return (count, listing ++ others, compiler)

end

/-!
# The tables of the functions that are being compiled

A table has at most 64 locals and 64 captured variables, so that every slot and every index is
read as it is. A variable of an enclosing function is captured exactly if every function between
has it in its table or has room in it.
-/

open List Option
open Bindings (findLocal maxUpvalues)
open Fallible (bind_eq_ok refuse_eq_ok)

theorem findLocal_lt {name : Name} {locals : List Local} {found : ℕ × Local}
    (isFound : findLocal name locals = some found) : found.1 < locals.length := by
  induction locals with
  | nil => simp [findLocal] at isFound
  | cons last others ih =>
    rw [findLocal] at isFound
    split at isFound
    · cases isFound
      exact lt_succ_self _
    · exact lt_succ_of_lt (ih isFound)

theorem resolveLocal_lt {scope : FuncInfo} {name : Name} {slot : ℕ}
    (resolved : scope.resolveLocal name = some slot) : slot < scope.locals.length := by
  rw [FuncInfo.resolveLocal, map_eq_some_iff] at resolved
  rcases resolved with ⟨found, isFound, rfl⟩
  exact findLocal_lt isFound

/-- A table is within its limits, and so is whatever it points at. -/
structure Small (scope : FuncInfo) : Prop where
  locals : scope.locals.length ≤ 64
  upvalues : scope.upvalues.length ≤ 64
  indices : ∀ upvalue ∈ scope.upvalues, upvalue.index < 64

theorem Small.empty : Small FuncInfo.empty := by
  constructor
  · exact zero_le _
  · exact zero_le _
  · intro upvalue mem
    cases mem

section

variable {scope : FuncInfo} (small : Small scope)
include small

theorem Small.resolveLocal {name : Name} {slot : ℕ}
    (resolved : scope.resolveLocal name = some slot) : slot < 64 :=
  lt_of_lt_of_le (resolveLocal_lt resolved) small.locals

theorem Small.cleanupLocals (base : ℕ) : Small (scope.cleanupLocals base) := by
  constructor
  · exact le_trans (by simp [FuncInfo.cleanupLocals]) small.locals
  · exact small.upvalues
  · exact small.indices

theorem Small.defineLocal {after : FuncInfo} {name : Name} {isConst : Bool}
    (defined : scope.defineLocal name isConst = .ok after) : Small after := by
  rcases bind_eq_ok.mp defined with ⟨_, room, defined⟩
  rcases bind_eq_ok.mp defined with ⟨_, _, defined⟩
  cases defined
  have room : ¬maxLocals ≤ scope.locals.length := refuse_eq_ok.mp room
  constructor
  · exact Nat.lt_of_not_le room
  · exact small.upvalues
  · exact small.indices

end

theorem small_enterScope {params : List Local} {returns : List Name} {scope : FuncInfo}
    (entered : enterScope params returns = .ok scope) :
    Small scope ∧ params.length + returns.length ≤ 64 := by
  rcases bind_eq_ok.mp entered with ⟨_, fewParams, entered⟩
  rcases bind_eq_ok.mp entered with ⟨_, fewLocals, entered⟩
  rcases bind_eq_ok.mp entered with ⟨_, _, entered⟩
  cases entered
  have fewParams : ¬maxLocals < params.length := refuse_eq_ok.mp fewParams
  have fewLocals : ¬(returns ≠ [] ∧ maxLocals < (params ++ returns.map fun name =>
      (⟨name, false⟩ : Local)).length) := refuse_eq_ok.mp fewLocals
  have total : params.length + returns.length ≤ 64 := by
    by_cases unnamed : returns = []
    · subst unnamed
      exact Nat.le_of_not_lt fewParams
    · have within := Nat.le_of_not_lt fun tooMany => fewLocals ⟨unnamed, tooMany⟩
      simpa [maxLocals] using within
  refine ⟨⟨?_, zero_le _, ?_⟩, total⟩
  · rw [length_reverse, length_append, length_map]
    exact total
  · intro upvalue mem
    cases mem

section Capturing

variable {name : Name} {scope after : FuncInfo} {enclosing others : List FuncInfo}
  {upvalue : Upvalue} {found : Option ℕ} {index : ℕ}

/-- Where an entry is in a table, or where it is added. -/
def slotOf (scope : FuncInfo) (upvalue : Upvalue) : ℕ :=
  (scope.upvalues.idxOf? upvalue).getD scope.upvalues.length

/-- A table has an entry, or room for it. -/
def Takes (scope : FuncInfo) (upvalue : Upvalue) : Prop :=
  upvalue ∈ scope.upvalues ∨ scope.upvalues.length < maxUpvalues

theorem addUpvalue_fst : (scope.addUpvalue upvalue).1.isSome ↔ Takes scope upvalue := by
  unfold FuncInfo.addUpvalue Takes
  cases position : scope.upvalues.idxOf? upvalue with
  | some index =>
    have mem : upvalue ∈ scope.upvalues := by
      by_contra absent
      rw [List.idxOf?_eq_none_iff.mpr absent] at position
      cases position
    simp [mem]
  | none =>
    have absent : upvalue ∉ scope.upvalues := List.idxOf?_eq_none_iff.mp position
    by_cases full : maxUpvalues ≤ scope.upvalues.length
    · simp [absent, full]
    · simp [full, Nat.lt_of_not_le full]

theorem addUpvalue_eq (added : (scope.addUpvalue upvalue).1 = some index) :
    index = slotOf scope upvalue := by
  unfold FuncInfo.addUpvalue at added
  unfold slotOf
  cases position : scope.upvalues.idxOf? upvalue with
  | some slot =>
    rw [position] at added
    cases added
    rfl
  | none =>
    rw [position] at added
    by_cases full : maxUpvalues ≤ scope.upvalues.length
    · simp [full] at added
    · simp only [full, if_false, some.injEq] at added
      rw [← added]
      rfl

theorem Small.addUpvalue (small : Small scope) (low : upvalue.index < 64) :
    Small (scope.addUpvalue upvalue).2 ∧
      ∀ index, (scope.addUpvalue upvalue).1 = some index → index < 64 := by
  unfold FuncInfo.addUpvalue
  cases position : scope.upvalues.idxOf? upvalue with
  | some slot =>
    refine ⟨small, ?_⟩
    rintro index same
    cases same
    have inside := (List.idxOf?_eq_some_iff.mp position).1
    exact lt_of_lt_of_le inside small.upvalues
  | none =>
    by_cases full : maxUpvalues ≤ scope.upvalues.length
    · simp only [full, if_true]
      exact ⟨small, by simp⟩
    · simp only [full, if_false]
      have room : scope.upvalues.length < 64 := Nat.lt_of_not_le full
      refine ⟨⟨small.locals, ?_, ?_⟩, ?_⟩
      · rw [length_append, length_singleton]
        exact room
      · intro other mem
        rcases mem_append.mp mem with old | new
        · exact small.indices other old
        · rw [mem_singleton.mp new]
          exact low
      · rintro index same
        cases same
        exact room

/-- The entry for a variable of an enclosing function. -/
def entryOf (name : Name) : List FuncInfo → Option Upvalue
  | [] => none
  | around :: outer =>
    match around.resolveLocal name with
    | some slot => some ⟨name, slot, false⟩
    | none => (entryOf name outer).map fun upvalue => ⟨name, slotOf around upvalue, true⟩

/-- Every function from one to those around the local of a name takes the variable. -/
def HasRoom (name : Name) : FuncInfo → List FuncInfo → Prop
  | _, [] => True
  | scope, around :: outer =>
    (∀ upvalue, entryOf name (around :: outer) = some upvalue → Takes scope upvalue) ∧
      (around.resolveLocal name = none → HasRoom name around outer)

theorem isSome_entryOf :
    (entryOf name enclosing).isSome = (resolveUpvalueConst name enclosing).isSome := by
  induction enclosing with
  | nil => rfl
  | cons around outer ih =>
    rw [entryOf, resolveUpvalueConst]
    cases isConst : around.resolveLocalConst name with
    | none =>
      rw [Bindings.resolveLocal_eq_none_iff.mpr isConst]
      simpa using ih
    | some isConst' =>
      cases isLocal : around.resolveLocal name with
      | none =>
        rw [Bindings.resolveLocal_eq_none_iff.mp isLocal] at isConst
        cases isConst
      | some slot => rfl

theorem resolveUpvalue_eq (resolved : (resolveUpvalue name scope enclosing).1 = some index) :
    ∃ upvalue, entryOf name enclosing = some upvalue ∧ index = slotOf scope upvalue := by
  induction enclosing generalizing scope index with
  | nil => cases resolved
  | cons around outer ih =>
    rw [resolveUpvalue] at resolved
    rw [entryOf]
    cases isLocal : around.resolveLocal name with
    | some slot =>
      simp only [isLocal] at resolved
      exact ⟨_, rfl, addUpvalue_eq resolved⟩
    | none =>
      simp only [isLocal] at resolved
      cases result : resolveUpvalue name around outer with
      | mk parent rest =>
        rcases rest with ⟨between, outer'⟩
        cases parent with
        | none => simp [result] at resolved
        | some parent =>
          have atParent : (resolveUpvalue name around outer).1 = some parent := by
            rw [result]
          rcases ih atParent with ⟨upvalue, entry, rfl⟩
          simp only [result] at resolved
          exact ⟨_, by rw [entry]; rfl, addUpvalue_eq resolved⟩

/-- A variable of an enclosing function is captured exactly if there is room for it. -/
theorem isSome_resolveUpvalue_iff (exists_entry : (entryOf name enclosing).isSome) :
    (resolveUpvalue name scope enclosing).1.isSome ↔ HasRoom name scope enclosing := by
  induction enclosing generalizing scope with
  | nil => cases exists_entry
  | cons around outer ih =>
    rw [resolveUpvalue, HasRoom]
    rw [entryOf] at exists_entry
    rw [entryOf]
    cases isLocal : around.resolveLocal name with
    | some slot => simp [addUpvalue_fst]
    | none =>
      simp only [isLocal, isSome_map] at exists_entry
      have atParent : (resolveUpvalue name around outer).1.isSome ↔ HasRoom name around outer :=
        ih exists_entry
      simp only [forall_const]
      cases result : resolveUpvalue name around outer with
      | mk parent rest =>
        rcases rest with ⟨between, outer'⟩
        rw [result] at atParent
        cases parent with
        | none =>
          simp only [isSome_none, Bool.false_eq_true, false_iff] at atParent ⊢
          exact fun both => atParent both.2
        | some parent =>
          have hasRoom := atParent.mp rfl
          have resolved : (resolveUpvalue name around outer).1 = some parent := by
            rw [result]
          rcases resolveUpvalue_eq resolved with ⟨upvalue, entry, rfl⟩
          simp [addUpvalue_fst, entry, hasRoom]

variable (name) in
theorem Small.resolveUpvalue (small : Small scope)
    (enclosing_small : ∀ around ∈ enclosing, Small around) :
    Small (resolveUpvalue name scope enclosing).2.1 ∧
      (∀ around ∈ (Bindings.resolveUpvalue name scope enclosing).2.2, Small around) ∧
      ∀ index, (Bindings.resolveUpvalue name scope enclosing).1 = some index → index < 64 := by
  induction enclosing generalizing scope with
  | nil =>
    refine ⟨small, ?_, ?_⟩
    · intro around mem
      cases mem
    · intro index same
      cases same
  | cons around outer ih =>
    have around_small := enclosing_small around mem_cons_self
    have outer_small : ∀ other ∈ outer, Small other :=
      fun other mem => enclosing_small other (mem_cons_of_mem _ mem)
    rw [Bindings.resolveUpvalue]
    cases isLocal : around.resolveLocal name with
    | some slot =>
      have low : (⟨name, slot, false⟩ : Upvalue).index < 64 := around_small.resolveLocal isLocal
      exact ⟨(small.addUpvalue low).1, enclosing_small, (small.addUpvalue low).2⟩
    | none =>
      have atParent := ih around_small outer_small
      cases result : Bindings.resolveUpvalue name around outer with
      | mk parent rest =>
        rcases rest with ⟨between, outer'⟩
        rw [result] at atParent
        rcases atParent with ⟨between_small, outer'_small, parent_low⟩
        have all : ∀ other ∈ between :: outer', Small other := by
          intro other mem
          rcases mem_cons.mp mem with rfl | mem
          · exact between_small
          · exact outer'_small other mem
        cases parent with
        | none => exact ⟨small, all, by simp⟩
        | some parent =>
          have low : (⟨name, parent, true⟩ : Upvalue).index < 64 := parent_low parent rfl
          exact ⟨(small.addUpvalue low).1, all, (small.addUpvalue low).2⟩

end Capturing

end Gengo.Operands
