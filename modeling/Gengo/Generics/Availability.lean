import Gengo.Dataflow.Definite
import Gengo.Generics.TypeSpec

/-!
# Where instantiated types are defined

The compiler is a single pass. It emits the definition of an instantiated type in place,
where it first meets the type, and from then on only reads it. Here a program is what bears
on this: the places where instantiated types occur, their aliases, and the control flow
around them. A read is preceded by the definition on every path exactly when the first
occurrence is not in a branch, a loop or a function that the read is outside of.
-/

namespace Gengo.Generics

open Dataflow

/-- `G[A]`: a generic type and its arguments. -/
structure Inst where
  tname : Text
  args : List TypeExpr

/-- A program, as far as it is about instantiated types. -/
inductive Code
  | none
  /-- A type: of a parameter, a result, a field, an element. -/
  | occurrence (type : TypeExpr)
  /-- `var x G[A]`, with the zero value. -/
  | zeroVar (inst : Inst)
  /-- `G[A]{…}`. -/
  | literal (inst : Inst)
  /-- `type name G[A]`. -/
  | aliasDecl (name : Text) (inst : Inst)
  /-- `name{…}`, for an alias. -/
  | aliasLiteral (name : Text)
  /-- `name`, where it is the global of an alias. -/
  | aliasValue (name : Text)
  | seq (first second : Code)
  | ifElse (cond thenBlock elseBlock : Code)
  /-- `and`, `or` and `??`. -/
  | shortCircuit (left right : Code)
  /-- The loops; what comes after the body is compiled in front of it. -/
  | loop (cond post body : Code)
  /-- One case of a `switch`, and the cases after it. -/
  | switchCase (test guard body rest : Code)
  /-- A function, a closure, a `defer` block. -/
  | func (body : Code)
  | testBlock (body : Code)

/-- What the compiler has met: instantiations, and aliases with their targets. -/
structure CompileState where
  cache : List InstCacheEntry
  aliases : List (Text × Text)

namespace CompileState

/-- Nothing has been met. -/
def empty : CompileState :=
  ⟨[], []⟩

/-- `getTypeAlias`. -/
def getTypeAlias (state : CompileState) (name : Text) : Option Text :=
  (state.aliases.find? fun entry => entry.1 == name).map Prod.snd

/-- `addTypeAlias`. -/
def addTypeAlias (state : CompileState) (name target : Text) : CompileState :=
  { state with aliases := state.aliases ++ [(name, target)] }

end CompileState

/-- The compiler's options, and the types it knows. -/
structure Compiler where
  registry : Registry
  /-- `getGenericType`. -/
  getGenericType : Text → Template
  testMode : Bool
  tname_getGenericType : ∀ tname, (getGenericType tname).tname = tname

namespace Compiler

variable (c : Compiler)

/-- The specifications of the arguments of an instantiation. -/
def argSpecs (inst : Inst) : List FieldTypeSpec :=
  parseFieldTypeSpecs c.registry inst.args

/-- `argsHaveTypeParam`: the instantiation is put off, unless it stands in a literal. -/
def putsOff (inst : Inst) : Bool :=
  argsHaveTypeParam (c.argSpecs inst)

mutual

/-- The instantiations that `parseFieldTypeSpec` makes of a type, in its order: those among the
arguments of an instantiation come before it. -/
def made : TypeExpr → List Inst
  | .prim _ | .declared _ | .param _ => []
  | .optional type => made type
  | .array elem => made elem
  | .map key value => made key ++ made value
  | .func params returns => madeAll params ++ madeAll returns
  | .inst tname args => madeAll args ++ if c.putsOff ⟨tname, args⟩ then [] else [⟨tname, args⟩]

def madeAll : List TypeExpr → List Inst
  | [] => []
  | type :: rest => made type ++ madeAll rest

end

/-- The instantiations that an expression makes which names one. -/
def madeBy (inst : Inst) : List Inst :=
  c.madeAll inst.args ++ [inst]

/-- `applyGenericInst`, to the cache of a state. -/
def applyInst (inst : Inst) (state : CompileState) : InstCacheEntry × List InstCacheEntry :=
  applyGenericInst c.registry (c.getGenericType inst.tname) (c.argSpecs inst) state.cache

/-- The state after an instantiation. -/
def addInst (inst : Inst) (state : CompileState) : CompileState :=
  { state with cache := (c.applyInst inst state).2 }

def addInsts (insts : List Inst) (state : CompileState) : CompileState :=
  insts.foldl (fun state inst => c.addInst inst state) state

/-- The name of the global that an expression reads which names an instantiation: the arguments
are compiled first. -/
def nameOf (inst : Inst) (state : CompileState) : Text :=
  (c.applyInst inst (c.addInsts (c.madeAll inst.args) state)).1.qname

/-- An instantiation emits the definition when it is the first, or inside of a function for the
type parameters of that. -/
def emitsDefinition (inFunc : Bool) (inst : Inst) (state : CompileState) : Bool :=
  (getCachedInst state.cache (buildInstKey inst.tname (c.argSpecs inst))).isNone ||
    (c.putsOff inst && inFunc)

/-- The code of `applyGenericInst`. -/
def emitInst (inFunc : Bool) (inst : Inst) (state : CompileState) : Region Text :=
  if c.emitsDefinition inFunc inst state then .define (c.applyInst inst state).1.qname else .none

/-- The code of instantiations, one after another. -/
def emitInsts (inFunc : Bool) : List Inst → CompileState → Region Text
  | [], _ => .none
  | inst :: rest, state =>
    .seq (c.emitInst inFunc inst state) (emitInsts inFunc rest (c.addInst inst state))

/-- The code of a program, and what the compiler has met after it. A type with type parameters
among its arguments is put off, but for a literal. A test block is compiled as a function in
test mode, and for nothing otherwise. -/
def compile : Bool → Code → CompileState → Region Text × CompileState
  | _, .none, state => (.none, state)
  | inFunc, .occurrence type, state =>
    (c.emitInsts inFunc (c.made type) state, c.addInsts (c.made type) state)
  | inFunc, .zeroVar inst, state =>
    if c.putsOff inst then
      (c.emitInsts inFunc (c.madeAll inst.args) state, c.addInsts (c.madeAll inst.args) state)
    else
      (.seq (c.emitInsts inFunc (c.madeBy inst) state) (.read (c.nameOf inst state)),
      c.addInsts (c.madeBy inst) state)
  | inFunc, .literal inst, state =>
    (.seq (c.emitInsts inFunc (c.madeBy inst) state) (.read (c.nameOf inst state)),
    c.addInsts (c.madeBy inst) state)
  | inFunc, .aliasDecl name inst, state =>
    (.seq (c.emitInsts inFunc (c.madeBy inst) state)
      (if inFunc then .none else .define (qualifyTypeName c.registry.modulePrefix name)),
    (c.addInsts (c.madeBy inst) state).addTypeAlias name (c.nameOf inst state))
  | _, .aliasLiteral name, state =>
    match state.getTypeAlias name with
    | some target => (.read target, state)
    | none => (.none, state)
  | _, .aliasValue name, state => (.read (qualifyTypeName c.registry.modulePrefix name), state)
  | inFunc, .seq first second, state =>
    let front := compile inFunc first state
    let back := compile inFunc second front.2
    (.seq front.1 back.1, back.2)
  | inFunc, .ifElse cond thenBlock elseBlock, state =>
    let test := compile inFunc cond state
    let taken := compile inFunc thenBlock test.2
    let skipped := compile inFunc elseBlock taken.2
    (.seq test.1 (.branch taken.1 skipped.1), skipped.2)
  | inFunc, .shortCircuit left right, state =>
    let front := compile inFunc left state
    let back := compile inFunc right front.2
    (.seq front.1 (.branch back.1 .none), back.2)
  | inFunc, .loop cond post body, state =>
    let test := compile inFunc cond state
    let next := compile inFunc post test.2
    let round := compile inFunc body next.2
    (.loop test.1 next.1 round.1, round.2)
  | inFunc, .switchCase test guard body rest, state =>
    let matched := compile inFunc test state
    let guarded := compile inFunc guard matched.2
    let block := compile inFunc body guarded.2
    let others := compile inFunc rest block.2
    (.seq matched.1 (.branch (.seq guarded.1 (.branch block.1 others.1)) others.1), others.2)
  | _, .func body, state =>
    let inner := compile true body state
    (.closure inner.1, inner.2)
  | _, .testBlock body, state =>
    if c.testMode then
      let inner := compile true body state
      (.closure inner.1, inner.2)
    else (.none, state)

/-- What the compiler has met after a program. -/
def met : Code → CompileState → CompileState
  | .none, state | .aliasLiteral _, state | .aliasValue _, state => state
  | .occurrence type, state => c.addInsts (c.made type) state
  | .zeroVar inst, state =>
    c.addInsts (if c.putsOff inst then c.madeAll inst.args else c.madeBy inst) state
  | .literal inst, state => c.addInsts (c.madeBy inst) state
  | .aliasDecl name inst, state =>
    (c.addInsts (c.madeBy inst) state).addTypeAlias name (c.nameOf inst state)
  | .seq first second, state | .shortCircuit first second, state => met second (met first state)
  | .ifElse first second third, state | .loop first second third, state =>
    met third (met second (met first state))
  | .switchCase test guard body rest, state => met rest (met body (met guard (met test state)))
  | .func body, state => met body state
  | .testBlock body, state => if c.testMode then met body state else state

/-- One of these instantiations emits the definition of a global. -/
def Defined (name : Text) (inFunc : Bool) : List Inst → CompileState → Prop
  | [], _ => False
  | inst :: rest, state =>
    (c.emitsDefinition inFunc inst state ∧ (c.applyInst inst state).1.qname = name) ∨
      Defined name inFunc rest (c.addInst inst state)

/-- The definition of a global stands here on every path: an occurrence that emits it. -/
def Surely (name : Text) : Bool → Code → CompileState → Prop
  | _, .none, _ | _, .aliasLiteral _, _ | _, .aliasValue _, _ | _, .func _, _
  | _, .testBlock _, _ => False
  | inFunc, .occurrence type, state => c.Defined name inFunc (c.made type) state
  | inFunc, .zeroVar inst, state =>
    c.Defined name inFunc (if c.putsOff inst then c.madeAll inst.args else c.madeBy inst) state
  | inFunc, .literal inst, state => c.Defined name inFunc (c.madeBy inst) state
  | inFunc, .aliasDecl aliasName inst, state =>
    c.Defined name inFunc (c.madeBy inst) state ∨
      (inFunc = false ∧ qualifyTypeName c.registry.modulePrefix aliasName = name)
  | inFunc, .seq first second, state =>
    Surely name inFunc first state ∨ Surely name inFunc second (c.met first state)
  | inFunc, .ifElse cond thenBlock elseBlock, state =>
    Surely name inFunc cond state ∨
      (Surely name inFunc thenBlock (c.met cond state) ∧
        Surely name inFunc elseBlock (c.met thenBlock (c.met cond state)))
  | inFunc, .shortCircuit left _, state => Surely name inFunc left state
  | inFunc, .loop cond _ _, state => Surely name inFunc cond state
  | inFunc, .switchCase test guard body rest, state =>
    Surely name inFunc test state ∨
      ((Surely name inFunc guard (c.met test state) ∨
        (Surely name inFunc body (c.met guard (c.met test state)) ∧
          Surely name inFunc rest (c.met body (c.met guard (c.met test state))))) ∧
        Surely name inFunc rest (c.met body (c.met guard (c.met test state))))

/-- Each read has an occurrence in front of it that emits the definition and is on every path to
the read: not in a branch, a loop or a function that the read is outside of. -/
def Covered : Bool → Code → CompileState → (Text → Prop) → Prop
  | _, .none, _, _ | _, .occurrence _, _, _ | _, .aliasDecl _ _, _, _ => True
  | inFunc, .zeroVar inst, state, known =>
    c.putsOff inst ∨ known (c.nameOf inst state) ∨
      c.Defined (c.nameOf inst state) inFunc (c.madeBy inst) state
  | inFunc, .literal inst, state, known =>
    known (c.nameOf inst state) ∨ c.Defined (c.nameOf inst state) inFunc (c.madeBy inst) state
  | _, .aliasLiteral name, state, known => ∀ target ∈ state.getTypeAlias name, known target
  | _, .aliasValue name, _, known => known (qualifyTypeName c.registry.modulePrefix name)
  | inFunc, .seq first second, state, known =>
    Covered inFunc first state known ∧ Covered inFunc second (c.met first state) fun name =>
        known name ∨ c.Surely name inFunc first state
  | inFunc, .ifElse cond thenBlock elseBlock, state, known =>
    let after := fun name => known name ∨ c.Surely name inFunc cond state
    Covered inFunc cond state known ∧ Covered inFunc thenBlock (c.met cond state) after ∧
      Covered inFunc elseBlock (c.met thenBlock (c.met cond state)) after
  | inFunc, .shortCircuit left right, state, known =>
    Covered inFunc left state known ∧ Covered inFunc right (c.met left state) fun name =>
        known name ∨ c.Surely name inFunc left state
  | inFunc, .loop cond post body, state, known =>
    let after := fun name => known name ∨ c.Surely name inFunc cond state
    Covered inFunc cond state known ∧ Covered inFunc post (c.met cond state) after ∧
      Covered inFunc body (c.met post (c.met cond state)) after
  | inFunc, .switchCase test guard body rest, state, known =>
    let tested := fun name => known name ∨ c.Surely name inFunc test state
    Covered inFunc test state known ∧ Covered inFunc guard (c.met test state) tested ∧
      (Covered inFunc body (c.met guard (c.met test state)) fun name =>
        tested name ∨ c.Surely name inFunc guard (c.met test state)) ∧
      Covered inFunc rest (c.met body (c.met guard (c.met test state))) tested
  | _, .func body, state, known => Covered true body state known
  | _, .testBlock body, state, known => c.testMode → Covered true body state known

variable {c}

theorem compile_snd (inFunc : Bool) (code : Code) (state : CompileState) :
    (c.compile inFunc code state).2 = c.met code state := by
  induction code generalizing inFunc state with
  | none => rfl
  | zeroVar _ | aliasLiteral _ =>
    rw [compile, met]
    split <;> rfl
  | occurrence type => rfl
  | literal inst => rfl
  | aliasDecl name inst => rfl
  | aliasValue name => rfl
  | seq _ _ firstHypothesis secondHypothesis | shortCircuit _ _ firstHypothesis secondHypothesis =>
    rw [compile, met, secondHypothesis, firstHypothesis]
  | ifElse _ _ _ condHypothesis thenHypothesis elseHypothesis
  | loop _ _ _ condHypothesis thenHypothesis elseHypothesis =>
    rw [compile, met, elseHypothesis, thenHypothesis, condHypothesis]
  | switchCase test guard body rest testHypothesis guardHypothesis bodyHypothesis
      restHypothesis =>
      rw [compile, met, restHypothesis, bodyHypothesis, guardHypothesis, testHypothesis]
  | func body bodyHypothesis => exact bodyHypothesis true state
  | testBlock body bodyHypothesis =>
    rw [compile, met]
    split
    · exact bodyHypothesis true state
    · rfl

theorem defines_emitInsts {inFunc : Bool} {insts : List Inst} {state : CompileState}
    {name : Text} :
    (c.emitInsts inFunc insts state).Defines name ↔ c.Defined name inFunc insts state := by
  induction insts generalizing state with
  | nil => exact .rfl
  | cons inst rest ih =>
    rw [emitInsts, Defined, Region.Defines, ih, emitInst]
    refine or_congr_left ?_
    split
    · rename_i emits
      exact (and_iff_right emits).symm
    · rename_i silent
      exact iff_of_false id fun both => silent both.1

theorem definite_emitInsts {inFunc : Bool} {insts : List Inst} {state : CompileState}
    {known : Text → Prop} : (c.emitInsts inFunc insts state).Definite known := by
  induction insts generalizing state known with
  | nil => trivial
  | cons inst rest ih =>
    refine ⟨?_, ih⟩
    rw [emitInst]
    split <;> trivial

/-- The code that is emitted defines a global on every path exactly when an occurrence does. -/
theorem defines_compile (name : Text) (inFunc : Bool) (code : Code) (state : CompileState) :
    (c.compile inFunc code state).1.Defines name ↔ c.Surely name inFunc code state := by
  induction code generalizing inFunc state with
  | none | aliasValue _ | func _ _ => exact .rfl
  | occurrence type => exact defines_emitInsts
  | zeroVar inst =>
    rw [compile, Surely]
    split
    · exact defines_emitInsts
    · rw [Region.Defines, defines_emitInsts]
      exact or_iff_left id
  | literal inst =>
    rw [compile, Region.Defines, defines_emitInsts]
    exact or_iff_left id
  | aliasDecl aliasName inst =>
    rw [compile, Surely, Region.Defines, defines_emitInsts]
    refine or_congr_right ?_
    split
    · rename_i inside
      exact iff_of_false id fun both => by simp [inside] at both
    · rename_i outside
      exact (and_iff_right (eq_false_of_ne_true outside)).symm
  | aliasLiteral _ | testBlock _ _ =>
    rw [compile]
    split <;> exact .rfl
  | seq first second firstHypothesis secondHypothesis =>
    rw [compile, Surely, Region.Defines, firstHypothesis, secondHypothesis, compile_snd]
  | ifElse cond thenBlock elseBlock condHypothesis thenHypothesis elseHypothesis =>
    rw [compile, Surely, Region.Defines, Region.Defines, condHypothesis, thenHypothesis,
      elseHypothesis, compile_snd, compile_snd]
  | shortCircuit left right leftHypothesis rightHypothesis =>
    rw [compile, Surely, Region.Defines, leftHypothesis]
    exact or_iff_left And.right
  | loop cond post body condHypothesis postHypothesis bodyHypothesis =>
    exact condHypothesis inFunc state
  | switchCase test guard body rest testHypothesis guardHypothesis bodyHypothesis
      restHypothesis =>
      rw [compile, Surely]
      simp only [Region.Defines, testHypothesis, guardHypothesis, bodyHypothesis, restHypothesis,
        compile_snd]

theorem known_compile (known : Text → Prop) (inFunc : Bool) (code : Code) (state : CompileState) :
    (fun name => known name ∨ (c.compile inFunc code state).1.Defines name) =
      fun name => known name ∨ c.Surely name inFunc code state := by
  funext name
  rw [defines_compile]

/-- The reads of the code that is emitted are definite exactly when they are covered. -/
theorem definite_compile (inFunc : Bool) (code : Code) (state : CompileState)
    (known : Text → Prop) :
    (c.compile inFunc code state).1.Definite known ↔ c.Covered inFunc code state known := by
  induction code generalizing inFunc state known with
  | none | aliasValue _ => exact .rfl
  | occurrence type => exact iff_of_true definite_emitInsts trivial
  | zeroVar inst =>
    rw [compile, Covered]
    split
    · rename_i putOff
      exact iff_of_true definite_emitInsts (.inl putOff)
    · rename_i concrete
      rw [Region.Definite, and_iff_right definite_emitInsts, or_iff_right concrete,
        Region.Definite, defines_emitInsts]
  | literal inst =>
    rw [compile, Covered, Region.Definite, and_iff_right definite_emitInsts, Region.Definite,
      defines_emitInsts]
  | aliasDecl name inst =>
    rw [compile, Region.Definite, and_iff_right definite_emitInsts]
    split <;> exact .rfl
  | aliasLiteral name =>
    rw [compile, Covered]
    split
    · rename_i target found
      simp [Region.Definite, found]
    · rename_i missing
      simp [Region.Definite, missing]
  | seq first second firstHypothesis secondHypothesis =>
    rw [compile, Covered, Region.Definite, known_compile, firstHypothesis, secondHypothesis,
      compile_snd]
  | ifElse cond thenBlock elseBlock condHypothesis thenHypothesis elseHypothesis =>
    rw [compile, Covered, Region.Definite, Region.Definite, known_compile, condHypothesis,
      thenHypothesis, elseHypothesis, compile_snd, compile_snd]
  | shortCircuit left right leftHypothesis rightHypothesis =>
    rw [compile, Covered, Region.Definite, Region.Definite, known_compile, leftHypothesis,
      rightHypothesis, compile_snd]
    exact and_congr_right fun _ => and_iff_left trivial
  | loop cond post body condHypothesis postHypothesis bodyHypothesis =>
    rw [compile, Covered, Region.Definite, known_compile, condHypothesis, bodyHypothesis,
      postHypothesis, compile_snd, compile_snd]
    exact and_congr_right fun _ => and_comm
  | switchCase test guard body rest testHypothesis guardHypothesis bodyHypothesis
      restHypothesis =>
      simp only [compile, Covered, Region.Definite, defines_compile, compile_snd, testHypothesis,
        guardHypothesis, bodyHypothesis, restHypothesis]
      constructor
      · rintro ⟨tested, ⟨guarded, block, -⟩, others⟩
        exact ⟨tested, guarded, block, others⟩
      · rintro ⟨tested, guarded, block, others⟩
        refine ⟨tested, ⟨guarded, block, ?_⟩, others⟩
        -- The other cases come after a failed guard, too.
        exact (restHypothesis inFunc _ _).mp
          (((restHypothesis inFunc _ _).mpr others).mono fun _ => .inl)
  | func body bodyHypothesis => exact bodyHypothesis true state known
  | testBlock body bodyHypothesis =>
    rw [compile, Covered]
    split
    · rename_i testing
      rw [imp_iff_right testing]
      exact bodyHypothesis true state known
    · rename_i skipped
      exact iff_of_true trivial fun testing => absurd testing skipped

/-- In the code that is emitted for a program each read comes after the definition of what it
reads, on every path. -/
def EachReadPreceded (c : Compiler) (code : Code) : Prop :=
  ∀ events after ended, Path (c.compile false code .empty).1 [] events after ended →
    ∀ front name back, events = front ++ .read name :: back → .define name ∈ front

/-- Each read of an instantiated type is preceded by the definition on every path exactly when
it is covered. -/
theorem eachReadPreceded_iff (code : Code) :
    c.EachReadPreceded code ↔ c.Covered false code .empty fun _ => False := by
  have same : ∀ {events : List (Event Text)}, Preceded (fun _ => False) events ↔
      ∀ front name back, events = front ++ .read name :: back → .define name ∈ front := by
    intro events
    rw [preceded_iff]
    simp only [Known, false_or]
  rw [← definite_compile, definite_iff, EachReadPreceded]
  simp only [same]

end Compiler

/-- Instantiated types are defined wherever any program uses them. -/
def TypesAvailable : Prop :=
  ∀ (c : Compiler) (code : Code), c.EachReadPreceded code

/-- A function that is never called, and the same instantiation behind it:
`func f() { b := Box[int]{val: 1} }` and `c := Box[int]{val: 2}`. -/
def uncalledFirst : Code :=
  .seq (.func (.literal ⟨box.tname, [.prim .int]⟩)) (.literal ⟨box.tname, [.prim .int]⟩)

/-- The compiler of a program whose generic types have one field, of the parameter's type. -/
def boxCompiler : Compiler where
  registry := structRegistry
  getGenericType tname := { box with tname }
  testMode := false
  tname_getGenericType _ := rfl

theorem not_typesAvailable : ¬TypesAvailable := by
  intro available
  have path : Path (boxCompiler.compile false uncalledFirst .empty).1 []
      ([] ++ ([] ++ [.read (instQname [] box.tname [[.prim .int]])])) _ _ :=
    .seq .closure (.seq (.seq .none .none) .read)
  have defined := available boxCompiler uncalledFirst _ _ _ path [] _ [] rfl
  cases defined

end Gengo.Generics
