import Gengo.Bindings.Registered

/-!
# Functions, constants and imports are written once

An assignment and the declaration of a variable ask the registry whether the name is a constant
or a function, and the registry has every constant and function of the unit. The other
statements that store to a global do not ask, and nobody is told of the bindings of imports.
-/

namespace Gengo.Bindings

open List Nat
open Bytecode (dot literal append_dot_inj)
open Fallible (bind_eq_ok refuse_eq_ok)

namespace Session

variable (session : Session)

/-- A constant or a function of the same unit, which the tables of the session have not lost. -/
def Guards (old : Store) : Prop :=
  old.unit = session.compiler.unit ∧
    (old.writer = .const ∨ old.writer = .func ∧ old.name ∉ session.lostFuncs)

/-- What is bound to the name for good is a constant or a function that the checks find. -/
def Guarded (name : Name) : Prop :=
  session.Emits → ∀ old ∈ session.stores, old.name = name → old.writer.immutable →
    session.Guards old

/-- The name is not found in a function, or there is no room to capture it. -/
def SetsGlobal (name : Name) : Prop :=
  session.compiler.scope.resolveLocal name = none ∧ (session.compiler.resolveOuter name).1 = none

/-- A declaration of a variable here is a global. -/
def DeclaresGlobal : Prop :=
  ¬(session.compiler.inFunc ∨ session.compiler.inLoopInit ∨ 0 < session.compiler.loopBodyDepth)

/-- The condition on a step: a function, a constant or an import is bound to a name that was not
stored to; an assignment goes to a global that the checks find to be immutable if it is, and to
no immutable one in place of a variable that it has no room to capture; so does the declaration
of a variable; and every other statement stores to a global that is not immutable. A
declaration that the checks refuse is no step of a run, whatever is asked of it here. -/
def Meets : Act → Prop
  | .assign name =>
    session.SetsGlobal name →
      session.Guarded (session.compiler.qualifyGlobalName name) ∧
      (resolveUpvalueConst name session.compiler.enclosing ≠ none →
        session.Free (session.compiler.qualifyGlobalName name))
  | .assignLoopVar name =>
    session.SetsGlobal name → session.Free (session.compiler.qualifyGlobalName name)
  | .multiBind name =>
    (session.compiler.inFunc → session.SetsGlobal name) →
      session.Free (session.compiler.qualifyGlobalName name)
  | .multiAssignScratch => session.Free multiAssignValueScratch
  | .exportLoopVar name | .bindPayload _ name | .typeDecl _ name =>
    ¬session.compiler.inFunc → session.Free (session.compiler.qualifyGlobalName name)
  | .varDecl isConst isImport _ name =>
    session.DeclaresGlobal →
      if isConst ∨ isImport then session.Fresh (session.compiler.qualifyGlobalName name)
      else session.Guarded (session.compiler.qualifyGlobalName name)
  | .namedFuncDecl name =>
    ¬session.compiler.inFunc → session.Fresh (session.compiler.qualifyGlobalName name)
  | .methodDecl receiver name => ¬session.compiler.inFunc → session.Fresh (receiver ++ dot :: name)
  | .instantiate qname => session.Free qname
  | .testDecl => session.Free (testName session.compiler.testCount)
  | .endModule => session.importers ≠ [] → session.Free session.compiler.modulePrefix
  | _ => True

instance (old : Store) : Decidable (session.Guards old) :=
  inferInstanceAs (Decidable (_ ∧ _))

instance (name : Name) : Decidable (session.Guarded name) :=
  inferInstanceAs (Decidable (_ → _))

end Session

section Checks

variable {session : Session} {name : Ident}

theorem Session.Guarded.free (valid : Valid session)
    (guarded : session.Guarded (session.compiler.qualifyGlobalName name))
    (noConst : ¬session.compiler.registry.hasGlobalConst name)
    (noFunc : session.Emits →
      ¬session.compiler.registry.hasGlobalFunc (session.compiler.qualifyGlobalName name))
    (noReplConst : ¬session.checkGlobalIsConst name) :
    session.Free (session.compiler.qualifyGlobalName name) := by
  have knows := valid.knows session.compiler mem_cons_self
  intro emits old member same isImmutable
  rcases guarded emits old member same isImmutable with ⟨unit, isConst | ⟨isFunc, kept⟩⟩
  · rcases knows.consts old member unit isConst with ⟨name', isName, found⟩
    rw [session.compiler.qualifyGlobalName_injective (isName.symm.trans same)] at found
    rcases found with found | found
    · exact noConst found
    · exact noReplConst found
  · rcases knows.funcs old member unit isFunc with found | lost
    · rw [same] at found
      exact noFunc emits found
    · exact kept lost

theorem Session.ensureMutableBinding_spec (checked : session.ensureMutableBinding name = .ok ())
    (noLocal : session.compiler.scope.resolveLocal name = none)
    (noOuter : resolveUpvalueConst name session.compiler.enclosing = none) :
    ¬session.compiler.registry.hasGlobalConst name ∧
      ¬session.compiler.registry.hasGlobalFunc (session.compiler.qualifyGlobalName name) ∧
      ¬session.checkGlobalIsConst name := by
  rw [Session.ensureMutableBinding, resolveLocal_eq_none_iff.mp noLocal, noOuter] at checked
  rcases bind_eq_ok.mp checked with ⟨_, noConst, checked⟩
  rcases bind_eq_ok.mp checked with ⟨_, noFunc, checked⟩
  exact ⟨refuse_eq_ok.mp noConst, refuse_eq_ok.mp noFunc, refuse_eq_ok.mp checked⟩

end Checks

section Steps

variable {session after : Session}

theorem sameUnit_resolveOuter (compiler : Compiler) (name : Name) :
    SameUnit compiler (compiler.resolveOuter name).2 := by
  constructor
  · rfl
  · rfl
  · rfl

section

variable (valid : Valid session)
include valid

theorem Valid.withScope (scope : FuncInfo) : Valid (session.withScope scope) := by
  apply valid.sameUnit
  constructor
  · rfl
  · rfl
  · rfl

theorem Valid.defineLocal {name : Name} {isConst : Bool}
    (defined : session.defineLocal name isConst = .ok after) : Valid after := by
  rcases bind_eq_ok.mp defined with ⟨scope, _, same⟩
  cases same
  exact valid.withScope scope

theorem Valid.emitSetVar {name : Name}
    (free : session.SetsGlobal name → session.Free (session.compiler.qualifyGlobalName name)) :
    Valid (session.emitSetVar name) := by
  rw [Session.emitSetVar]
  cases isLocal : session.compiler.scope.resolveLocal name with
  | some _ => exact valid
  | none =>
    have same := sameUnit_resolveOuter session.compiler name
    have captured := valid.sameUnit same
    cases isOuter : (session.compiler.resolveOuter name).1 with
    | some _ => simpa [isOuter] using captured
    | none =>
      have clean := (free ⟨isLocal, isOuter⟩).clean .assignment (by decide)
      rw [← same.qualifyGlobalName] at clean
      simpa [isOuter] using captured.emitStore clean (by decide)

theorem Valid.assignStmt {name : Ident} (meets : session.Meets (.assign name))
    (assigned : session.assignStmt name = .ok after) : Valid after := by
  rcases bind_eq_ok.mp assigned with ⟨⟨⟩, checked, set⟩
  cases set
  apply valid.emitSetVar
  intro isGlobal
  rcases meets isGlobal with ⟨guarded, crowded⟩
  by_cases noOuter : resolveUpvalueConst name session.compiler.enclosing = none
  · rcases session.ensureMutableBinding_spec checked isGlobal.1 noOuter with
      ⟨noConst, noFunc, noReplConst⟩
    exact guarded.free valid noConst (fun _ => noFunc) noReplConst
  · exact crowded noOuter

theorem Valid.bindPayload {guarded : Bool} {name : Ident}
    (meets : session.Meets (.bindPayload guarded name))
    (bound : session.bindPayload guarded name = .ok after) : Valid after := by
  rw [Session.bindPayload] at bound
  split at bound
  · split at bound
    · rcases bind_eq_ok.mp bound with ⟨between, first, second⟩
      exact (valid.defineLocal first).defineLocal second
    · exact valid.defineLocal bound
  · rename_i topLevel
    cases bound
    exact valid.emitStore ((meets topLevel).clean _ (by decide)) (by decide)

theorem Valid.storeConst {name : Ident} {registry : TypeRegistry} (emits : session.Emits)
    (fresh : session.Fresh (session.compiler.qualifyGlobalName name)) (noFunc :
      ¬session.compiler.registry.hasGlobalFunc (session.compiler.qualifyGlobalName name))
    (added : session.compiler.registry.addGlobalConst name = .ok registry) :
    Valid ((session.emitStore .const (session.compiler.qualifyGlobalName name)).withRegistry
      registry) := by
  have knows := valid.knows session.compiler mem_cons_self
  have noFuncName : ¬session.compiler.registry.hasGlobalFunc name := by
    by_cases isRoot : session.compiler.modulePrefix = []
    · rwa [Compiler.qualifyGlobalName, if_pos isRoot] at noFunc
    · exact fun found => name.2 (knows.dotted name found isRoot)
  have spec := TypeRegistry.addGlobalConst_spec added noFuncName
  rw [Session.emitStore, if_pos emits]
  apply valid.store rfl (fresh.clean .const emits)
  constructor
  · intro old member sameUnit isConst
    rcases mem_append.mp member with before | isNew
    · rcases knows.consts old before sameUnit isConst with ⟨name', isName, found | lineConst⟩
      · exact ⟨name', isName, .inl ((spec name').1.mpr (.inl found))⟩
      · exact ⟨name', isName, .inr lineConst⟩
    · rcases mem_singleton.mp isNew with rfl
      exact ⟨name, rfl, .inl ((spec name).1.mpr (.inr rfl))⟩
  · intro old member sameUnit isFunc
    rcases mem_append.mp member with before | isNew
    · rcases knows.funcs old before sameUnit isFunc with found | lost
      · exact .inl ((spec old.name).2.mpr found)
      · exact .inr lost
    · rcases mem_singleton.mp isNew with rfl
      cases isFunc
  · intro other found
    rcases (spec other).1.mp found with before | rfl
    · rcases knows.stored other before with ⟨undotted, old, member, same⟩
      exact ⟨undotted, old, mem_append_left _ member, same⟩
    · exact ⟨name.2, _, mem_append_right _ mem_cons_self, rfl⟩
  · intro other found
    exact knows.dotted other ((spec other).2.mp found)

theorem Valid.storeFunc {name : Name} {registry : TypeRegistry} (emits : session.Emits)
    (fresh : session.Fresh name) (dotted : session.compiler.modulePrefix ≠ [] → dot ∈ name)
    (noFunc : ¬session.compiler.registry.hasGlobalFunc name)
    (added : session.compiler.registry.addGlobalFunc name = .ok registry) :
    Valid ((session.withRegistry registry).emitStore .func name) := by
  have knows := valid.knows session.compiler mem_cons_self
  have noConst : ¬session.compiler.registry.hasGlobalConst name := by
    intro found
    rcases knows.stored name found with ⟨undotted, old, member, same⟩
    by_cases isRoot : session.compiler.modulePrefix = []
    · rw [Compiler.qualifyGlobalName, if_pos isRoot] at same
      exact fresh emits old member same
    · exact undotted (dotted isRoot)
  have spec := TypeRegistry.addGlobalFunc_spec added noConst noFunc
  rw [Session.emitStore,
    if_pos (show (session.withRegistry registry).compiler.skippingTestBody = 0 from emits)]
  apply valid.store rfl (fresh.clean .func emits)
  constructor
  · intro old member sameUnit isConst
    rcases mem_append.mp member with before | isNew
    · rcases knows.consts old before sameUnit isConst with ⟨name', isName, found | lineConst⟩
      · exact ⟨name', isName, .inl ((spec name').1.mpr found)⟩
      · exact ⟨name', isName, .inr lineConst⟩
    · rcases mem_singleton.mp isNew with rfl
      cases isConst
  · intro old member sameUnit isFunc
    rcases mem_append.mp member with before | isNew
    · rcases knows.funcs old before sameUnit isFunc with found | lost
      · exact .inl ((spec old.name).2.mpr (.inl found))
      · exact .inr lost
    · rcases mem_singleton.mp isNew with rfl
      exact .inl ((spec name).2.mpr (.inr rfl))
  · intro other found
    rcases knows.stored other ((spec other).1.mp found) with ⟨undotted, old, member, same⟩
    exact ⟨undotted, old, mem_append_left _ member, same⟩
  · intro other found isModule
    rcases (spec other).2.mp found with before | rfl
    · exact knows.dotted other before isModule
    · exact dotted isModule

theorem Valid.varDecl {isConst isImport selfRefers : Bool} {name : Ident}
    (meets : session.Meets (.varDecl isConst isImport selfRefers name))
    (declared : session.varDecl isConst isImport selfRefers name = .ok after) : Valid after := by
  rw [Session.varDecl] at declared
  split at declared
  · split at declared
    · cases declared
      exact valid
    · exact valid.defineLocal declared
  · rename_i isGlobal
    have meets := meets isGlobal
    rcases bind_eq_ok.mp declared with ⟨⟨⟩, noConst, declared⟩
    rcases bind_eq_ok.mp declared with ⟨⟨⟩, noReplConst, declared⟩
    rcases bind_eq_ok.mp declared with ⟨⟨⟩, noFunc, declared⟩
    rw [refuse_eq_ok] at noConst noReplConst noFunc
    have noFunc := not_and.mp noFunc
    cases isConst with
    | true =>
      have fresh : session.Fresh (session.compiler.qualifyGlobalName name) := meets
      by_cases emits : session.Emits
      · rw [if_pos ⟨emits, rfl⟩] at declared
        rcases bind_eq_ok.mp declared with ⟨registry, added, same⟩
        cases same
        rw [Session.emitStore, if_pos emits] at added
        exact valid.storeConst emits fresh (noFunc emits) added
      · rw [if_neg fun both => emits both.1] at declared
        cases declared
        rw [Session.emitStore, if_neg emits]
        exact valid
    | false =>
      rw [if_neg fun both => Bool.false_ne_true both.2] at declared
      cases declared
      cases isImport with
      | true =>
        have fresh : session.Fresh (session.compiler.qualifyGlobalName name) := meets
        exact valid.emitStore (fresh.clean .importBinding) (by decide)
      | false =>
        have guarded : session.Guarded (session.compiler.qualifyGlobalName name) := meets
        have free := guarded.free valid
          (fun found => noConst ⟨Bool.false_ne_true, found⟩) noFunc noReplConst
        exact valid.emitStore (free.clean _ (by decide)) (by decide)

theorem Valid.funcDecl {localName globalName : Name}
    (fresh : ¬session.compiler.inFunc → session.Fresh globalName)
    (dotted : session.compiler.modulePrefix ≠ [] → dot ∈ globalName)
    (declared : session.funcDecl localName globalName = .ok after) : Valid after := by
  rw [Session.funcDecl] at declared
  split at declared
  · exact valid.defineLocal declared
  · rename_i topLevel
    split at declared
    · rename_i emits
      rcases bind_eq_ok.mp declared with ⟨⟨⟩, noFunc, declared⟩
      rcases bind_eq_ok.mp declared with ⟨registry, added, same⟩
      cases same
      exact valid.storeFunc emits (fresh topLevel) dotted (refuse_eq_ok.mp noFunc) added
    · rename_i skipped
      cases declared
      rw [Session.emitStore, if_neg skipped]
      exact valid

end

theorem dot_mem_qualifyGlobalName {compiler : Compiler} (isModule : compiler.modulePrefix ≠ [])
    (name : Name) : dot ∈ compiler.qualifyGlobalName name := by
  rw [Compiler.qualifyGlobalName, if_neg isModule]
  simp

section

variable (valid : Valid session)
include valid

theorem Valid.beginModule (modulePrefix : Name) : Valid (session.beginModule modulePrefix) := by
  constructor
  · exact valid.once
  · rintro other member
    rcases mem_cons.mp member with rfl | waiting
    · constructor
      · intro old member sameUnit
        exact absurd sameUnit (valid.stored old member).ne
      · intro old member sameUnit
        exact absurd sameUnit (valid.stored old member).ne
      · exact fun _ found => absurd found not_mem_nil
      · exact fun _ found => absurd found not_mem_nil
    · exact valid.knows other waiting
  · apply nodup_cons.mpr
    constructor
    · intro member
      rcases mem_map.mp member with ⟨other, waiting, same⟩
      exact (valid.begun other waiting).ne same
    · exact valid.units
  · rintro other member
    rcases mem_cons.mp member with rfl | waiting
    · exact lt_succ_self _
    · exact lt_succ_of_lt (valid.begun other waiting)
  · exact fun old member => lt_succ_of_lt (valid.stored old member)
  · rintro other member isRoot
    rcases mem_cons.mp member with rfl | waiting
    · have begun := valid.begun session.compiler mem_cons_self
      exact absurd isRoot (ne_of_gt (zero_lt_of_lt begun))
    · exact valid.root other waiting isRoot

theorem Valid.endModule (meets : session.Meets .endModule) : Valid session.endModule := by
  rw [Session.endModule]
  cases waiting : session.importers with
  | nil => exact valid
  | cons importer importers =>
    have free := meets (by rw [waiting]; exact cons_ne_nil _ _)
    have emitted := valid.emitStore (free.clean .moduleObject (by decide)) (by decide)
    have same : (session.emitStore .moduleObject session.compiler.modulePrefix).importers =
        importer :: importers := by
      rw [← waiting, Session.emitStore]
      split
      · rfl
      · rfl
    have units := emitted.units
    rw [map_cons, same] at units
    have among : ∀ other ∈ importer :: importers, other ∈
        (session.emitStore .moduleObject session.compiler.modulePrefix).compiler ::
          (session.emitStore .moduleObject session.compiler.modulePrefix).importers := by
      intro other member
      rw [same]
      exact mem_cons_of_mem _ member
    constructor
    · exact emitted.once
    · exact fun other member => emitted.knows other (among other member)
    · exact (nodup_cons.mp units).2
    · exact fun other member => emitted.begun other (among other member)
    · exact emitted.stored
    · exact fun other member => emitted.root other (among other member)

/-- The tables of the session have the constants of the lines before, and of their functions
those that are not lost. -/
theorem Valid.nextLine (kept : List Name) : Valid (session.nextLine kept) := by
  rw [Session.nextLine]
  split
  · rename_i isRoot
    have knows := valid.knows session.compiler mem_cons_self
    constructor
    · exact valid.once
    · rintro other member
      rcases mem_cons.mp member with rfl | waiting
      · constructor
        · intro old member sameUnit isConst
          rcases knows.consts old member (sameUnit.trans isRoot.symm) isConst with
            ⟨name, isName, found | ⟨_, known⟩⟩
          · refine ⟨name, ?_, .inr ⟨rfl, mem_append_right _ ?_⟩⟩
            · rwa [Compiler.qualifyGlobalName, if_pos (valid.root _ mem_cons_self isRoot)] at isName
            · exact mem_map.mpr ⟨_, mem_filter.mpr ⟨found, rfl⟩, rfl⟩
          · refine ⟨name, ?_, .inr ⟨rfl, mem_append_left _ known⟩⟩
            rwa [Compiler.qualifyGlobalName, if_pos (valid.root _ mem_cons_self isRoot)] at isName
        · intro old member sameUnit isFunc
          rcases knows.funcs old member (sameUnit.trans isRoot.symm) isFunc with found | lost
          · by_cases comesBack : (⟨old.name, false⟩ : Symbol) ∈
                (kept.foldl TypeRegistry.restoreGlobalFunc TypeRegistry.empty).buckets
            · exact .inl comesBack
            · right
              apply mem_append_right
              apply mem_map.mpr
              refine ⟨⟨old.name, false⟩, mem_filter.mpr ⟨found, ?_⟩, rfl⟩
              exact decide_eq_true ⟨Bool.false_ne_true, comesBack⟩
          · exact .inr (mem_append_left _ lost)
        · intro name found
          exact absurd (hasGlobalConst_of_restored kept found) not_mem_nil
        · intro name found isModule
          exact absurd rfl isModule
      · exact (valid.knows other (mem_cons_of_mem _ waiting)).extend _ _
    · have units := valid.units
      rw [map_cons] at units ⊢
      rwa [isRoot] at units
    · rintro other member
      rcases mem_cons.mp member with rfl | waiting
      · exact isRoot ▸ valid.begun session.compiler mem_cons_self
      · exact valid.begun other (mem_cons_of_mem _ waiting)
    · exact valid.stored
    · rintro other member isRoot'
      rcases mem_cons.mp member with rfl | waiting
      · rfl
      · exact valid.root other (mem_cons_of_mem _ waiting) isRoot'
  · exact valid

theorem Valid.leaveFunc : Valid session.leaveFunc := by
  rw [Session.leaveFunc]
  split
  · exact valid
  · apply valid.sameUnit
    constructor
    · rfl
    · rfl
    · rfl

theorem Valid.emitGetVar (name : Name) : Valid (session.emitGetVar name) := by
  rw [Session.emitGetVar]
  split
  · exact valid
  · exact valid.sameUnit (sameUnit_resolveOuter session.compiler name)

/-- A step that meets the condition keeps the invariant. -/
theorem Valid.perform {act : Act} (meets : session.Meets act)
    (performed : perform session act = .ok after) : Valid after := by
  cases act with
  | enterFunc params returns =>
    rcases bind_eq_ok.mp performed with ⟨_, _, performed⟩
    rcases bind_eq_ok.mp performed with ⟨scope, _, same⟩
    cases same
    exact valid.sameUnit ⟨rfl, rfl, rfl⟩
  | leaveFunc =>
    cases performed
    exact valid.leaveFunc
  | defineLocal name isConst => exact valid.defineLocal performed
  | cleanupLocals base =>
    cases performed
    exact valid.withScope _
  | enterLoopInit | leaveLoopInit | enterLoopBody | leaveLoopBody | skipTestBody | endTestBody =>
    cases performed
    exact valid.sameUnit ⟨rfl, rfl, rfl⟩
  | getVar name =>
    cases performed
    exact valid.emitGetVar name
  | assign name => exact valid.assignStmt meets performed
  | assignLoopVar name =>
    cases performed
    exact valid.emitSetVar meets
  | multiBind name =>
    cases performed
    rw [Session.multiBindStmt]
    split
    · exact valid.emitSetVar fun isGlobal => meets fun _ => isGlobal
    · rename_i topLevel
      have free := meets fun inFunc => absurd inFunc topLevel
      exact valid.emitStore (free.clean _ (by decide)) (by decide)
  | multiAssignScratch | instantiate qname =>
    cases performed
    exact valid.emitStore (Session.Free.clean meets _ (by decide)) (by decide)
  | exportLoopVar name =>
    cases performed
    rw [Session.exportLoopVar]
    split
    · exact valid
    · rename_i topLevel
      exact valid.emitStore ((meets topLevel).clean _ (by decide)) (by decide)
  | bindPayload guarded name => exact valid.bindPayload meets performed
  | varDecl isConst isImport selfRefers name => exact valid.varDecl meets performed
  | namedFuncDecl name =>
    exact valid.funcDecl meets (fun isModule => dot_mem_qualifyGlobalName isModule name) performed
  | methodDecl receiver name => exact valid.funcDecl meets (fun _ => by simp) performed
  | typeDecl isSubtype name =>
    rw [Gengo.Bindings.perform, Session.typeDecl] at performed
    split at performed
    · exact valid.defineLocal performed
    · rename_i topLevel
      rcases bind_eq_ok.mp performed with ⟨_, _, same⟩
      cases same
      exact valid.emitStore ((meets topLevel).clean _ (by decide)) (by decide)
  | testDecl =>
    cases performed
    have counted : Valid { session with
        compiler := { session.compiler with testCount := session.compiler.testCount + 1 } } :=
      valid.sameUnit ⟨rfl, rfl, rfl⟩
    exact counted.emitStore (Session.Free.clean meets _ (by decide)) (by decide)
  | beginModule modulePrefix =>
    cases performed
    exact valid.beginModule modulePrefix
  | endModule =>
    cases performed
    exact valid.endModule meets
  | nextLine kept =>
    cases performed
    exact valid.nextLine kept

end

theorem valid_init : Valid Session.init := by
  constructor
  · exact List.Pairwise.nil
  · rintro other member
    rcases mem_singleton.mp member with rfl
    constructor
    · exact fun _ member => absurd member not_mem_nil
    · exact fun _ member => absurd member not_mem_nil
    · exact fun _ found => absurd found not_mem_nil
    · exact fun _ found => absurd found not_mem_nil
  · decide
  · rintro other member
    rcases mem_singleton.mp member with rfl
    exact Nat.zero_lt_one
  · exact fun _ member => absurd member not_mem_nil
  · rintro other member _
    rcases mem_singleton.mp member with rfl
    rfl

theorem valid_of_run (run : Run Session.Meets session) : Valid session := by
  induction run with
  | init => exact valid_init
  | step _ _ meets performed ih =>
    exact ih.perform meets performed

end Steps

/-- Functions, constants and imports are written once in every state of a run whose steps meet
the condition. -/
theorem writtenOnce_of_run {session : Session} (run : Run Session.Meets session) :
    WrittenOnce session.stores :=
  (valid_of_run run).once

/-- `func f() {}`, `const c = 1`, `x := 2`, and on the next line `x = 3`. -/
theorem writtenOnce_lines : ∃ session, Run Session.Meets session ∧ WrittenOnce session.stores ∧
    session.stores.map Store.writer = [.func, .const, .variable, .assignment] := by
  have func : Run Session.Meets _ :=
    .step (.namedFuncDecl ⟨literal "f", by decide⟩) .init
      (fun _ => (by decide : Session.Fresh _ _)) rfl
  have const : Run Session.Meets _ :=
    .step (.varDecl true false false ⟨literal "c", by decide⟩) func
      (fun _ => (by decide : Session.Fresh _ _)) rfl
  have declared : Run Session.Meets _ :=
    .step (.varDecl false false false ⟨literal "x", by decide⟩) const
      (fun _ => (by decide : Session.Guarded _ _)) rfl
  have line : Run Session.Meets _ := .step (.nextLine [literal "f"]) declared trivial rfl
  have assignment : Run Session.Meets _ :=
    .step (.assign ⟨literal "x", by decide⟩) line
      (fun _ => (by decide : Session.Guarded _ _ ∧ (_ → Session.Free _ _))) rfl
  exact ⟨_, assignment, writtenOnce_of_run assignment, rfl⟩

/-- No accepted program or session writes over a function, a constant or an import. -/
def Immutable : Prop :=
  ∀ session, Run (fun _ _ => True) session → WrittenOnce session.stores

/-- `std := import("std")` and `std = 5`. -/
theorem not_immutable : ¬Immutable := by
  intro immutable
  have once := immutable _
    (.step (.assign ⟨literal "std", by decide⟩)
      (.step (.varDecl false true false ⟨literal "std", by decide⟩) .init trivial rfl) trivial rfl)
  exact absurd once (by decide)

end Gengo.Bindings
