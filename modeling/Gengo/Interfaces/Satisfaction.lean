import Gengo.Interfaces.Dispatch

/-!
# Interfaces and calls

A value is meant to satisfy an interface exactly when a call finds each of its methods with the
signature that the interface asks for. The test for an interface takes a method for the wanted one
that has one parameter fewer, when the first wanted parameter is `any`, and it does not look where
calls look after the type of the value.
-/

namespace Gengo.Interfaces

open Generics (Text)

/-- A global is a method with the parameters behind the receiver and the results of a method of an
interface. Of a native function only the number of its arguments is known. -/
def Global.Provides (wanted : InterfaceMethod) : Global → Prop
  | .function signature | .closure signature => wanted.signature.Same signature
  | .nativeFunction arity => arity = wanted.signature.params.length + 1
  | .interfaceType _ | .other => False

/-- A global is a method that has all wanted parameters but the first, which is `any`. -/
def Global.OneFewer (wanted : InterfaceMethod) : Global → Prop
  | .function signature | .closure signature => wanted.signature.OneFewer signature
  | .nativeFunction _ | .interfaceType _ | .other => False

/-- Calls of all methods of an interface find methods with the signatures of the interface. -/
def Implements (globals : Globals) (v : Value) (methods : List InterfaceMethod) : Prop :=
  ∀ method ∈ methods, ∃ func,
    resolveMethodReceiver globals method.name v = .ok (.passRecv func) ∧ func.Provides method

section Methods

variable (globals : Globals) (v : Value) (tname : Text) (method : InterfaceMethod)

/-- The type of a value has the method. -/
def Provided : Prop :=
  ∃ func, resolveQualifiedReceiverMethod globals tname method.name = .ok func ∧ func.Provides method

/-- The type of a value has the method without its first parameter. -/
def Overcounted : Prop :=
  ∃ func, resolveQualifiedReceiverMethod globals tname method.name = .ok func ∧ func.OneFewer method

/-- The type of a value has nothing of that name, and what calls find after it is the method. -/
def Overlooked : Prop :=
  resolveQualifiedReceiverMethod globals tname method.name = .error .unknownMethod ∧
    ∃ func, firstDeclared globals method.name v.laterNames = some func ∧ func.Provides method

end Methods

variable {globals : Globals} {v : Value} {tname iname : Text} {method : InterfaceMethod}
  {methods : List InterfaceMethod}

theorem Signature.not_same_and_oneFewer {wanted found : Signature} :
    ¬(wanted.Same found ∧ wanted.OneFewer found) := by
  rintro ⟨same, fewer⟩
  have lengths := length_eq_of_specsEqual same.2.1
  have lengths' := length_eq_of_specsEqual fewer.2.1
  rw [List.length_cons] at lengths'
  omega

theorem Overcounted.not_provided (overcounted : Overcounted globals tname method) :
    ¬Provided globals tname method := by
  rintro ⟨func, found, provides⟩
  rcases overcounted with ⟨func', found', fewer⟩
  cases found.symm.trans found'
  cases func with
  | function _ | closure _ => exact Signature.not_same_and_oneFewer ⟨provides, fewer⟩
  | _ => exact fewer

theorem Overlooked.not_provided (overlooked : Overlooked globals v tname method) :
    ¬Provided globals tname method := by
  rintro ⟨func, found, _⟩
  cases overlooked.1.symm.trans found

theorem Overlooked.not_overcounted (overlooked : Overlooked globals v tname method) :
    ¬Overcounted globals tname method := by
  rintro ⟨func, found, _⟩
  cases overlooked.1.symm.trans found

theorem matchesMethod_iff :
    matchesMethod globals tname method = true ↔
      Provided globals tname method ∨ Overcounted globals tname method := by
  unfold matchesMethod Provided Overcounted resolveQualifiedReceiverMethod
  split
  · simp
  · cases found : globals (methodKey tname method.name) with
    | none => simp
    | some func =>
      cases func with
      | function _ | closure _ =>
        simp [interfaceMethodMatches_iff, Global.Provides, Global.OneFewer]
      | nativeFunction arity =>
        simp [Global.Provides, Global.OneFewer, InterfaceMethod.spec, Shape.ofParams]
      | _ => simp [Global.Provides, Global.OneFewer]

/-- What a call of one method of an interface finds. -/
theorem resolves_iff (typed : v.typeName = some tname) :
    (∃ func, resolveMethodReceiver globals method.name v = .ok (.passRecv func) ∧
        func.Provides method) ↔
      Provided globals tname method ∨ Overlooked globals v tname method := by
  simp only [resolveMethodReceiver_iff typed, firstDeclared_cons, Provided, Overlooked]
  cases resolveQualifiedReceiverMethod globals tname method.name with
  | ok func => simp
  | error err => cases err <;> simp

/-- When each member has one of three exclusive properties, two tests that each take one of the
last two for the first agree if these occur both or neither. -/
theorem forall_or_agree_iff {α : Type} {members : List α} {first second third : α → Prop}
    (apart : ∀ item, second item → ¬first item) (apart' : ∀ item, third item → ¬first item)
    (apart'' : ∀ item, third item → ¬second item) :
    ((∀ item ∈ members, first item ∨ second item) ↔ ∀ item ∈ members, first item ∨ third item) ↔
      (∃ item ∈ members, ¬first item ∧ ¬second item ∧ ¬third item) ∨
        ((∃ item ∈ members, second item) ↔ ∃ item ∈ members, third item) := by
  by_cases lacks : ∃ item ∈ members, ¬first item ∧ ¬second item ∧ ¬third item
  · rcases lacks with ⟨item, mem, lacking⟩
    have refused : ¬∀ item ∈ members, first item ∨ second item :=
      fun all => (all item mem).elim lacking.1 lacking.2.1
    have refused' : ¬∀ item ∈ members, first item ∨ third item :=
      fun all => (all item mem).elim lacking.1 lacking.2.2
    exact iff_of_true (iff_of_false refused refused') (.inl ⟨item, mem, lacking⟩)
  · have covered : ∀ item ∈ members, first item ∨ second item ∨ third item := by
      intro item mem
      by_contra missed
      exact lacks ⟨item, mem, by tauto⟩
    have accepted : (∀ item ∈ members, first item ∨ second item) ↔
        ¬∃ item ∈ members, third item := by
      constructor
      · rintro all ⟨item, mem, is⟩
        exact (all item mem).elim (apart' item is) (apart'' item is)
      · intro none item mem
        rcases covered item mem with is | is | is
        · exact .inl is
        · exact .inr is
        · exact absurd ⟨item, mem, is⟩ none
    have accepted' : (∀ item ∈ members, first item ∨ third item) ↔
        ¬∃ item ∈ members, second item := by
      constructor
      · rintro all ⟨item, mem, is⟩
        exact (all item mem).elim (apart item is) fun also => apart'' item also is
      · intro none item mem
        rcases covered item mem with is | is | is
        · exact .inl is
        · exact absurd ⟨item, mem, is⟩ none
        · exact .inr is
    rw [accepted, accepted', or_iff_right lacks]
    exact not_iff_not.trans iff_comm

/-- The test for an interface agrees with calls exactly when the value lacks some method of it
altogether, or the interface has a method that the test overcounts if and only if it has one that
the test overlooks. -/
theorem matchesInterfaceType_agrees_iff (typed : v.typeName = some tname)
    (declared : globals iname = some (.interfaceType methods)) :
    (matchesInterfaceType globals v iname = true ↔ Implements globals v methods) ↔
      (∃ method ∈ methods, ¬Provided globals tname method ∧ ¬Overcounted globals tname method ∧
          ¬Overlooked globals v tname method) ∨
        ((∃ method ∈ methods, Overcounted globals tname method) ↔
          ∃ method ∈ methods, Overlooked globals v tname method) := by
  have satisfied : matchesInterfaceType globals v iname = true ↔ ∀ method ∈ methods,
      Provided globals tname method ∨ Overcounted globals tname method := by
    simp only [matchesInterfaceType, typed, declared, List.all_eq_true, matchesMethod_iff]
  have implemented : Implements globals v methods ↔ ∀ method ∈ methods,
      Provided globals tname method ∨ Overlooked globals v tname method := by
    simp only [Implements, resolves_iff typed]
  rw [satisfied, implemented]
  exact forall_or_agree_iff (fun _ => Overcounted.not_provided)
    (fun _ => Overlooked.not_provided) fun _ => Overlooked.not_overcounted

/-- `func (p P) f()`. -/
def plainMethod : Signature where
  params := []
  isVariadic := false
  returns := []
  variadicLast := nofun

/-- `f(any)`. -/
def takesAny : InterfaceMethod where
  name := ['f']
  signature := ⟨[anySpec], false, [], nofun⟩

/-- A program with the struct type `P`, its method `f`, and an interface `I` that asks for `f`
with one parameter. -/
def fewerProgram : Globals :=
  fun name =>
    if name = methodKey ['P'] ['f'] then some (.closure plainMethod)
    else if name = ['I'] then some (.interfaceType [takesAny])
    else none

/-- A struct without fields, of the type `P`. -/
def plainStruct : Value :=
  .structInstance ⟨['P'], []⟩

theorem matchesInterfaceType_agrees_fewer :
    (matchesInterfaceType fewerProgram plainStruct ['I'] = true ↔
        Implements fewerProgram plainStruct [takesAny]) ↔
      (∃ method ∈ [takesAny], ¬Provided fewerProgram ['P'] method ∧
          ¬Overcounted fewerProgram ['P'] method ∧
            ¬Overlooked fewerProgram plainStruct ['P'] method) ∨
        ((∃ method ∈ [takesAny], Overcounted fewerProgram ['P'] method) ↔
          ∃ method ∈ [takesAny], Overlooked fewerProgram plainStruct ['P'] method) :=
  matchesInterfaceType_agrees_iff rfl rfl

/-- The struct passes for the interface, and a call with an argument finds a method that takes
none. -/
theorem not_matchesInterfaceType_agrees :
    ¬∀ (globals : Globals) (v : Value) (tname iname : Text) (methods : List InterfaceMethod),
      v.typeName = some tname → globals iname = some (.interfaceType methods) →
        (matchesInterfaceType globals v iname = true ↔ Implements globals v methods) := by
  intro agrees
  have satisfied : matchesInterfaceType fewerProgram plainStruct ['I'] = true := by decide
  have implemented := (agrees fewerProgram plainStruct ['P'] ['I'] [takesAny] rfl rfl).mp satisfied
  rcases implemented takesAny (by simp) with ⟨func, resolved, provides⟩
  have found : resolveMethodReceiver fewerProgram ['f'] plainStruct =
      .ok (.passRecv (.closure plainMethod)) := rfl
  cases found.symm.trans resolved
  exact absurd provides.2.1 (by decide)

end Gengo.Interfaces
