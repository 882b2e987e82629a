import Gengo.Operands.Tables
import Mathlib.Data.Nat.Bitwise

/-!
# When operands are faithful

The parsers of array, map and struct literals, of deferred calls and of lists of results refuse
what does not fit into a byte, and tables are limited. The parsers of the arguments of other calls
refuse nothing. One of their operations keeps a flag in the same byte, so that a count is read as
it is up to 127, and up to 255 for the others. A full table takes a variable for a global, a
module may have one export more than the byte of its object can tell, and a callee that is no name
is taken for the function whose name is the last in it.
-/

namespace Gengo.Operands

open List Nat
open Bindings (FuncInfo Local Name Upvalue maxLocals resolveUpvalueConst)
open Fallible (bind_eq_ok refuse_eq_ok mapError_eq_ok)

theorem toNat_masked (byte : UInt8) : (byte &&& 0x7F).toNat = byte.toNat % 128 := by
  rw [UInt8.toNat_and]
  exact and_two_pow_sub_one_eq_mod byte.toNat 7

theorem flagged_iff (byte : UInt8) : byte &&& 0x80 ≠ 0 ↔ 128 ≤ byte.toNat := by
  have bound := byte.toNat_lt
  have masked : (byte &&& 0x80).toNat = (byte.toNat.testBit 7).toNat * 2 ^ 7 := by
    rw [UInt8.toNat_and]
    exact and_two_pow byte.toNat 7
  have bit : byte.toNat.testBit 7 = decide (byte.toNat / 2 ^ 7 % 2 = 1) :=
    testBit_eq_decide_div_mod_eq
  constructor
  · intro flagged
    by_contra low
    have none_left : byte.toNat / 2 ^ 7 % 2 ≠ 1 := by omega
    apply flagged
    rw [← UInt8.toNat_inj, masked, bit, decide_eq_false none_left]
    rfl
  · intro high zero
    have one_left : byte.toNat / 2 ^ 7 % 2 = 1 := by omega
    rw [zero, bit, decide_eq_true one_left] at masked
    exact absurd masked (by decide)

theorem toNat_or_flag {byte : UInt8} (low : byte.toNat < 128) :
    (byte ||| 0x80).toNat = byte.toNat + 128 := by
  rw [UInt8.toNat_or, Nat.or_comm]
  have joined := two_pow_add_eq_or_of_lt (b := byte.toNat) (i := 7) (by omega) 1
  rw [mul_one] at joined
  rw [add_comm]
  exact joined.symm

variable {role : Role}

theorem decode_masked (masks : role = .call ∨ role = .captureSlot) (byte : UInt8) :
    decode role byte = (byte.toNat % 128, decide (128 ≤ byte.toNat)) := by
  rcases masks with rfl | rfl
  all_goals
    simp only [decode, toNat_masked, Prod.mk.injEq, true_and, decide_eq_decide]
    exact flagged_iff byte

theorem decode_raw (raw : role ≠ .call ∧ role ≠ .captureSlot) (byte : UInt8) :
    decode role byte = (byte.toNat, false) := by
  cases role with
  | call => exact absurd rfl raw.1
  | captureSlot => exact absurd rfl raw.2
  | _ => rfl

/-- An operand without a flag is read as it is if it fits into a byte. -/
theorem operand_faithful_iff (raw : role ≠ .call ∧ role ≠ .captureSlot) (number : ℕ) :
    (operand role number).Faithful ↔ number ≤ 255 := by
  rw [operand, Emission.Faithful, decode_raw raw, UInt8.toNat_ofNat']
  simp only [Prod.mk.injEq, and_true]
  omega

theorem operand_call_faithful_iff (number : ℕ) :
    (operand .call number).Faithful ↔ number ≤ 127 := by
  rw [operand, Emission.Faithful, decode_masked (.inl rfl), UInt8.toNat_ofNat']
  simp only [Prod.mk.injEq, decide_eq_false_iff_not]
  omega

-- 128 arguments are read as none, with the flag.
example : ¬(operand .call 128).Faithful ∧ decode .call (UInt8.ofNat 128) = (0, true) := by decide

theorem operand_faithful (raw : role ≠ .call ∧ role ≠ .captureSlot) {number : ℕ}
    (low : number < 64) : (operand role number).Faithful :=
  (operand_faithful_iff raw number).mpr (by omega)

theorem captureSlot_faithful {index : ℕ} (low : index < 64) (fromUpvalue : Bool) :
    (Emission.operand .captureSlot index fromUpvalue
      ((if fromUpvalue then 0x80 else 0) ||| UInt8.ofNat index)).Faithful := by
  have byte : (UInt8.ofNat index).toNat = index := by
    rw [UInt8.toNat_ofNat']
    omega
  rw [Emission.Faithful, decode_masked (.inr rfl)]
  cases fromUpvalue with
  | false =>
    simp only [Bool.false_eq_true, if_false, UInt8.zero_or, byte, Prod.mk.injEq,
      decide_eq_false_iff_not]
    omega
  | true =>
    rw [if_pos rfl, UInt8.or_comm, toNat_or_flag (by omega), byte]
    simp only [Prod.mk.injEq, decide_eq_true_eq]
    omega

theorem provenInByte_eq (site : CallSite) (callee : Callee) {args : ℕ} (fits : args ≤ 255) :
    site.provenInByte callee args (UInt8.ofNat args) = site.proven callee args := by
  have byte : ∀ number ≤ 255, (UInt8.ofNat number).toNat = number := by
    intro number le
    rw [UInt8.toNat_ofNat']
    omega
  unfold CallSite.provenInByte CallSite.proven
  cases callee.sig with
  | none => rfl
  | some sig =>
    have same : (List.range args).all (fun index =>
        site.argProvenForParam sig (UInt8.ofNat index).toNat (site.argInfo index)) =
        (List.range args).all (fun index =>
          site.argProvenForParam sig index (site.argInfo index)) := by
      rw [Bool.eq_iff_iff, all_eq_true, all_eq_true]
      constructor
      · intro all index mem
        have inside := mem_range.mp mem
        have proven := all index mem
        rwa [byte index (by omega)] at proven
      · intro all index mem
        have inside := mem_range.mp mem
        rw [byte index (by omega)]
        exact all index mem
    have arity : (sig.arity == UInt8.ofNat args) = (sig.arity.toNat == args) := by
      rw [Bool.eq_iff_iff, beq_iff_eq, beq_iff_eq, ← UInt8.toNat_inj, byte args fits]
    simp only [same, arity]

/-- The count and the flag in the byte of a call are read as they are exactly if the count leaves
room for the flag and the flag is that of the call's own callee. -/
theorem call_faithful_iff (site : CallSite) (taken own : Callee) (args : ℕ) :
    (Emission.operand .call args (site.proven own args)
      (if site.provenInByte taken args (UInt8.ofNat args) then UInt8.ofNat args ||| 0x80
        else UInt8.ofNat args)).Faithful ↔
      args ≤ 127 ∧ site.proven taken args = site.proven own args := by
  rw [Emission.Faithful, decode_masked (.inl rfl)]
  have byte : (UInt8.ofNat args).toNat = args % 256 := UInt8.toNat_ofNat'
  by_cases fits : args ≤ 127
  · rw [provenInByte_eq site taken (by omega), and_iff_right fits]
    have low : (UInt8.ofNat args).toNat < 128 := by omega
    have count : args % 256 % 128 = args := by omega
    cases site.proven taken args with
    | false =>
      have unflagged : decide (128 ≤ args % 256) = false := decide_eq_false (by omega)
      rw [if_neg Bool.false_ne_true, byte, count, unflagged, Prod.mk.injEq, and_iff_right rfl]
    | true =>
      have flagged : decide (128 ≤ args % 256 + 128) = true := decide_eq_true (by omega)
      have masked : (args % 256 + 128) % 128 = args := by omega
      rw [if_pos rfl, toNat_or_flag low, byte, masked, flagged, Prod.mk.injEq, and_iff_right rfl]
  · rw [Prod.mk.injEq]
    constructor
    · rintro ⟨number, _⟩
      omega
    · rintro ⟨few, _⟩
      exact absurd few fits

/-- The arguments of a call fit, up to 255, or up to 127 next to the flag; and the callee that is
taken is its own, or makes no difference. -/
def CallSite.Fits (site : CallSite) (taken own : Callee) (args : ℕ) : Prop :=
  (args ≤ if 2 ≤ own.spread then 255 else 127) ∧
    (taken = own ∨ taken.spread < 2 ∧ site.proven taken args = false)

/-- The operands of a call are faithful exactly if it fits. Another callee is only taken for one of
which nothing is known. -/
theorem callOperands_faithful_iff (site : CallSite) {taken own : Callee} (args : ℕ)
    (known : own = .unknown ∨ taken = own) :
    (∀ emission ∈ callOperands site taken own args (UInt8.ofNat args), emission.Faithful) ↔
      site.Fits taken own args := by
  unfold callOperands CallSite.Fits
  by_cases spread : 2 ≤ taken.spread
  · have argc : (operand .callSpread args).Faithful ↔ args ≤ 255 :=
      operand_faithful_iff (by simp) args
    have count (role : Role) (raw : role ≠ .call ∧ role ≠ .captureSlot) :
        (Emission.operand role own.spread.toNat false taken.spread).Faithful ↔
          taken.spread = own.spread := by
      rw [Emission.Faithful, decode_raw raw, Prod.mk.injEq, UInt8.toNat_inj]
      exact and_iff_left rfl
    have few : ¬taken.spread < 2 := UInt8.not_lt.mpr spread
    rw [operand] at argc
    rw [if_pos spread]
    have same : (args ≤ 255 ∧ taken.spread = own.spread) ↔
        (args ≤ if 2 ≤ own.spread then 255 else 127) ∧
          (taken = own ∨ taken.spread < 2 ∧ site.proven taken args = false) := by
      rcases known with rfl | rfl
      · have other : taken.spread ≠ Callee.unknown.spread := by
          intro same
          rw [same] at spread
          exact absurd spread (by decide)
        have different : taken ≠ .unknown := fun same => other (congrArg Callee.spread same)
        simp [other, different, few]
      · simp [spread]
    rw [← same]
    by_cases assigned : site.lhsCount = taken.spread
    · simp [assigned, argc, count]
    · simp [assigned, argc, count]
  · rw [if_neg spread, forall_mem_singleton, call_faithful_iff]
    have few : taken.spread < 2 := UInt8.not_le.mp spread
    rcases known with rfl | rfl
    · have unproven : site.proven .unknown args = false := rfl
      have different : ¬2 ≤ Callee.unknown.spread := by decide
      rw [unproven, if_neg different]
      refine and_congr_right fun _ => ⟨fun taken_unproven => .inr ⟨few, taken_unproven⟩, ?_⟩
      rintro (rfl | ⟨_, taken_unproven⟩)
      · rfl
      · exact taken_unproven
    · simp [spread]

/-- The tables of a compiler, and what it has written down about them, are within their limits. -/
structure Bounded (compiler : Compiler) : Prop where
  scope : Small compiler.scope
  enclosing : ∀ around ∈ compiler.enclosing, Small around
  named : compiler.namedReturnBase + compiler.namedReturnCount ≤ 64
  captured : ∀ entry ∈ compiler.captured, entry.2 < 64

theorem Bounded.init : Bounded .init := by
  constructor
  · exact Small.empty
  · intro around mem
    cases mem
  · exact zero_le _
  · intro entry mem
    cases mem

theorem Bounded.withPending {compiler : Compiler} (bounded : Bounded compiler)
    (qname : Option Name) (spreadCount : UInt8) :
    Bounded { compiler with
      pendingCallQname := qname
      pendingCallSpreadCount := spreadCount } := by
  constructor
  · exact bounded.scope
  · exact bounded.enclosing
  · exact bounded.named
  · exact bounded.captured

theorem Bounded.setPending {compiler : Compiler} (bounded : Bounded compiler) (name : Name)
    (returnCount : UInt8) (emission : Emission) :
    Bounded (compiler.setPending name returnCount emission) := by
  cases emission with
  | operand => exact bounded.withPending none 0
  | global => exact bounded.withPending (some name) returnCount

/-- The number of parts of a construct fits into the operand that it is compiled to. What is not
listed here is limited by its parser. -/
def Construct.CountFits (construct : Construct) (parts : ℕ) : Prop :=
  match construct with
  | .stdCall => parts ≤ 127
  | .methodCall true => parts + 1 ≤ 127
  | .methodCall false | .append => parts ≤ 255
  | .moduleObject exports => exports.length ≤ 255
  | _ => True

/-- Where a variable of an enclosing function is used, the tables between have room for it. -/
def Site.CaptureFits (site : Site) : Prop :=
  match site.emitter with
  | .construct (.getVar name _) | .construct (.setVar name) =>
    site.compiler.scope.resolveLocal name = none →
      (resolveUpvalueConst name site.compiler.enclosing).isSome →
        HasRoom name site.compiler.scope site.compiler.enclosing
  | _ => True

def Site.CountFits (site : Site) : Prop :=
  match site.emitter with
  | .construct construct => construct.CountFits site.parts
  | .call .. => True

/-- What is taken for the callee of a call makes no difference, and its arguments fit. -/
def Site.CallFits (site : Site) : Prop :=
  match site.emitter with
  | .construct _ => True
  | .call callSite taken own => callSite.Fits taken own site.parts

def Site.Fits (site : Site) : Prop :=
  site.CountFits ∧ site.CaptureFits ∧ site.CallFits

section Constructs

variable {compiler before after : Compiler} {emissions : List Emission}

theorem captureOf_lt {name : Name} {enclosing : List FuncInfo}
    (small : ∀ around ∈ enclosing, Small around) {entry : ℕ × ℕ}
    (found : Compiler.captureOf name enclosing = some entry) : entry.2 < 64 := by
  induction enclosing with
  | nil => cases found
  | cons around outer ih =>
    rw [Compiler.captureOf] at found
    cases isLocal : around.resolveLocal name with
    | some slot =>
      rw [isLocal] at found
      cases found
      exact (small around mem_cons_self).resolveLocal isLocal
    | none =>
      rw [isLocal] at found
      exact ih (fun other mem => small other (mem_cons_of_mem _ mem)) found

section

variable (bounded : Bounded compiler)
include bounded

/-- An access to a variable is faithful exactly if a variable of an enclosing function has room in
the tables between. -/
theorem access_spec (ofLocal ofUpvalue : Role)
    (rawLocal : ofLocal ≠ .call ∧ ofLocal ≠ .captureSlot)
    (rawUpvalue : ofUpvalue ≠ .call ∧ ofUpvalue ≠ .captureSlot) (name : Name) :
    Bounded (access ofLocal ofUpvalue name compiler).2 ∧
      ((access ofLocal ofUpvalue name compiler).1.Faithful ↔
        (compiler.scope.resolveLocal name = none →
          (resolveUpvalueConst name compiler.enclosing).isSome →
            HasRoom name compiler.scope compiler.enclosing)) := by
  unfold access
  cases isLocal : compiler.scope.resolveLocal name with
  | some slot =>
    refine ⟨bounded, ?_⟩
    simp [operand_faithful rawLocal (bounded.scope.resolveLocal isLocal)]
  | none =>
    have resolved := bounded.scope.resolveUpvalue name bounded.enclosing
    have captured : ∀ entry ∈ (Compiler.captureOf name compiler.enclosing).toList ++
        compiler.captured, entry.2 < 64 := by
      intro entry mem
      rcases mem_append.mp mem with new | old
      · exact captureOf_lt bounded.enclosing (Option.mem_toList.mp new)
      · exact bounded.captured entry old
    have room : (resolveUpvalueConst name compiler.enclosing).isSome →
        ((Bindings.resolveUpvalue name compiler.scope compiler.enclosing).1.isSome ↔
          HasRoom name compiler.scope compiler.enclosing) := by
      rw [← isSome_entryOf]
      exact isSome_resolveUpvalue_iff
    simp only [true_implies]
    cases result : Bindings.resolveUpvalue name compiler.scope compiler.enclosing with
    | mk found rest =>
      rcases rest with ⟨scope, enclosing⟩
      rw [result] at resolved room
      rcases resolved with ⟨scope_small, enclosing_small, low⟩
      cases found with
      | some index =>
        refine ⟨⟨scope_small, enclosing_small, bounded.named, captured⟩, ?_⟩
        simp only [operand_faithful rawUpvalue (low index rfl), true_iff]
        exact fun captures => (room captures).mp rfl
      | none =>
        refine ⟨⟨scope_small, enclosing_small, bounded.named, captured⟩, ?_⟩
        simp only [Emission.Faithful, Option.isSome_none, Bool.false_eq_true] at room ⊢
        constructor
        · intro absent captures
          rw [absent] at captures
          cases captures
        · intro hasRoom
          rw [← Bool.not_eq_true]
          exact fun captures => (room captures).mpr (hasRoom captures)

theorem closeCaptured_faithful (slots : List ℕ) :
    ∀ emission ∈ closeCaptured compiler slots, emission.Faithful := by
  intro emission mem
  rcases mem_map.mp mem with ⟨slot, kept, rfl⟩
  rcases mem_filter.mp kept with ⟨_, isCaptured⟩
  exact operand_faithful (by simp) (bounded.captured _ (of_decide_eq_true isCaptured))

theorem cleanupLocals_spec (base : ℕ) :
    (∀ emission ∈ (cleanupLocals base compiler).1, emission.Faithful) ∧
      Bounded (cleanupLocals base compiler).2 := by
  constructor
  · exact closeCaptured_faithful bounded _
  · constructor
    · exact bounded.scope.cleanupLocals base
    · exact bounded.enclosing
    · exact bounded.named
    · intro entry mem
      exact bounded.captured entry (mem_filter.mp mem).1

theorem emitImplicitReturn_faithful :
    ∀ emission ∈ emitImplicitReturn compiler, emission.Faithful := by
  intro emission mem
  unfold emitImplicitReturn at mem
  split at mem
  · rename_i one
    have named := bounded.named
    rw [mem_singleton.mp mem]
    exact operand_faithful (by simp) (by omega)
  · cases mem

theorem captureSlots_faithful : ∀ emission ∈ captureSlots compiler, emission.Faithful := by
  intro emission mem
  rcases mem_map.mp mem with ⟨upvalue, entry, rfl⟩
  exact captureSlot_faithful (bounded.scope.indices upvalue entry) upvalue.fromUpvalue

theorem enterFunction_spec {params : List Local} {returns : List Name}
    (entered : enterFunction params returns compiler = .ok after) : Bounded after := by
  rcases bind_eq_ok.mp entered with ⟨_, _, entered⟩
  rcases bind_eq_ok.mp entered with ⟨scope, isScope, entered⟩
  cases entered
  rcases small_enterScope (mapError_eq_ok.mp isScope) with ⟨small, named⟩
  constructor
  · exact small
  · intro around mem
    rcases mem_cons.mp mem with rfl | mem
    · exact bounded.scope
    · exact bounded.enclosing around mem
  · exact named
  · exact bounded.captured

end

theorem leaveFunction_spec (bounded_before : Bounded before) (bounded : Bounded compiler)
    (base : ℕ) :
    (∀ emission ∈ (leaveFunction base before compiler).1, emission.Faithful) ∧
      Bounded (leaveFunction base before compiler).2 := by
  rcases cleanupLocals_spec bounded base with ⟨closed, cleaned⟩
  constructor
  · intro emission mem
    rcases mem_append.mp mem with mem | mem
    · rcases mem_append.mp mem with mem | mem
      · exact closed emission mem
      · exact emitImplicitReturn_faithful cleaned emission mem
    · exact captureSlots_faithful cleaned emission mem
  · constructor
    · cases around : compiler.enclosing with
      | nil => simpa [leaveFunction, cleanupLocals, around] using bounded_before.scope
      | cons first outer =>
        have small := bounded.enclosing first (by rw [around]; exact mem_cons_self)
        simpa [leaveFunction, cleanupLocals, around] using small
    · intro other mem
      exact bounded.enclosing other (mem_of_mem_tail mem)
    · exact bounded_before.named
    · intro entry mem
      exact cleaned.captured entry (mem_filter.mp mem).1

theorem faithful_iff_of_all {site : Site} (all : ∀ emission ∈ emissions, emission.Faithful)
    (fits : site.Fits) : (∀ emission ∈ emissions, emission.Faithful) ↔ site.Fits :=
  ⟨fun _ => fits, fun _ => all⟩

theorem Bounded.withScope (bounded : Bounded compiler) {scope : FuncInfo} (small : Small scope) :
    Bounded { compiler with scope := scope } := by
  constructor
  · exact small
  · exact bounded.enclosing
  · exact bounded.named
  · exact bounded.captured

/-- What is emitted for a construct is faithful exactly if the construct fits. -/
theorem closeConstruct_spec {construct : Construct} {parts : ℕ} (bounded_before : Bounded before)
    (bounded : Bounded compiler) (limited : limit construct ≠ .none → parts ≤ 255)
    (closed : closeConstruct construct parts (UInt8.ofNat parts) before compiler =
      .ok (emissions, after)) :
    Bounded after ∧
      ((∀ emission ∈ emissions, emission.Faithful) ↔
        Site.Fits ⟨.construct construct, parts, compiler⟩) := by
  have fitting : ∀ role : Role, role ≠ .call ∧ role ≠ .captureSlot → limit construct ≠ .none →
      (Emission.operand role parts false (UInt8.ofNat parts)).Faithful :=
    fun role raw isLimited => (operand_faithful_iff raw parts).mpr (limited isLimited)
  have alone {fits : Prop} : fits ↔ True ∧ fits ∧ True := by simp
  have counted {fits : Prop} : fits ↔ fits ∧ True ∧ True := by simp
  cases construct with
  | plain | group =>
    cases closed
    exact ⟨bounded, faithful_iff_of_all (by simp) ⟨trivial, trivial, trivial⟩⟩
  | getVar name returnCount =>
    cases closed
    rcases access_spec bounded .getLocal .getUpvalue (by simp) (by simp) name with
      ⟨bounded_after, faithful⟩
    exact ⟨bounded_after.setPending name returnCount _,
      forall_mem_singleton.trans (faithful.trans alone)⟩
  | setVar name =>
    cases closed
    rcases access_spec bounded .setLocal .setUpvalue (by simp) (by simp) name with
      ⟨bounded_after, faithful⟩
    exact ⟨bounded_after, forall_mem_singleton.trans (faithful.trans alone)⟩
  | defineLocal name isConst =>
    rcases bind_eq_ok.mp closed with ⟨scope, defined, closed⟩
    cases closed
    have small := bounded.scope.defineLocal (mapError_eq_ok.mp defined)
    exact ⟨bounded.withScope small, faithful_iff_of_all (by simp) ⟨trivial, trivial, trivial⟩⟩
  | block =>
    cases closed
    rcases cleanupLocals_spec bounded before.scope.locals.length with ⟨faithful, cleaned⟩
    exact ⟨cleaned, faithful_iff_of_all faithful ⟨trivial, trivial, trivial⟩⟩
  | closeUpvalues slots =>
    cases closed
    have faithful := closeCaptured_faithful bounded slots
    exact ⟨bounded, faithful_iff_of_all faithful ⟨trivial, trivial, trivial⟩⟩
  | func params returns =>
    cases closed
    rcases leaveFunction_spec bounded_before bounded (params.length + returns.length) with
      ⟨faithful, left⟩
    exact ⟨left, faithful_iff_of_all faithful ⟨trivial, trivial, trivial⟩⟩
  | deferBlock =>
    cases closed
    rcases leaveFunction_spec bounded_before bounded 0 with ⟨faithful, left⟩
    refine ⟨left, faithful_iff_of_all ?_ ⟨trivial, trivial, trivial⟩⟩
    intro emission mem
    rcases mem_append.mp mem with mem | mem
    · exact faithful emission mem
    · rw [mem_singleton.mp mem]
      exact operand_faithful (by simp) (by omega)
  | arrayLit | mapLit | structInstanceLit | deferCall | deferMethod =>
    cases closed
    refine ⟨bounded, faithful_iff_of_all ?_ ⟨trivial, trivial, trivial⟩⟩
    exact forall_mem_singleton.mpr (fitting _ (by simp) (by simp [limit]))
  | typedArrayLit =>
    cases closed
    refine ⟨bounded, faithful_iff_of_all ?_ ⟨trivial, trivial, trivial⟩⟩
    have one : (operand .call 1).Faithful := (operand_call_faithful_iff 1).mpr (by omega)
    simpa [one] using fitting .buildArray (by simp) (by simp [limit])
  | cast =>
    cases closed
    refine ⟨bounded, faithful_iff_of_all ?_ ⟨trivial, trivial, trivial⟩⟩
    simpa using (operand_call_faithful_iff 1).mpr (by omega)
  | dunderBinaryOp =>
    cases closed
    refine ⟨bounded, faithful_iff_of_all ?_ ⟨trivial, trivial, trivial⟩⟩
    simpa using (operand_call_faithful_iff 2).mpr (by omega)
  | stdCall =>
    cases closed
    exact ⟨bounded, forall_mem_singleton.trans ((operand_call_faithful_iff parts).trans counted)⟩
  | append =>
    cases closed
    have faithful : (operand .append parts).Faithful ↔ parts ≤ 255 :=
      operand_faithful_iff (by simp) parts
    exact ⟨bounded, forall_mem_singleton.trans (faithful.trans counted)⟩
  | methodCall isStatic =>
    cases isStatic with
    | true =>
      cases closed
      have byte : UInt8.ofNat parts + 1 = UInt8.ofNat (parts + 1) := by
        rw [UInt8.ofNat_add]
        rfl
      have faithful := operand_call_faithful_iff (parts + 1)
      rw [operand, ← byte] at faithful
      exact ⟨bounded, forall_mem_singleton.trans (faithful.trans counted)⟩
    | false =>
      cases closed
      have faithful : (operand .invokeMethod parts).Faithful ↔ parts ≤ 255 :=
        operand_faithful_iff (by simp) parts
      exact ⟨bounded, forall_mem_singleton.trans (faithful.trans counted)⟩
  | deferTypeMethod isDirect =>
    have isLimited : limit (.deferTypeMethod isDirect) ≠ .none := by simp [limit]
    rcases bind_eq_ok.mp closed with ⟨_, receiver, closed⟩
    have receiver : ¬UInt8.ofNat parts = 0 := refuse_eq_ok.mp receiver
    cases isDirect with
    | true =>
      cases closed
      refine ⟨bounded, faithful_iff_of_all ?_ ⟨trivial, trivial, trivial⟩⟩
      simpa using fitting .deferCall (by simp) isLimited
    | false =>
      cases closed
      refine ⟨bounded, faithful_iff_of_all ?_ ⟨trivial, trivial, trivial⟩⟩
      cases parts with
      | zero => exact absurd rfl receiver
      | succ args =>
        have byte : UInt8.ofNat (args + 1) - 1 = UInt8.ofNat args := by
          rw [UInt8.ofNat_add]
          exact UInt8.add_sub_cancel _ _
        have faithful : (operand .deferInvokeMethod args).Faithful :=
          (operand_faithful_iff (by simp) args).mpr (le_of_succ_le (limited isLimited))
        simpa [byte, operand] using faithful
  | exprListTuple | returnList =>
    cases closed
    refine ⟨bounded, faithful_iff_of_all ?_ ⟨trivial, trivial, trivial⟩⟩
    intro emission mem
    split at mem
    · rw [mem_singleton.mp mem]
      exact fitting .buildTuple (by simp) (by simp [limit])
    · cases mem
  | namedReturn =>
    cases closed
    refine ⟨bounded, faithful_iff_of_all ?_ ⟨trivial, trivial, trivial⟩⟩
    intro emission mem
    rcases mem_append.mp mem with mem | mem
    · rcases mem_map.mp mem with ⟨slot, result, rfl⟩
      have named := bounded.named
      have inside := mem_range'_1.mp result
      exact operand_faithful (by simp) (by omega)
    · exact emitImplicitReturn_faithful bounded emission mem
  | multiBind targets spread =>
    rcases bind_eq_ok.mp closed with ⟨_, few, closed⟩
    have few : ¬maxLocals < targets := refuse_eq_ok.mp few
    have le : targets ≤ 64 := Nat.le_of_not_lt few
    cases spread with
    | true =>
      cases closed
      exact ⟨bounded, faithful_iff_of_all (by simp) ⟨trivial, trivial, trivial⟩⟩
    | false =>
      cases closed
      refine ⟨bounded, faithful_iff_of_all ?_ ⟨trivial, trivial, trivial⟩⟩
      intro emission mem
      rcases mem_cons.mp mem with rfl | mem
      · exact (operand_faithful_iff (by simp) targets).mpr (by omega)
      · rcases mem_map.mp mem with ⟨target, inside, rfl⟩
        exact operand_faithful (by simp) (by have := mem_range.mp inside; omega)
  | moduleObject exports =>
    rcases bind_eq_ok.mp closed with ⟨_, _, closed⟩
    cases closed
    have faithful : (operand .buildStructInstance exports.length).Faithful ↔ exports.length ≤ 255 :=
      operand_faithful_iff (by simp) exports.length
    exact ⟨bounded, forall_mem_singleton.trans (faithful.trans counted)⟩

end Constructs

/-- What has been listed for every construct is faithful exactly if the construct fits. -/
def Exact (listing : Listing) : Prop :=
  ∀ entry ∈ listing, (∀ emission ∈ entry.2, emission.Faithful) ↔ entry.1.Fits

theorem openConstruct_bounded {construct : Construct} {before opened : Compiler}
    (bounded : Bounded before) (opens : openConstruct construct before = .ok opened) :
    Bounded opened := by
  cases construct with
  | func _ _ | deferBlock => exact enterFunction_spec bounded opens
  | _ =>
    cases opens
    exact bounded

theorem access_of_isGlobal {compiler : Compiler} {name : Name}
    (isGlobal : compiler.isGlobal name) :
    (access .getLocal .getUpvalue name compiler).1 = .global false := by
  rcases Bool.and_eq_true_iff.mp isGlobal with ⟨notLocal, notCaptured⟩
  have notLocal := Option.isNone_iff_eq_none.mp notLocal
  have notCaptured := Option.isNone_iff_eq_none.mp notCaptured
  unfold access
  simp only [notLocal]
  cases result : Bindings.resolveUpvalue name compiler.scope compiler.enclosing with
  | mk found rest =>
    cases found with
    | none => simp [notCaptured]
    | some index =>
      have resolved : (Bindings.resolveUpvalue name compiler.scope compiler.enclosing).1 =
          some index := by rw [result]
      rcases resolveUpvalue_eq resolved with ⟨upvalue, entry, _⟩
      have isSome : (entryOf name compiler.enclosing).isSome =
          (resolveUpvalueConst name compiler.enclosing).isSome := isSome_entryOf
      rw [entry, notCaptured] at isSome
      cases isSome

/-- Behind a callee of which something is known, what is pending is what is known of it. -/
theorem callee_known (site : CallSite) (code : Code) {before after : Compiler} {listing : Listing}
    (compiled : compile code before = .ok (listing, after)) :
    code.callee site before = .unknown ∨ after.pendingCallee site = code.callee site before := by
  fun_induction Code.callee site before code generalizing after listing with
  | case1 name returnCount isGlobal =>
    right
    have pending : after = (access .getLocal .getUpvalue name before).2.setPending name returnCount
        (access .getLocal .getUpvalue name before).1 := by
      cases compiled
      rfl
    rw [pending, access_of_isGlobal isGlobal]
    rfl
  | case2 name returnCount _ =>
    left
    rfl
  | case3 inner ih =>
    rcases bind_eq_ok.mp compiled with ⟨_, opens, compiled⟩
    rcases bind_eq_ok.mp compiled with ⟨⟨_, _, behind⟩, inside, compiled⟩
    rcases bind_eq_ok.mp compiled with ⟨_, closes, compiled⟩
    cases opens
    cases closes
    cases compiled
    rcases bind_eq_ok.mp inside with ⟨_, _, inside⟩
    rcases bind_eq_ok.mp inside with ⟨⟨_, middle⟩, head, inside⟩
    rcases bind_eq_ok.mp inside with ⟨_, _, inside⟩
    cases inside
    exact ih head
  | case4 =>
    left
    rfl

mutual

theorem compile_spec (code : Code) {before after : Compiler} {listing : Listing}
    (bounded : Bounded before) (compiled : compile code before = .ok (listing, after)) :
    Bounded after ∧ Exact listing := by
  cases code with
  | node construct parts =>
    rw [compile] at compiled
    rcases bind_eq_ok.mp compiled with ⟨opened, opens, compiled⟩
    rcases bind_eq_ok.mp compiled with ⟨⟨count, inner, behind⟩, inside, compiled⟩
    rcases bind_eq_ok.mp compiled with ⟨⟨emissions, closed⟩, closes, compiled⟩
    cases compiled
    rcases compileParts_spec parts (openConstruct_bounded bounded opens) inside with
      ⟨bounded_behind, exact_inner, count_eq, limited⟩
    rw [UInt8.zero_add] at count_eq
    rw [count_eq] at closes
    have small : limit construct ≠ .none → parts.length ≤ 255 := by
      intro isLimited
      simpa using limited isLimited
    rcases closeConstruct_spec bounded bounded_behind small closes with ⟨bounded_after, own⟩
    refine ⟨bounded_after, ?_⟩
    intro entry mem
    rcases mem_append.mp mem with mem | mem
    · exact exact_inner entry mem
    · rw [mem_singleton.mp mem]
      exact own
  | call callee site args =>
    rw [compile] at compiled
    rcases bind_eq_ok.mp compiled with ⟨⟨first, compiler⟩, head, compiled⟩
    rcases bind_eq_ok.mp compiled with ⟨⟨argc, inner, behind⟩, inside, compiled⟩
    cases compiled
    rcases compile_spec callee bounded head with ⟨bounded_callee, exact_callee⟩
    rcases compileParts_spec args (bounded_callee.withPending none 0) inside with
      ⟨bounded_behind, exact_args, argc_eq, _⟩
    rw [UInt8.zero_add] at argc_eq
    have own := callOperands_faithful_iff site args.length (callee_known site callee head)
    refine ⟨bounded_behind, ?_⟩
    intro entry mem
    rcases mem_append.mp mem with mem | mem
    · rcases mem_append.mp mem with mem | mem
      · exact exact_callee entry mem
      · exact exact_args entry mem
    · rw [mem_singleton.mp mem, argc_eq]
      exact own.trans ⟨fun fits => ⟨trivial, trivial, fits⟩, fun fits => fits.2.2⟩

theorem compileParts_spec (parts : List Code) {limit : Limit} {count total : UInt8}
    {before after : Compiler} {listing : Listing} (bounded : Bounded before)
    (compiled : compileParts limit count parts before = .ok (total, listing, after)) :
    Bounded after ∧ Exact listing ∧ total = count + UInt8.ofNat parts.length ∧
      (limit ≠ .none → count.toNat + parts.length ≤ 255) := by
  cases parts with
  | nil =>
    cases compiled
    have bound := count.toNat_lt
    refine ⟨bounded, ?_, by simp, ?_⟩
    · intro entry mem
      cases mem
    · intro _
      rw [length_nil]
      omega
  | cons part parts =>
    rw [compileParts] at compiled
    rcases bind_eq_ok.mp compiled with ⟨_, notBefore, compiled⟩
    rcases bind_eq_ok.mp compiled with ⟨⟨first, middle⟩, head, compiled⟩
    rcases bind_eq_ok.mp compiled with ⟨_, notAfter, compiled⟩
    rcases bind_eq_ok.mp compiled with ⟨⟨counted, others, last⟩, tail, compiled⟩
    cases compiled
    rcases compile_spec part bounded head with ⟨bounded_middle, exact_first⟩
    rcases compileParts_spec parts bounded_middle tail with
      ⟨bounded_last, exact_others, count_eq, limited⟩
    have notBefore : ¬(limit = .beforeElement ∧ count = 255) := refuse_eq_ok.mp notBefore
    have notAfter : ¬(limit = .afterElement ∧ count = 255) := refuse_eq_ok.mp notAfter
    refine ⟨bounded_last, ?_, ?_, ?_⟩
    · intro entry mem
      rcases mem_append.mp mem with mem | mem
      · exact exact_first entry mem
      · exact exact_others entry mem
    · rw [count_eq, length_cons, UInt8.ofNat_add, UInt8.add_assoc]
      congr 1
      exact UInt8.add_comm _ _
    · intro isLimited
      have rest := limited isLimited
      have room : count ≠ 255 := by
        intro full
        cases limit with
        | none => exact isLimited rfl
        | beforeElement => exact notBefore ⟨rfl, full⟩
        | afterElement => exact notAfter ⟨rfl, full⟩
      have next : (count + 1).toNat = count.toNat + 1 := by
        have bound := count.toNat_lt
        have notMax : count.toNat ≠ 255 := fun same => room (UInt8.toNat_inj.mp same)
        rw [UInt8.toNat_add]
        have one : (1 : UInt8).toNat = 1 := rfl
        omega
      rw [next] at rest
      rw [length_cons]
      omega

end

mutual

/-- The numbers of parts fit, of a construct and of all inside. -/
def Code.CountsFit : Code → Prop
  | .node construct parts => construct.CountFits parts.length ∧ CountsFitAll parts
  | .call callee _ args => callee.CountsFit ∧ CountsFitAll args

def CountsFitAll : List Code → Prop
  | [] => True
  | part :: parts => part.CountsFit ∧ CountsFitAll parts

end

def CountsFitIn (listing : Listing) : Prop :=
  ∀ entry ∈ listing, entry.1.CountFits

theorem countsFitIn_append {first second : Listing} :
    CountsFitIn (first ++ second) ↔ CountsFitIn first ∧ CountsFitIn second :=
  forall_mem_append

mutual

theorem compile_countsFit (code : Code) {before after : Compiler} {listing : Listing}
    (compiled : compile code before = .ok (listing, after)) :
    CountsFitIn listing ↔ code.CountsFit := by
  cases code with
  | node construct parts =>
    rw [compile] at compiled
    rcases bind_eq_ok.mp compiled with ⟨opened, _, compiled⟩
    rcases bind_eq_ok.mp compiled with ⟨⟨count, inner, behind⟩, inside, compiled⟩
    rcases bind_eq_ok.mp compiled with ⟨⟨emissions, closed⟩, _, compiled⟩
    cases compiled
    rw [countsFitIn_append, compileParts_countsFit parts inside, Code.CountsFit, and_comm]
    exact and_congr forall_mem_singleton .rfl
  | call callee site args =>
    rw [compile] at compiled
    rcases bind_eq_ok.mp compiled with ⟨⟨first, compiler⟩, head, compiled⟩
    rcases bind_eq_ok.mp compiled with ⟨⟨argc, inner, behind⟩, inside, compiled⟩
    cases compiled
    rw [countsFitIn_append, countsFitIn_append, compile_countsFit callee head,
      compileParts_countsFit args inside, Code.CountsFit]
    exact and_iff_left (forall_mem_singleton.mpr trivial)

theorem compileParts_countsFit (parts : List Code) {limit : Limit} {count total : UInt8}
    {before after : Compiler} {listing : Listing}
    (compiled : compileParts limit count parts before = .ok (total, listing, after)) :
    CountsFitIn listing ↔ CountsFitAll parts := by
  cases parts with
  | nil =>
    cases compiled
    rw [CountsFitAll, iff_true]
    exact forall_mem_nil _
  | cons part parts =>
    rw [compileParts] at compiled
    rcases bind_eq_ok.mp compiled with ⟨_, _, compiled⟩
    rcases bind_eq_ok.mp compiled with ⟨⟨first, middle⟩, head, compiled⟩
    rcases bind_eq_ok.mp compiled with ⟨_, _, compiled⟩
    rcases bind_eq_ok.mp compiled with ⟨⟨counted, others, last⟩, tail, compiled⟩
    cases compiled
    rw [countsFitIn_append, compile_countsFit part head, compileParts_countsFit parts tail,
      CountsFitAll]

end

/-- The operands of a program that is accepted are faithful exactly if the arguments of all calls
and the exports of the modules fit, no table is full when a variable is to be captured, and no call
takes what another function's name has left behind for what is known of its callee. -/
theorem faithful_iff {program : Code} {listing : Listing} {after : Compiler}
    (accepted : compile program .init = .ok (listing, after)) :
    (∀ entry ∈ listing, ∀ emission ∈ entry.2, emission.Faithful) ↔
      program.CountsFit ∧ ∀ entry ∈ listing, entry.1.CaptureFits ∧ entry.1.CallFits := by
  rcases compile_spec program Bounded.init accepted with ⟨_, exactly⟩
  calc (∀ entry ∈ listing, ∀ emission ∈ entry.2, emission.Faithful)
      ↔ ∀ entry ∈ listing, entry.1.Fits := forall₂_congr exactly
    _ ↔ CountsFitIn listing ∧ ∀ entry ∈ listing, entry.1.CaptureFits ∧ entry.1.CallFits :=
        forall₂_and
    _ ↔ program.CountsFit ∧ ∀ entry ∈ listing, entry.1.CaptureFits ∧ entry.1.CallFits :=
        and_congr (compile_countsFit program accepted) .rfl

/-- A function `f` of any number of arguments, of which nothing is known. -/
def variadic : CallSite where
  callSigForQname := fun _ => some ⟨1, true, 0, [[.any]]⟩
  structConformsToInterface := fun _ _ => false
  argInfo := fun _ => ⟨some .int, none, none, none⟩
  lhsCount := 0

/-- A call of it with so many literals. -/
def variadicCall (args : ℕ) : Code :=
  .call (.node (.getVar [102] 0) []) variadic (List.replicate args (.node .plain []))

theorem compileParts_literals (args : ℕ) (count : UInt8) (compiler : Compiler) :
    compileParts .none count (List.replicate args (.node .plain [])) compiler =
      .ok (count + UInt8.ofNat args,
        List.replicate args (⟨.construct .plain, 0, compiler⟩, []), compiler) := by
  induction args generalizing count with
  | zero =>
    rw [replicate_zero, compileParts]
    simp
  | succ args ih =>
    have literal : compile (.node .plain []) compiler =
        .ok ([(⟨.construct .plain, 0, compiler⟩, [])], compiler) := rfl
    have next : count + 1 + UInt8.ofNat args = count + UInt8.ofNat (args + 1) := by
      rw [UInt8.ofNat_add, UInt8.add_assoc, UInt8.add_comm 1]
      rfl
    rw [replicate_succ, compileParts]
    apply bind_eq_ok.mpr ⟨(), rfl, _⟩
    apply bind_eq_ok.mpr ⟨_, literal, _⟩
    apply bind_eq_ok.mpr ⟨(), rfl, _⟩
    apply bind_eq_ok.mpr ⟨_, ih (count + 1), _⟩
    rw [next]
    rfl

/-- What is known of the callee. -/
def variadicCallee : Callee :=
  ⟨variadic.callSigForQname [102], 0⟩

theorem compile_variadicCall (args : ℕ) :
    compile (variadicCall args) .init =
      .ok ([(⟨.construct (.getVar [102] 0), 0, .init⟩, [.global false])] ++
        List.replicate args (⟨.construct .plain, 0, .init⟩, []) ++
        [(⟨.call variadic variadicCallee variadicCallee, args, .init⟩,
          callOperands variadic variadicCallee variadicCallee args (UInt8.ofNat args))],
        .init) := by
  have callee : compile (.node (.getVar [102] 0) []) .init =
      .ok ([(⟨.construct (.getVar [102] 0), 0, .init⟩, [.global false])],
        Compiler.init.setPending [102] 0 (.global false)) := rfl
  have parts := compileParts_literals args 0 .init
  rw [UInt8.zero_add] at parts
  rw [variadicCall, compile]
  apply bind_eq_ok.mpr ⟨_, callee, _⟩
  apply bind_eq_ok.mpr ⟨_, parts, _⟩
  rw [length_replicate]
  rfl

theorem countsFitAll_literals (args : ℕ) :
    CountsFitAll (List.replicate args (.node .plain [])) := by
  induction args with
  | zero => trivial
  | succ args ih => exact ⟨⟨trivial, trivial⟩, ih⟩

theorem faithful_iff_twoArguments :
    (callOperands variadic variadicCallee variadicCallee 2 2).Forall Emission.Faithful := by
  have fits : (variadicCall 2).CountsFit := ⟨⟨trivial, trivial⟩, countsFitAll_literals 2⟩
  have listing := (faithful_iff (compile_variadicCall 2)).mpr ⟨fits, ?_⟩
  · rw [forall_iff_forall_mem]
    exact listing _ (mem_append_right _ mem_cons_self)
  · intro entry mem
    rcases mem_append.mp mem with mem | mem
    · rcases mem_append.mp mem with mem | mem
      · rw [mem_singleton.mp mem]
        refine ⟨fun _ captures => ?_, trivial⟩
        cases captures
      · rw [(mem_replicate.mp mem).2]
        exact ⟨trivial, trivial⟩
    · rw [mem_singleton.mp mem]
      exact ⟨trivial, by decide, .inl rfl⟩

/-- A call with 128 arguments is run as one without arguments, all of which are proven. -/
theorem not_faithful :
    ¬∀ listing after, compile (variadicCall 128) .init = .ok (listing, after) →
      ∀ entry ∈ listing, ∀ emission ∈ entry.2, emission.Faithful := by
  intro faithful
  have last := faithful _ _ (compile_variadicCall 128) _ (mem_append_right _ mem_cons_self)
  have fits : variadic.Fits variadicCallee variadicCallee 128 :=
    (callOperands_faithful_iff variadic 128 (.inr rfl)).mp last
  exact absurd fits.1 (by decide)

end Gengo.Operands
