import Gengo.Templates.Nesting
import Mathlib.Logic.Relation

/-!
# What templates render

The meaning of a template goes along its tree, and a value with a name is the value there. The loop
over the instructions renders it, unless a range without elements comes in the body of another one,
where its end is taken for that of the outer range, or a value is not read as it is meant.
-/

namespace Gengo.Templates

open List Nat
open Bytecode (Bytes)
open Relation (ReflTransGen)

variable {F : Type} (formatFloat : F → Bytes)

namespace Value

/-- A value without its name. -/
def bare : Value F → Value F
  | .named inner => inner.bare
  | value => value

def isNamed : Value F → Bool
  | .named _ => true
  | _ => false

def isNull : Value F → Bool
  | .null => true
  | _ => false

/-- The elements over which a range goes. -/
def items (value : Value F) : List (Value F) :=
  match value.bare with
  | .array items => items
  | _ => []

/-- Whether a condition holds, if it is one. -/
def holds (value : Value F) : Option Bool :=
  match value.bare with
  | .boolean b => some b
  | _ => none

/-- What a map has at a string, or a struct in a field. -/
def member (data : Value F) (name : Bytes) : Value F :=
  match data.bare with
  | .map entries =>
    ((entries.filter fun entry => entry.1.asString = some name).head?.map Prod.snd).getD .null
  | .struct fields => ((fields.filter fun field => field.1 = name).head?.map Prod.snd).getD .null
  | _ => .null

/-- The value of an expression. -/
def meant (dot : Value F) : Arg → Value F
  | .null => dot
  | .string name => dot.member name
  | .path names => names.foldl member dot

/-- The text of a value. -/
def text : Value F → Bytes
  | .null => ascii "null"
  | .boolean b => ascii (if b then "true" else "false")
  | .int n => ascii (toString n)
  | .float x => formatFloat x
  | .string bytes => bytes
  | .named inner => inner.text
  | _ => ascii "?"

end Value

/-- The text of an instruction that belongs to no block. -/
def emitted (op : TplOp) (arg : Arg) (dot : Value F) : Option Bytes :=
  match op, arg with
  | .text, .string text => some text
  | .text, _ => none
  | .field, .string _ | .chain, .path _ => some ((dot.meant arg).text formatFloat)
  | .field, _ | .chain, _ => none
  | .rootRef, _ => some (dot.text formatFloat)
  | _, _ => some []

/-- One text behind another. -/
def joined (first second : Option Bytes) : Option Bytes :=
  first.bind fun first => second.map (first ++ ·)

/-- The texts of values, one behind the other. -/
def each (text : Value F → Option Bytes) : List (Value F) → Option Bytes
  | [] => some []
  | item :: items => joined (text item) (each text items)

namespace Nodes

/-- The text of nodes for a value, or nothing if there is an error. -/
def meaning : Nodes → Value F → Option Bytes
  | nil, _ => some []
  | plain op _ arg rest, dot => joined (emitted formatFloat op arg dot) (rest.meaning dot)
  | conditional arg body rest, dot =>
    match (dot.meant arg).holds with
    | none => none
    | some true => joined (body.meaning dot) (rest.meaning dot)
    | some false => rest.meaning dot
  | conditionalElse arg body other rest, dot =>
    match (dot.meant arg).holds with
    | none => none
    | some true => joined (body.meaning dot) (rest.meaning dot)
    | some false => joined (other.meaning dot) (rest.meaning dot)
  | range arg body rest, dot =>
    joined (each body.meaning (dot.meant arg).items) (rest.meaning dot)
  | rangeElse arg body other rest, dot =>
    match (dot.meant arg).items with
    | [] => joined (other.meaning dot) (rest.meaning dot)
    | item :: items => joined (each body.meaning (item :: items)) (rest.meaning dot)
  | within arg body rest, dot => joined (body.meaning (dot.meant arg)) (rest.meaning dot)

end Nodes

/-- A text, an error, or a place where the loop does something else. -/
inductive Reading
  | text (out : Bytes)
  | failed
  | disturbed
  deriving DecidableEq, Repr

/-- One reading, and then another one. -/
def Reading.before : Reading → Reading → Reading
  | .text first, .text second => .text (first ++ second)
  | .text _, later => later
  | first, _ => first

def readEach (reading : Value F → Reading) : List (Value F) → Reading
  | [] => .text []
  | item :: items => (reading item).before (readEach reading items)

/-- The end of a range without elements. -/
def emptyRange (inside : Bool) : Reading :=
  if inside then .disturbed else .text []

def Reading.ofText : Option Bytes → Reading
  | none => .failed
  | some out => .text out

/-- A reading of what follows a value that may be misread. -/
def Reading.unless (misread : Bool) (reading : Reading) : Reading :=
  if misread then .disturbed else reading

namespace Value

/-- A path goes on from a value with a name. -/
def crossesName : List Bytes → Value F → Bool
  | [], _ => false
  | name :: names, dot => dot.isNamed || crossesName names (dot.member name)

/-- An expression comes to something behind a value with a name. -/
def isBehindName (dot : Value F) (arg : Arg) : Bool :=
  let crosses :=
    match arg with
    | .null => false
    | .string _ => dot.isNamed
    | .path names => dot.crossesName names
  crosses && !(dot.meant arg).isNull

/-- A number with a text that is longer than the buffer. -/
def isTooLong (value : Value F) : Bool :=
  match value.bare with
  | .float x => numberBuffer < (formatFloat x).length
  | _ => false

end Value

/-- A value is not read as it is meant: behind a name, where a number is too long, where a condition
has two names, or where an array with elements has one. -/
def misread (op : TplOp) (arg : Arg) (dot : Value F) : Bool :=
  match op, arg with
  | .field, .string _ | .chain, .path _ =>
    dot.isBehindName arg || (dot.meant arg).isTooLong formatFloat
  | .rootRef, _ => dot.isTooLong formatFloat
  | .ifBegin, _ =>
    dot.isBehindName arg ||
      match dot.meant arg with
      | .named (.named inner) => inner.holds.isSome
      | _ => false
  | .rangeBegin, _ =>
    dot.isBehindName arg || (dot.meant arg).isNamed && !(dot.meant arg).items.isEmpty
  | .withBegin, _ => dot.isBehindName arg
  | _, _ => false

namespace Nodes

/-- The meaning up to the first place where the loop does something else. -/
def reading : Nodes → Bool → Value F → Reading
  | nil, _, _ => .text []
  | plain op _ arg rest, inside, dot =>
    .unless (misread formatFloat op arg dot)
      ((Reading.ofText (emitted formatFloat op arg dot)).before (rest.reading inside dot))
  | conditional arg body rest, inside, dot =>
    .unless (misread formatFloat .ifBegin arg dot)
      (match (dot.meant arg).holds with
      | none => .failed
      | some true => (body.reading inside dot).before (rest.reading inside dot)
      | some false => rest.reading inside dot)
  | conditionalElse arg body other rest, inside, dot =>
    .unless (misread formatFloat .ifBegin arg dot)
      (match (dot.meant arg).holds with
      | none => .failed
      | some true => (body.reading inside dot).before (rest.reading inside dot)
      | some false => (other.reading inside dot).before (rest.reading inside dot))
  | range arg body rest, inside, dot =>
    .unless (misread formatFloat .rangeBegin arg dot)
      (match (dot.meant arg).items with
      | [] => (emptyRange inside).before (rest.reading inside dot)
      | item :: items =>
        (readEach (body.reading true) (item :: items)).before (rest.reading inside dot))
  | rangeElse arg body other rest, inside, dot =>
    .unless (misread formatFloat .rangeBegin arg dot)
      (match (dot.meant arg).items with
      | [] =>
        ((other.reading inside dot).before (emptyRange inside)).before (rest.reading inside dot)
      | item :: items =>
        (readEach (body.reading true) (item :: items)).before (rest.reading inside dot))
  | within arg body rest, inside, dot =>
    .unless (misread formatFloat .withBegin arg dot)
      ((body.reading inside (dot.meant arg)).before (rest.reading inside dot))

end Nodes

/-- A reading that is not disturbed is the meaning. -/
def Reading.Means (reading : Reading) (meaning : Option Bytes) : Prop :=
  reading = .disturbed ∨ reading = .ofText meaning

namespace Reading

variable {first second : Reading} {meaning meaning' : Option Bytes}

theorem Means.before (means : first.Means meaning) (means' : second.Means meaning') :
    (first.before second).Means (joined meaning meaning') := by
  rcases means with rfl | rfl
  · exact .inl rfl
  · cases meaning with
    | none => exact .inr rfl
    | some text =>
      rcases means' with rfl | rfl
      · exact .inl rfl
      · cases meaning' with
        | none | some _ => exact .inr rfl

theorem means_ofText (meaning : Option Bytes) : (ofText meaning).Means meaning :=
  .inr rfl

theorem means_readEach {reading : Value F → Reading} {meaning : Value F → Option Bytes}
    (means : ∀ item, (reading item).Means (meaning item)) (items : List (Value F)) :
    (readEach reading items).Means (each meaning items) := by
  induction items with
  | nil => exact .inr rfl
  | cons item items ih => exact (means item).before ih

theorem Means.unless (means : first.Means meaning) (misread : Bool) :
    (first.unless misread).Means meaning := by
  cases misread with
  | false => exact means
  | true => exact .inl rfl

theorem means_emptyRange (inside : Bool) : (emptyRange inside).Means (some []) := by
  cases inside with
  | false => exact .inr rfl
  | true => exact .inl rfl

end Reading

theorem joined_of_nil (meaning : Option Bytes) : joined meaning (some []) = meaning := by
  cases meaning with
  | none => rfl
  | some text => exact congrArg some (append_nil text)

theorem Nodes.means_reading (nodes : Nodes) (inside : Bool) (dot : Value F) :
    (nodes.reading formatFloat inside dot).Means (nodes.meaning formatFloat dot) := by
  induction nodes generalizing inside dot with
  | nil => exact .inr rfl
  | plain op isPlain arg rest ofRest =>
    exact ((Reading.means_ofText _).before (ofRest inside dot)).unless _
  | conditional arg body rest ofBody ofRest =>
    rw [reading, meaning]
    apply Reading.Means.unless
    cases (dot.meant arg).holds with
    | none => exact .inr rfl
    | some holds =>
      cases holds with
      | true => exact (ofBody inside dot).before (ofRest inside dot)
      | false => exact ofRest inside dot
  | conditionalElse arg body other rest ofBody ofOther ofRest =>
    rw [reading, meaning]
    apply Reading.Means.unless
    cases (dot.meant arg).holds with
    | none => exact .inr rfl
    | some holds =>
      cases holds with
      | true => exact (ofBody inside dot).before (ofRest inside dot)
      | false => exact (ofOther inside dot).before (ofRest inside dot)
  | range arg body rest ofBody ofRest =>
    rw [reading, meaning]
    apply Reading.Means.unless
    cases (dot.meant arg).items with
    | nil => exact (Reading.means_emptyRange inside).before (ofRest inside dot)
    | cons item items =>
      exact (Reading.means_readEach (ofBody true) _).before (ofRest inside dot)
  | rangeElse arg body other rest ofBody ofOther ofRest =>
    rw [reading, meaning]
    apply Reading.Means.unless
    cases (dot.meant arg).items with
    | nil =>
      have means := (ofOther inside dot).before (Reading.means_emptyRange inside)
      rw [joined_of_nil] at means
      exact means.before (ofRest inside dot)
    | cons item items =>
      exact (Reading.means_readEach (ofBody true) _).before (ofRest inside dot)
  | within arg body rest ofBody ofRest =>
    exact ((ofBody inside _).before (ofRest inside dot)).unless _

namespace Nodes

/-- The ranges of nodes: where their bodies begin, and where their ends are. -/
def spans : Nodes → ℕ → List (ℕ × ℕ)
  | nil, _ => []
  | plain _ _ _ rest, start => rest.spans (start + 1)
  | conditional _ body rest, start =>
    body.spans (start + 1) ++ rest.spans (start + (body.size + 2))
  | conditionalElse _ body other rest, start =>
    body.spans (start + 1) ++ (other.spans (start + 1 + body.size + 1) ++
      rest.spans (start + (body.size + 1 + other.size + 2)))
  | range _ body rest, start =>
    (start + 1, start + 1 + body.size) ::
      (body.spans (start + 1) ++ rest.spans (start + (body.size + 2)))
  | rangeElse _ body other rest, start =>
    (start + 1, start + 1 + body.size + 1 + other.size) ::
      (body.spans (start + 1) ++ (other.spans (start + 1 + body.size + 1) ++
        rest.spans (start + (body.size + 1 + other.size + 2))))
  | within _ body rest, start =>
    body.spans (start + 1) ++ rest.spans (start + (body.size + 2))

/-- Ranges with the same end are the same one. -/
def OneEach (spans : List (ℕ × ℕ)) : Prop :=
  ∀ first ∈ spans, ∀ second ∈ spans, first.2 = second.2 → first = second

/-- Ranges between two positions, with an end of its own each. -/
structure Apart (start stop : ℕ) (spans : List (ℕ × ℕ)) : Prop where
  between : ∀ span ∈ spans, start < span.1 ∧ span.1 ≤ span.2 ∧ span.2 < stop
  one : OneEach spans

section

variable {start stop low mid mid' high : ℕ} {first second : List (ℕ × ℕ)}

theorem Apart.mono (apart : Apart low high first) (below : start ≤ low) (above : high ≤ stop) :
    Apart start stop first := by
  refine ⟨fun span isSpan => ?_, apart.one⟩
  have inside := apart.between span isSpan
  omega

theorem Apart.append (apart : Apart low mid first) (apart' : Apart mid' high second)
    (bounds : low ≤ mid ∧ mid ≤ mid' ∧ mid' ≤ high) : Apart low high (first ++ second) := by
  constructor
  · exact forall_mem_append.mpr ⟨(apart.mono le_rfl (by omega)).between,
      (apart'.mono (by omega) le_rfl).between⟩
  · intro span isSpan span' isSpan' same
    rcases mem_append.mp isSpan with isSpan | isSpan
    · rcases mem_append.mp isSpan' with isSpan' | isSpan'
      · exact apart.one span isSpan span' isSpan' same
      · have inside := apart.between span isSpan
        have inside' := apart'.between span' isSpan'
        omega
    · rcases mem_append.mp isSpan' with isSpan' | isSpan'
      · have inside := apart.between span' isSpan'
        have inside' := apart'.between span isSpan
        omega
      · exact apart'.one span isSpan span' isSpan' same

theorem Apart.around (apart : Apart low mid first) (apart' : Apart mid' high second)
    (bounds : start < low ∧ low ≤ mid ∧ mid < mid' ∧ mid' ≤ high) :
    Apart start high ((low, mid) :: (first ++ second)) := by
  have both := apart.append apart' (by omega)
  have own : ∀ span ∈ first ++ second, mid ≠ span.2 := by
    rw [forall_mem_append]
    constructor
    · intro span isSpan
      have inside := apart.between span isSpan
      omega
    · intro span isSpan
      have inside := apart'.between span isSpan
      omega
  constructor
  · exact forall_mem_cons.mpr ⟨⟨bounds.1, by omega, by omega⟩,
      (both.mono (by omega) le_rfl).between⟩
  · intro span isSpan span' isSpan' same
    rcases mem_cons.mp isSpan with rfl | isSpan
    · rcases mem_cons.mp isSpan' with rfl | isSpan'
      · rfl
      · exact absurd same (own span' isSpan')
    · rcases mem_cons.mp isSpan' with rfl | isSpan'
      · exact absurd same.symm (own span isSpan)
      · exact both.one span isSpan span' isSpan' same

end

theorem apart_spans (nodes : Nodes) (start : ℕ) :
    Apart start (start + nodes.size) (nodes.spans start) := by
  induction nodes generalizing start with
  | nil => exact ⟨fun _ isSpan => absurd isSpan not_mem_nil,
      fun _ isSpan => absurd isSpan not_mem_nil⟩
  | plain op isPlain arg rest ofRest =>
    rw [size]
    exact (ofRest _).mono (by omega) (by omega)
  | conditional arg body rest ofBody ofRest | within arg body rest ofBody ofRest =>
    rw [size]
    exact ((ofBody _).append (ofRest _) (by omega)).mono (by omega) (by omega)
  | conditionalElse arg body other rest ofBody ofOther ofRest =>
    rw [size]
    exact ((ofBody _).append ((ofOther _).append (ofRest _) (by omega)) (by omega)).mono
      (by omega) (by omega)
  | range arg body rest ofBody ofRest =>
    rw [size]
    exact ((ofBody _).around (ofRest _) (by omega)).mono le_rfl (by omega)
  | rangeElse arg body other rest ofBody ofOther ofRest =>
    rw [size, spans, ← append_assoc]
    have inside := (ofBody (start + 1)).append (ofOther (start + 1 + body.size + 1)) (by omega)
    exact (inside.around (ofRest _) (by omega)).mono le_rfl (by omega)

end Nodes

namespace Value

variable (dot : Value F)

theorem resolveField_eq (name : Bytes) :
    dot.resolveField name = if dot.isNamed then .null else dot.member name := by
  cases dot with
  | map entries =>
    have whole : (map entries).bare = map entries := rfl
    rw [if_neg (by exact Bool.false_ne_true), resolveField, member, whole]
    dsimp only
    rw [head?_filter]
    cases entries.find? fun entry => entry.1.asString = some name with
    | none => rfl
    | some entry => rfl
  | struct fields =>
    have whole : (struct fields).bare = struct fields := rfl
    rw [if_neg (by exact Bool.false_ne_true), resolveField, member, whole]
    dsimp only
    rw [head?_filter]
    cases fields.find? fun field => field.1 = name with
    | none => rfl
    | some field => rfl
  | _ => rfl

theorem resolvePath_null (names : List Bytes) : (null : Value F).resolvePath names = .null := by
  induction names with
  | nil => rfl
  | cons name names ih => exact ih

theorem resolvePath_eq (names : List Bytes) :
    dot.resolvePath names = if dot.crossesName names then .null else names.foldl member dot := by
  induction names generalizing dot with
  | nil => rfl
  | cons name names ih =>
    have first : dot.resolvePath (name :: names) = (dot.resolveField name).resolvePath names := rfl
    rw [first, resolveField_eq, crossesName, foldl_cons]
    cases dot.isNamed with
    | true => exact resolvePath_null names
    | false => exact ih _

theorem isNull_eq_true_iff {value : Value F} : value.isNull = true ↔ value = .null := by
  cases value with
  | null => exact ⟨fun _ => rfl, fun _ => rfl⟩
  | _ => exact ⟨Bool.noConfusion, nofun⟩

theorem ite_null_eq_iff {crosses : Bool} {value : Value F} :
    (if crosses then .null else value) = value ↔ (crosses && !value.isNull) = false := by
  cases crosses with
  | false => exact ⟨fun _ => rfl, fun _ => rfl⟩
  | true =>
    rw [if_pos rfl, Bool.true_and, Bool.not_eq_false', isNull_eq_true_iff]
    exact eq_comm

theorem evalExpr_eq_iff (arg : Arg) :
    dot.evalExpr arg = dot.meant arg ↔ dot.isBehindName arg = false := by
  cases arg with
  | null => exact ⟨fun _ => rfl, fun _ => rfl⟩
  | string name =>
    rw [evalExpr, resolveField_eq]
    exact ite_null_eq_iff
  | path names =>
    rw [evalExpr, resolvePath_eq]
    exact ite_null_eq_iff

theorem toText_eq_iff : ∀ value : Value F,
    value.toText formatFloat = some (value.text formatFloat) ↔
      value.isTooLong formatFloat = false
  | .named inner => toText_eq_iff inner
  | .float x => by
    change _ ↔ decide (numberBuffer < (formatFloat x).length) = false
    rw [toText, text, decide_eq_false_iff_not, Nat.not_lt]
    split
    · rename_i fits
      exact ⟨fun _ => fits, fun _ => rfl⟩
    · rename_i long
      exact ⟨nofun, fun fits => absurd fits long⟩
  | .null | .boolean _ | .int _ | .string _ | .array _ | .map _ | .struct _ | .other =>
    ⟨fun _ => rfl, fun _ => rfl⟩

theorem asBool_eq_iff {value : Value F} :
    value.asBool = value.holds ↔ (match value with
      | .named (.named inner) => inner.holds.isSome
      | _ => false) = false := by
  cases value with
  | named inner =>
    cases inner with
    | named inner =>
      change none = inner.holds ↔ inner.holds.isSome = false
      rw [Option.isSome_eq_false_iff, Option.isNone_iff_eq_none]
      exact eq_comm
    | _ => exact ⟨fun _ => rfl, fun _ => rfl⟩
  | _ => exact ⟨fun _ => rfl, fun _ => rfl⟩

theorem elements_eq_iff {value : Value F} :
    value.elements = value.items ↔ (value.isNamed && !value.items.isEmpty) = false := by
  cases value with
  | named inner =>
    change [] = inner.items ↔ (!inner.items.isEmpty) = false
    rw [Bool.not_eq_false', List.isEmpty_iff]
    exact eq_comm
  | _ => exact ⟨fun _ => rfl, fun _ => rfl⟩

end Value

/-- What an operation makes of the value in scope is what is meant. -/
def AsMeant (op : TplOp) (arg : Arg) (dot : Value F) : Prop :=
  match op, arg with
  | .field, .string _ | .chain, .path _ =>
    dot.evalExpr arg = dot.meant arg ∧
      (dot.meant arg).toText formatFloat = some ((dot.meant arg).text formatFloat)
  | .rootRef, _ => dot.toText formatFloat = some (dot.text formatFloat)
  | .ifBegin, _ =>
    dot.evalExpr arg = dot.meant arg ∧ (dot.meant arg).asBool = (dot.meant arg).holds
  | .rangeBegin, _ =>
    dot.evalExpr arg = dot.meant arg ∧ (dot.meant arg).elements = (dot.meant arg).items
  | .withBegin, _ => dot.evalExpr arg = dot.meant arg
  | _, _ => True

theorem asMeant_iff (op : TplOp) (arg : Arg) (dot : Value F) :
    AsMeant formatFloat op arg dot ↔ misread formatFloat op arg dot = false := by
  have always : True ↔ false = false := iff_of_true trivial rfl
  cases op with
  | field =>
    cases arg with
    | string name =>
      rw [misread, Bool.or_eq_false_iff, ← Value.evalExpr_eq_iff, ← Value.toText_eq_iff]
      exact Iff.rfl
    | _ => exact always
  | chain =>
    cases arg with
    | path names =>
      rw [misread, Bool.or_eq_false_iff, ← Value.evalExpr_eq_iff, ← Value.toText_eq_iff]
      exact Iff.rfl
    | _ => exact always
  | rootRef => exact Value.toText_eq_iff formatFloat dot
  | ifBegin =>
    rw [misread, Bool.or_eq_false_iff, ← Value.evalExpr_eq_iff, ← Value.asBool_eq_iff]
    exact Iff.rfl
  | rangeBegin =>
    rw [misread, Bool.or_eq_false_iff, ← Value.evalExpr_eq_iff, ← Value.elements_eq_iff]
    exact Iff.rfl
  | withBegin => exact dot.evalExpr_eq_iff arg
  | _ => exact always

section

variable (insts : List Inst) (spans : List (ℕ × ℕ))

/-- The end of a range is next, and the innermost iteration is one of another range. -/
def Foreign (state : State F) : Prop :=
  ∃ inst iter outer, insts[state.ip]? = some inst ∧ inst.op = .end ∧ inst.jmp = -2 ∧
    state.iters = iter :: outer ∧ (iter.bodyIp, state.ip) ∉ spans

/-- The end of a range goes on with another one, or a value is not read as it is meant. -/
def Astray (state : State F) : Prop :=
  Foreign insts spans state ∨
    ∃ inst, insts[state.ip]? = some inst ∧ ¬AsMeant formatFloat inst.op inst.arg state.dot

/-- A round goes from one state to another. -/
def Moves (state next : State F) : Prop :=
  state.step formatFloat insts = .next next

/-- A run that does not go astray. -/
inductive Reaches : State F → State F → Prop
  | refl (state : State F) : Reaches state state
  | step {state next last : State F} (calm : ¬Astray formatFloat insts spans state)
      (moves : Moves formatFloat insts state next) (rest : Reaches next last) : Reaches state last

variable {formatFloat insts spans}

theorem Reaches.trans {first second third : State F}
    (reaches : Reaches formatFloat insts spans first second)
    (later : Reaches formatFloat insts spans second third) :
    Reaches formatFloat insts spans first third := by
  induction reaches with
  | refl state => exact later
  | step calm moves rest ih => exact .step calm moves (ih later)

theorem Reaches.single {state next : State F} (calm : ¬Astray formatFloat insts spans state)
    (moves : Moves formatFloat insts state next) : Reaches formatFloat insts spans state next :=
  .step calm moves (.refl next)

theorem Reaches.visits {first last : State F}
    (reaches : Reaches formatFloat insts spans first last) :
    ReflTransGen (Moves formatFloat insts) first last := by
  induction reaches with
  | refl state => exact .refl
  | step calm moves rest ih => exact .head moves ih

theorem Reaches.all {first last : State F} (reaches : Reaches formatFloat insts spans first last)
    (stops : ∀ next, ¬Moves formatFloat insts last next)
    (calm : ¬Astray formatFloat insts spans last) {state : State F}
    (visits : ReflTransGen (Moves formatFloat insts) first state) :
    ¬Astray formatFloat insts spans state := by
  induction reaches with
  | refl last =>
    rcases visits.cases_head with rfl | ⟨next, moves, _⟩
    · exact calm
    · exact absurd moves (stops next)
  | step calm' moves rest ih =>
    rcases visits.cases_head with rfl | ⟨next, moves', later⟩
    · exact calm'
    · have same := moves.symm.trans moves'
      cases same
      exact ih stops calm later

theorem Reaches.tplExec {first last : State F}
    (reaches : Reaches formatFloat insts spans first last) {returned : Option Bytes}
    (stops : tplExec formatFloat insts 1 last = some returned) :
    ∃ rounds, tplExec formatFloat insts rounds first = some returned := by
  induction reaches with
  | refl last => exact ⟨1, stops⟩
  | step calm moves rest ih =>
    rcases ih stops with ⟨rounds, returns⟩
    refine ⟨rounds + 1, ?_⟩
    rw [Templates.tplExec, moves]
    exact returns

/-- A run follows a reading: it comes to a state for the text, or it fails, or it goes astray. -/
def Follows (formatFloat : F → Bytes) (insts : List Inst) (spans : List (ℕ × ℕ)) :
    Reading → State F → (Bytes → State F) → Prop
  | .text out, state, final => Reaches formatFloat insts spans state (final out)
  | .failed, state, _ =>
    ∃ last, Reaches formatFloat insts spans state last ∧
      ¬Astray formatFloat insts spans last ∧ last.step formatFloat insts = .failed
  | .disturbed, state, _ =>
    ∃ last, Reaches formatFloat insts spans state last ∧ Astray formatFloat insts spans last

theorem Follows.after {reading : Reading} {first state : State F} {final : Bytes → State F}
    (reaches : Reaches formatFloat insts spans first state)
    (follows : Follows formatFloat insts spans reading state final) :
    Follows formatFloat insts spans reading first final := by
  cases reading with
  | text out => exact reaches.trans follows
  | failed =>
    rcases follows with ⟨last, later, failed⟩
    exact ⟨last, reaches.trans later, failed⟩
  | disturbed =>
    rcases follows with ⟨last, later, astray⟩
    exact ⟨last, reaches.trans later, astray⟩

theorem Follows.arrives {reading : Reading} {state : State F} {final last : Bytes → State F}
    (follows : Follows formatFloat insts spans reading state final)
    (reaches : ∀ out, Reaches formatFloat insts spans (final out) (last out)) :
    Follows formatFloat insts spans reading state last := by
  cases reading with
  | text out => exact Reaches.trans follows (reaches out)
  | failed | disturbed => exact follows

theorem Follows.before {first second : Reading} {state : State F} {middle last : Bytes → State F}
    (follows : Follows formatFloat insts spans first state middle)
    (later : ∀ out, Follows formatFloat insts spans second (middle out) fun out' =>
      last (out ++ out')) :
    Follows formatFloat insts spans (first.before second) state last := by
  cases first with
  | failed | disturbed => exact follows
  | text out =>
    have joined := (later out).after follows
    cases second with
    | text _ | failed | disturbed => exact joined

/-- A state at an instruction, with so much written behind what has been written. -/
def State.movedTo (state : State F) (ip : ℕ) (out : Bytes) : State F :=
  { state with ip := ip, out := state.out ++ out }

theorem located_cons {inst : Inst} {later : List Inst} {start : ℕ}
    (located : inst :: later <+: insts.drop start) :
    insts[start]? = some inst ∧ later <+: insts.drop (start + 1) := by
  rcases located with ⟨behind, whole⟩
  constructor
  · rw [← List.head?_drop, ← whole]
    rfl
  · rw [← drop_drop, ← whole]
    exact ⟨behind, rfl⟩

theorem located_append {first later : List Inst} {start : ℕ}
    (located : first ++ later <+: insts.drop start) :
    first <+: insts.drop start ∧ later <+: insts.drop (start + first.length) := by
  rcases located with ⟨behind, whole⟩
  constructor
  · exact ⟨later ++ behind, by rw [← append_assoc]; exact whole⟩
  · rw [← drop_drop, ← whole, append_assoc, drop_left]
    exact ⟨behind, rfl⟩

section

variable {state : State F} {op : TplOp} {arg : Arg} {pop : ℤ}

theorem calm_of_inst {inst : Inst} (isInst : insts[state.ip]? = some inst)
    (asMeant : AsMeant formatFloat inst.op inst.arg state.dot)
    (noRange : inst.op ≠ .end ∨ inst.jmp ≠ -2) : ¬Astray formatFloat insts spans state := by
  rintro (⟨inst', iter, outer, isInst', isEnd, isRange, _⟩ | ⟨inst', isInst', strays⟩)
  · rw [isInst] at isInst'
    cases isInst'
    exact noRange.elim (absurd isEnd) (absurd isRange)
  · rw [isInst] at isInst'
    cases isInst'
    exact strays asMeant

/-- Where a value is misread the run goes astray, else it goes on as it is meant. -/
theorem follows_unless {jmp : ℤ} (isInst : insts[state.ip]? = some ⟨op, arg, jmp⟩)
    {reading : Reading} {final : Bytes → State F}
    (follows : AsMeant formatFloat op arg state.dot →
      Follows formatFloat insts spans reading state final) :
    Follows formatFloat insts spans (reading.unless (misread formatFloat op arg state.dot)) state
      final := by
  have exactly := asMeant_iff formatFloat op arg state.dot
  cases misreads : misread formatFloat op arg state.dot with
  | false => exact follows (exactly.mpr misreads)
  | true =>
    refine ⟨state, .refl state, .inr ⟨_, isInst, fun asMeant => ?_⟩⟩
    rw [exactly.mp asMeant] at misreads
    cases misreads

theorem movedTo_nil (state : State F) (ip : ℕ) : state.movedTo ip [] = { state with ip := ip } := by
  rw [State.movedTo, append_nil]

theorem movedTo_movedTo (state : State F) (ip ip' : ℕ) (out out' : Bytes) :
    (state.movedTo ip out).movedTo ip' out' = state.movedTo ip' (out ++ out') := by
  rw [State.movedTo, State.movedTo, State.movedTo, append_assoc]

theorem jump_eq {target : ℕ} (inside : target < insts.length) :
    state.jump insts.length target = .next { state with ip := target } := by
  rw [State.jump, if_neg]
  · rfl
  · omega

theorem follows_plain (isPlain : op.IsPlain) {jmp : ℤ}
    (isInst : insts[state.ip]? = some ⟨op, arg, jmp⟩)
    (asMeant : AsMeant formatFloat op arg state.dot) :
    Follows formatFloat insts spans (.ofText (emitted formatFloat op arg state.dot)) state
      (state.movedTo (state.ip + 1)) := by
  have calm : ¬Astray formatFloat insts spans state :=
    calm_of_inst isInst asMeant (.inl isPlain.2.2.2.2.2)
  have steps : state.step formatFloat insts =
      match emitted formatFloat op arg state.dot with
      | none => .failed
      | some out => .next (state.movedTo (state.ip + 1) out) := by
    have silent : state.advance = state.movedTo (state.ip + 1) [] :=
      (movedTo_nil state _).symm
    have emits {value meant : Value F} (same : value = meant)
        (text : meant.toText formatFloat = some (meant.text formatFloat)) :
        state.emit formatFloat value =
          .next (state.movedTo (state.ip + 1) (meant.text formatFloat)) := by
      rw [State.emit, same, text]
      rfl
    rcases isPlain with ⟨notIf, notRange, notWith, notElse, notRangeElse, notEnd⟩
    rw [State.step, isInst]
    cases op with
    | text =>
      cases arg with
      | string text => rfl
      | _ => rfl
    | field =>
      cases arg with
      | string name => exact emits asMeant.1 asMeant.2
      | _ => rfl
    | chain =>
      cases arg with
      | path names => exact emits asMeant.1 asMeant.2
      | _ => rfl
    | rootRef => exact emits rfl asMeant
    | ifBegin => exact absurd rfl notIf
    | rangeBegin => exact absurd rfl notRange
    | withBegin => exact absurd rfl notWith
    | ifElse => exact absurd rfl notElse
    | rangeElse => exact absurd rfl notRangeElse
    | «end» => exact absurd rfl notEnd
    | _ => exact congrArg Result.next silent
  cases text : emitted formatFloat op arg state.dot with
  | none =>
    rw [text] at steps
    exact ⟨state, .refl state, calm, steps⟩
  | some out =>
    rw [text] at steps
    exact .single calm steps

theorem reaches_end (isInst : insts[state.ip]? = some ⟨.end, .null, 0⟩) :
    Reaches formatFloat insts spans state { state with ip := state.ip + 1 } := by
  apply Reaches.single (calm_of_inst isInst trivial (.inr (by decide)))
  rw [Moves, State.step, isInst]
  rfl

theorem reaches_endWithin {dot outer : Value F} {scopes : List (Value F)} {ip : ℕ}
    {iters : List (IterState F)} {out : Bytes} (isInst : insts[ip]? = some ⟨.end, .null, -1⟩) :
    Reaches formatFloat insts spans ⟨ip, dot, outer :: scopes, iters, out⟩
      ⟨ip + 1, outer, scopes, iters, out⟩ := by
  have calm : ¬Astray formatFloat insts spans ⟨ip, dot, outer :: scopes, iters, out⟩ :=
    calm_of_inst isInst trivial (.inr (by decide))
  apply Reaches.single calm
  rw [Moves, State.step]
  rw [isInst]
  rfl

theorem reaches_else {target : ℕ} (isInst : insts[state.ip]? = some ⟨.ifElse, .null, target⟩)
    (inside : target < insts.length) :
    Reaches formatFloat insts spans state { state with ip := target } := by
  apply Reaches.single (calm_of_inst isInst trivial (.inl (by simp)))
  rw [Moves, State.step, isInst]
  exact jump_eq inside

theorem follows_each {reading : Value F → Reading} {bodyStart endIdx : ℕ} {items : List (Value F)}
    {outer : Value F} {scopes : List (Value F)} {iters : List (IterState F)}
    (isEnd : insts[endIdx]? = some ⟨.end, .null, -2⟩) (isSpan : (bodyStart, endIdx) ∈ spans)
    (ofBody : ∀ item index out, Follows formatFloat insts spans (reading item)
      ⟨bodyStart, item, outer :: scopes, ⟨items, index, bodyStart⟩ :: iters, out⟩ fun out' =>
        ⟨endIdx, item, outer :: scopes, ⟨items, index, bodyStart⟩ :: iters, out ++ out'⟩)
    (item : Value F) (rest : List (Value F)) (index : ℕ)
    (isRest : items.drop index = item :: rest) (out : Bytes) :
    Follows formatFloat insts spans (readEach reading (item :: rest))
      ⟨bodyStart, item, outer :: scopes, ⟨items, index, bodyStart⟩ :: iters, out⟩ fun out' =>
        ⟨endIdx + 1, outer, scopes, iters, out ++ out'⟩ := by
  have calm (item : Value F) (index : ℕ) (out : Bytes) : ¬Astray formatFloat insts spans
      ⟨endIdx, item, outer :: scopes, ⟨items, index, bodyStart⟩ :: iters, out⟩ := by
    rintro (⟨inst, iter, iters', _, _, _, same, noSpan⟩ | ⟨inst, isInst, strays⟩)
    · cases same
      exact noSpan isSpan
    · cases isEnd.symm.trans isInst
      exact strays trivial
  have steps (item : Value F) (index : ℕ) (out : Bytes) :
      (⟨endIdx, item, outer :: scopes, ⟨items, index, bodyStart⟩ :: iters, out⟩ : State F).step
          formatFloat insts =
      (⟨endIdx, item, outer :: scopes, ⟨items, index, bodyStart⟩ :: iters, out⟩ :
        State F).endRange := by
    rw [State.step]
    rw [isEnd]
    rfl
  induction rest generalizing item index out with
  | nil =>
    have last : items[index + 1]? = none := by
      rw [← List.head?_drop, ← drop_drop, isRest]
      rfl
    have ends (out : Bytes) := steps item index out
    simp only [State.endRange, last] at ends
    rw [readEach]
    apply (ofBody item index out).before
    intro out'
    rw [readEach]
    change Reaches _ _ _ _ ⟨endIdx + 1, outer, scopes, iters, out ++ (out' ++ [])⟩
    rw [append_nil]
    exact .single (calm item index (out ++ out')) (ends (out ++ out'))
  | cons next rest ih =>
    have isNext : items.drop (index + 1) = next :: rest := by
      rw [← drop_drop, isRest]
      rfl
    have more : items[index + 1]? = some next := by
      rw [← List.head?_drop, isNext]
      rfl
    have goesOn (out : Bytes) := steps item index out
    simp only [State.endRange, more] at goesOn
    rw [readEach]
    apply (ofBody item index out).before
    intro out'
    have later := (ih next (index + 1) isNext (out ++ out')).after
      (.single (calm item index (out ++ out')) (goesOn (out ++ out')))
    simp only [append_assoc] at later
    exact later

end

theorem inside_of_inst {ip : ℕ} {inst : Inst} (isInst : insts[ip]? = some inst) :
    ip < insts.length :=
  (List.getElem?_eq_some_iff.mp isInst).1

theorem located_block {op : TplOp} {arg : Arg} {pop : ℤ} {start size : ℕ} {body later : List Inst}
    (length : body.length = size)
    (located : Nodes.block op arg pop start size body ++ later <+: insts.drop start) :
    insts[start]? = some ⟨op, arg, (start + 1 + size : ℕ)⟩ ∧ body <+: insts.drop (start + 1) ∧
      insts[start + 1 + size]? = some ⟨.end, .null, pop⟩ ∧
      later <+: insts.drop (start + (size + 2)) := by
  rcases located_append located with ⟨isBlock, isLater⟩
  rcases located_cons isBlock with ⟨first, parts⟩
  rcases located_append parts with ⟨isBody, isEnd⟩
  rw [length] at isEnd
  rw [Nodes.length_block, length] at isLater
  exact ⟨first, isBody, (located_cons isEnd).1, isLater⟩

theorem located_blockElse {op : TplOp} {arg : Arg} {pop : ℤ} {start bodySize otherSize : ℕ}
    {body other later : List Inst} (length : body.length = bodySize)
    (length' : other.length = otherSize)
    (located : Nodes.blockElse op arg pop start bodySize otherSize body other ++ later <+:
      insts.drop start) :
    insts[start]? = some ⟨op, arg, (start + 1 + bodySize + 1 : ℕ)⟩ ∧
      body <+: insts.drop (start + 1) ∧
      insts[start + 1 + bodySize]? =
        some ⟨.ifElse, .null, (start + 1 + bodySize + 1 + otherSize : ℕ)⟩ ∧
      other <+: insts.drop (start + 1 + bodySize + 1) ∧
      insts[start + 1 + bodySize + 1 + otherSize]? = some ⟨.end, .null, pop⟩ ∧
      later <+: insts.drop (start + (bodySize + 1 + otherSize + 2)) := by
  rcases located_append located with ⟨isBlock, isLater⟩
  rcases located_cons isBlock with ⟨first, parts⟩
  rcases located_append parts with ⟨isBody, isElse⟩
  rw [length] at isElse
  rcases located_cons isElse with ⟨second, isOther⟩
  rcases located_append isOther with ⟨isOther, isEnd⟩
  rw [length'] at isEnd
  rw [Nodes.length_blockElse, length, length'] at isLater
  exact ⟨first, isBody, second, isOther, (located_cons isEnd).1, isLater⟩

/-- A state before nodes: the stacks have room for their blocks, and the innermost iteration is one
of a range around them. -/
structure Ready (nodes : Nodes) (start : ℕ) (state : State F) : Prop where
  ip : state.ip = start
  itersRoom : state.iters.length + nodes.depth ≤ iterLimit
  scopesRoom : state.scopes.length + nodes.depth < dotLimit
  outer : ∀ iter ∈ state.iters.head?, iter.bodyIp ≤ start

/-- Some iteration goes on. -/
def State.inside (state : State F) : Bool :=
  !state.iters.isEmpty

/-- Nodes are executed as they are read, wherever they are. -/
def Simulated (formatFloat : F → Bytes) (insts : List Inst) (spans : List (ℕ × ℕ))
    (nodes : Nodes) : Prop :=
  ∀ (start : ℕ) (state : State F), nodes.flatten start <+: insts.drop start →
    (∀ span ∈ nodes.spans start, span ∈ spans) → Ready nodes start state →
      Follows formatFloat insts spans (nodes.reading formatFloat state.inside state.dot) state
        (state.movedTo (start + nodes.size))

section

variable {nodes body other rest : Nodes} {start : ℕ} {state : State F}

theorem Ready.moved (ready : Ready nodes start state) {middle : ℕ} (behind : start ≤ middle)
    (shallow : rest.depth ≤ nodes.depth) (out : Bytes) :
    Ready rest middle (state.movedTo middle out) where
  ip := rfl
  itersRoom := by
    have room := ready.itersRoom
    change state.iters.length + rest.depth ≤ iterLimit
    omega
  scopesRoom := by
    have room := ready.scopesRoom
    change state.scopes.length + rest.depth < dotLimit
    omega
  outer iter isHead := (ready.outer iter isHead).trans behind

theorem Simulated.behind (ofRest : Simulated formatFloat insts spans rest)
    (ready : Ready nodes start state) {reading : Reading} {middle stop : ℕ}
    (follows : Follows formatFloat insts spans reading state (state.movedTo middle))
    (behind : start ≤ middle) (shallow : rest.depth ≤ nodes.depth)
    (located : rest.flatten middle <+: insts.drop middle)
    (included : ∀ span ∈ rest.spans middle, span ∈ spans) (total : middle + rest.size = stop) :
    Follows formatFloat insts spans
      (reading.before (rest.reading formatFloat state.inside state.dot)) state
      (state.movedTo stop) := by
  subst total
  apply follows.before
  intro out
  have later := ofRest middle (state.movedTo middle out) located included
    (ready.moved behind shallow out)
  have places : (state.movedTo middle out).movedTo (middle + rest.size) =
      fun out' => state.movedTo (middle + rest.size) (out ++ out') := by
    funext out'
    exact movedTo_movedTo state middle _ out out'
  rw [places] at later
  exact later

/-- A part of a block that is entered by a jump, and left for the instruction behind the end. -/
theorem Simulated.part (ofBody : Simulated formatFloat insts spans body)
    (ready : Ready nodes start state) (entry stop : ℕ)
    (enters : Reaches formatFloat insts spans state { state with ip := entry })
    (behind : start ≤ entry) (shallow : body.depth ≤ nodes.depth)
    (located : body.flatten entry <+: insts.drop entry)
    (included : ∀ span ∈ body.spans entry, span ∈ spans)
    (leaves : ∀ out, Reaches formatFloat insts spans (state.movedTo (entry + body.size) out)
      (state.movedTo stop out)) :
    Follows formatFloat insts spans (body.reading formatFloat state.inside state.dot) state
      (state.movedTo stop) := by
  have atEntry := ready.moved behind shallow []
  rw [movedTo_nil] at atEntry
  exact ((ofBody entry _ located included atEntry).arrives leaves).after enters

theorem reaches_endBlock {ip : ℕ} (isEnd : insts[ip]? = some ⟨.end, .null, 0⟩) (out : Bytes) :
    Reaches formatFloat insts spans (state.movedTo ip out) (state.movedTo (ip + 1) out) :=
  reaches_end isEnd

theorem reaches_elseBlock {ip target : ℕ} (isElse : insts[ip]? = some ⟨.ifElse, .null, target⟩)
    (inside : target < insts.length) (out : Bytes) :
    Reaches formatFloat insts spans (state.movedTo ip out) (state.movedTo target out) :=
  reaches_else isElse inside

theorem Reading.nil_before (reading : Reading) : (Reading.text []).before reading = reading := by
  cases reading with
  | text out => rfl
  | failed => rfl
  | disturbed => rfl

theorem step_condition {arg : Arg} {target : ℕ}
    (isInst : insts[state.ip]? = some ⟨.ifBegin, arg, target⟩) (inside : target < insts.length)
    (asMeant : AsMeant formatFloat .ifBegin arg state.dot) :
    state.step formatFloat insts =
      match (state.dot.meant arg).holds with
      | none => .failed
      | some true => .next { state with ip := state.ip + 1 }
      | some false => .next { state with ip := target } := by
  rw [State.step, isInst]
  dsimp only
  rw [asMeant.1, asMeant.2]
  cases (state.dot.meant arg).holds with
  | none => rfl
  | some holds =>
    cases holds with
    | true => rfl
    | false => exact jump_eq inside

theorem behind_block (ip size : ℕ) : ip + (size + 2) = ip + 1 + size + 1 := by
  omega

theorem behind_blockElse (ip size other : ℕ) :
    ip + (size + 1 + other + 2) = ip + 1 + size + 1 + other + 1 := by
  omega

theorem simulated_conditional {arg : Arg} (ofBody : Simulated formatFloat insts spans body)
    (ofRest : Simulated formatFloat insts spans rest) :
    Simulated formatFloat insts spans (.conditional arg body rest) := by
  intro start state located included ready
  have atStart := ready.ip
  subst atStart
  rcases located_block (body.length_flatten _) located with ⟨isIf, isBody, isEnd, isRest⟩
  rcases forall_mem_append.mp included with ⟨bodyIncluded, restIncluded⟩
  have shallow : body.depth ≤ (Nodes.conditional arg body rest).depth ∧
      rest.depth ≤ (Nodes.conditional arg body rest).depth := by
    rw [Nodes.depth]
    omega
  have total : state.ip + (body.size + 2) + rest.size =
      state.ip + (Nodes.conditional arg body rest).size := by
    rw [Nodes.size]
    omega
  rw [Nodes.reading]
  refine follows_unless isIf fun asMeant => ?_
  have steps : state.step formatFloat insts = _ :=
    step_condition isIf (inside_of_inst isEnd) asMeant
  have calm : ¬Astray formatFloat insts spans state := calm_of_inst isIf asMeant (.inl (by simp))
  cases holds : (state.dot.meant arg).holds with
  | none =>
    rw [holds] at steps
    exact ⟨state, .refl state, calm, steps⟩
  | some holds' =>
    rw [holds] at steps
    cases holds' with
    | true =>
      have follows := ofBody.part ready _ _ (.single calm steps) (le_succ _) shallow.1
        isBody bodyIncluded (reaches_endBlock isEnd)
      rw [← behind_block] at follows
      exact ofRest.behind ready follows (le_add_right _ _) shallow.2 isRest restIncluded total
    | false =>
      have jumps : Reaches formatFloat insts spans state
          (state.movedTo (state.ip + 1 + body.size) []) := by
        rw [movedTo_nil]
        exact .single calm steps
      have follows : Follows formatFloat insts spans (.text []) state
          (state.movedTo (state.ip + (body.size + 2))) := by
        rw [behind_block]
        exact jumps.trans (reaches_endBlock isEnd [])
      have later := ofRest.behind ready follows (le_add_right _ _) shallow.2 isRest
        restIncluded total
      rw [Reading.nil_before] at later
      exact later

theorem simulated_conditionalElse {arg : Arg} (ofBody : Simulated formatFloat insts spans body)
    (ofOther : Simulated formatFloat insts spans other)
    (ofRest : Simulated formatFloat insts spans rest) :
    Simulated formatFloat insts spans (.conditionalElse arg body other rest) := by
  intro start state located included ready
  have atStart := ready.ip
  subst atStart
  rcases located_blockElse (body.length_flatten _) (other.length_flatten _) located with
    ⟨isIf, isBody, isElse, isOther, isEnd, isRest⟩
  rcases forall_mem_append.mp included with ⟨bodyIncluded, included⟩
  rcases forall_mem_append.mp included with ⟨otherIncluded, restIncluded⟩
  have inside := inside_of_inst isEnd
  have shallow : body.depth ≤ (Nodes.conditionalElse arg body other rest).depth ∧
      other.depth ≤ (Nodes.conditionalElse arg body other rest).depth ∧
      rest.depth ≤ (Nodes.conditionalElse arg body other rest).depth := by
    rw [Nodes.depth]
    omega
  have total : state.ip + (body.size + 1 + other.size + 2) + rest.size =
      state.ip + (Nodes.conditionalElse arg body other rest).size := by
    rw [Nodes.size]
    omega
  rw [Nodes.reading]
  refine follows_unless isIf fun asMeant => ?_
  have steps : state.step formatFloat insts = _ := step_condition isIf (by omega) asMeant
  have calm : ¬Astray formatFloat insts spans state := calm_of_inst isIf asMeant (.inl (by simp))
  cases holds : (state.dot.meant arg).holds with
  | none =>
    rw [holds] at steps
    exact ⟨state, .refl state, calm, steps⟩
  | some holds' =>
    rw [holds] at steps
    cases holds' with
    | true =>
      have follows := ofBody.part ready _ _ (.single calm steps) (le_succ _) shallow.1
        isBody bodyIncluded fun out =>
          (reaches_elseBlock isElse inside out).trans (reaches_endBlock isEnd out)
      rw [← behind_blockElse] at follows
      exact ofRest.behind ready follows (le_add_right _ _) shallow.2.2 isRest restIncluded total
    | false =>
      have follows := ofOther.part ready _ _ (.single calm steps) (by omega) shallow.2.1 isOther
        otherIncluded (reaches_endBlock isEnd)
      rw [← behind_blockElse] at follows
      exact ofRest.behind ready follows (le_add_right _ _) shallow.2.2 isRest restIncluded total

theorem step_range {arg : Arg} {target : ℕ}
    (isInst : insts[state.ip]? = some ⟨.rangeBegin, arg, target⟩) (inside : target < insts.length)
    (itersRoom : state.iters.length < iterLimit) (scopesRoom : state.scopes.length + 1 < dotLimit)
    (asMeant : AsMeant formatFloat .rangeBegin arg state.dot) :
    state.step formatFloat insts =
      match (state.dot.meant arg).items with
      | [] => .next { state with ip := target }
      | item :: items => .next ⟨state.ip + 1, item, state.dot :: state.scopes,
          ⟨item :: items, 0, state.ip + 1⟩ :: state.iters, state.out⟩ := by
  rw [State.step, isInst]
  dsimp only
  rw [State.beginRange, asMeant.1, asMeant.2]
  cases (state.dot.meant arg).items with
  | nil => exact jump_eq inside
  | cons item items =>
    dsimp only
    rw [if_neg (Nat.not_le_of_lt itersRoom), if_neg (by omega)]
    rfl

/-- The end of a range without elements, in no iteration or in one of another range. -/
theorem follows_emptyRange (one : Nodes.OneEach spans) {endIdx : ℕ}
    (isEnd : insts[endIdx]? = some ⟨.end, .null, -2⟩) (isSpan : (start + 1, endIdx) ∈ spans)
    (ready : Ready nodes start state) (out : Bytes) :
    Follows formatFloat insts spans (emptyRange state.inside) (state.movedTo endIdx out) fun out' =>
      state.movedTo (endIdx + 1) (out ++ out') := by
  cases iters : state.iters with
  | nil =>
    have outside : state.inside = false := by
      rw [State.inside, iters]
      rfl
    rw [outside]
    change Reaches _ _ _ _ (state.movedTo (endIdx + 1) (out ++ []))
    rw [append_nil]
    apply Reaches.single
    · rintro (⟨inst, iter, outer, _, _, _, same, _⟩ | ⟨inst, isInst, strays⟩)
      · change state.iters = _ at same
        rw [iters] at same
        cases same
      · cases isEnd.symm.trans isInst
        exact strays trivial
    · have here : insts[(state.movedTo endIdx out).ip]? = _ := isEnd
      have none_ : (state.movedTo endIdx out).iters = [] := iters
      rw [Moves, State.step, here]
      change State.endRange _ = _
      rw [State.endRange, none_]
      rfl
  | cons iter outer =>
    have inside : state.inside = true := by
      rw [State.inside, iters]
      rfl
    rw [inside]
    refine ⟨_, .refl _, .inl ⟨_, iter, outer, isEnd, rfl, rfl, iters, fun isOther => ?_⟩⟩
    have same := one _ isOther _ isSpan rfl
    have around := ready.outer iter (iters ▸ rfl)
    have begins := congrArg Prod.fst same
    change iter.bodyIp = start + 1 at begins
    omega

theorem follows_range (ofBody : Simulated formatFloat insts spans body)
    (ready : Ready nodes start state) (deeper : body.depth + 1 ≤ nodes.depth)
    (located : body.flatten (state.ip + 1) <+: insts.drop (state.ip + 1))
    (included : ∀ span ∈ body.spans (state.ip + 1), span ∈ spans) {endIdx : ℕ}
    (isEnd : insts[endIdx]? = some ⟨.end, .null, -2⟩) (isSpan : (state.ip + 1, endIdx) ∈ spans)
    (arrives : ∀ (inner : State F) (out : Bytes), Reaches formatFloat insts spans
      (inner.movedTo (state.ip + 1 + body.size) out) (inner.movedTo endIdx out))
    {item : Value F} {items : List (Value F)}
    (begins : Reaches formatFloat insts spans state ⟨state.ip + 1, item, state.dot :: state.scopes,
      ⟨item :: items, 0, state.ip + 1⟩ :: state.iters, state.out⟩) :
    Follows formatFloat insts spans
      (readEach (body.reading formatFloat true) (item :: items)) state
      (state.movedTo (endIdx + 1)) := by
  have rounds (value : Value F) (index : ℕ) (out : Bytes) :
      Follows formatFloat insts spans (body.reading formatFloat true value)
        ⟨state.ip + 1, value, state.dot :: state.scopes,
          ⟨item :: items, index, state.ip + 1⟩ :: state.iters, out⟩ fun out' =>
        ⟨endIdx, value, state.dot :: state.scopes,
          ⟨item :: items, index, state.ip + 1⟩ :: state.iters, out ++ out'⟩ := by
    have inner : Ready body (state.ip + 1) (⟨state.ip + 1, value, state.dot :: state.scopes,
        ⟨item :: items, index, state.ip + 1⟩ :: state.iters, out⟩ : State F) := by
      have itersRoom := ready.itersRoom
      have scopesRoom := ready.scopesRoom
      constructor
      · rfl
      · change state.iters.length + 1 + body.depth ≤ iterLimit
        omega
      · change state.scopes.length + 1 + body.depth < dotLimit
        omega
      · rintro iter ⟨⟩
        exact le_refl _
    exact (ofBody _ _ located included inner).arrives (arrives _)
  exact (follows_each isEnd isSpan rounds item items 0 rfl state.out).after begins

theorem simulated_range {arg : Arg} (one : Nodes.OneEach spans)
    (ofBody : Simulated formatFloat insts spans body)
    (ofRest : Simulated formatFloat insts spans rest) :
    Simulated formatFloat insts spans (.range arg body rest) := by
  intro start state located included ready
  have atStart := ready.ip
  subst atStart
  rcases located_block (body.length_flatten _) located with ⟨isRange, isBody, isEnd, isRest⟩
  rcases forall_mem_cons.mp included with ⟨isSpan, included⟩
  rcases forall_mem_append.mp included with ⟨bodyIncluded, restIncluded⟩
  have shallow : body.depth + 1 ≤ (Nodes.range arg body rest).depth ∧
      rest.depth ≤ (Nodes.range arg body rest).depth := by
    rw [Nodes.depth]
    omega
  have total : state.ip + (body.size + 2) + rest.size =
      state.ip + (Nodes.range arg body rest).size := by
    rw [Nodes.size]
    omega
  have itersRoom := ready.itersRoom
  have scopesRoom := ready.scopesRoom
  rw [Nodes.reading]
  refine follows_unless isRange fun asMeant => ?_
  have steps : state.step formatFloat insts = _ :=
    step_range isRange (inside_of_inst isEnd) (by omega) (by omega) asMeant
  have calm : ¬Astray formatFloat insts spans state := calm_of_inst isRange asMeant (.inl (by simp))
  cases elements : (state.dot.meant arg).items with
  | nil =>
    rw [elements] at steps
    have follows : Follows formatFloat _ _ _ _ _ := follows_emptyRange one isEnd isSpan ready []
    rw [movedTo_nil] at follows
    have jumped := follows.after (.single calm steps)
    rw [← behind_block] at jumped
    exact ofRest.behind ready jumped (le_add_right _ _) shallow.2 isRest restIncluded total
  | cons item items =>
    rw [elements] at steps
    have follows := follows_range ofBody ready shallow.1 isBody bodyIncluded isEnd isSpan
      (fun inner out => .refl _) (.single calm steps)
    rw [← behind_block] at follows
    exact ofRest.behind ready follows (le_add_right _ _) shallow.2 isRest restIncluded total

theorem simulated_rangeElse {arg : Arg} (one : Nodes.OneEach spans)
    (ofBody : Simulated formatFloat insts spans body)
    (ofOther : Simulated formatFloat insts spans other)
    (ofRest : Simulated formatFloat insts spans rest) :
    Simulated formatFloat insts spans (.rangeElse arg body other rest) := by
  intro start state located included ready
  have atStart := ready.ip
  subst atStart
  rcases located_blockElse (body.length_flatten _) (other.length_flatten _) located with
    ⟨isRange, isBody, isElse, isOther, isEnd, isRest⟩
  rcases forall_mem_cons.mp included with ⟨isSpan, included⟩
  rcases forall_mem_append.mp included with ⟨bodyIncluded, included⟩
  rcases forall_mem_append.mp included with ⟨otherIncluded, restIncluded⟩
  have shallow : body.depth + 1 ≤ (Nodes.rangeElse arg body other rest).depth ∧
      other.depth + 1 ≤ (Nodes.rangeElse arg body other rest).depth ∧
      rest.depth ≤ (Nodes.rangeElse arg body other rest).depth := by
    rw [Nodes.depth]
    omega
  have total : state.ip + (body.size + 1 + other.size + 2) + rest.size =
      state.ip + (Nodes.rangeElse arg body other rest).size := by
    rw [Nodes.size]
    omega
  have inside := inside_of_inst isEnd
  have itersRoom := ready.itersRoom
  have scopesRoom := ready.scopesRoom
  rw [Nodes.reading]
  refine follows_unless isRange fun asMeant => ?_
  have steps : state.step formatFloat insts = _ :=
    step_range isRange (by omega) (by omega) (by omega) asMeant
  have calm : ¬Astray formatFloat insts spans state := calm_of_inst isRange asMeant (.inl (by simp))
  cases elements : (state.dot.meant arg).items with
  | nil =>
    rw [elements] at steps
    have follows := ofOther.part ready _ _ (.single calm steps) (by omega) (by omega) isOther
      otherIncluded fun out => .refl _
    have ended := follows.before fun out => follows_emptyRange one isEnd isSpan ready out
    rw [← behind_blockElse] at ended
    exact ofRest.behind ready ended (le_add_right _ _) shallow.2.2 isRest restIncluded total
  | cons item items =>
    rw [elements] at steps
    have follows := follows_range ofBody ready shallow.1 isBody bodyIncluded isEnd isSpan
      (fun inner out => reaches_elseBlock isElse inside out) (.single calm steps)
    rw [← behind_blockElse] at follows
    exact ofRest.behind ready follows (le_add_right _ _) shallow.2.2 isRest restIncluded total

theorem simulated_within {arg : Arg} (ofBody : Simulated formatFloat insts spans body)
    (ofRest : Simulated formatFloat insts spans rest) :
    Simulated formatFloat insts spans (.within arg body rest) := by
  intro start state located included ready
  have atStart := ready.ip
  subst atStart
  rcases located_block (body.length_flatten _) located with ⟨isWith, isBody, isEnd, isRest⟩
  rcases forall_mem_append.mp included with ⟨bodyIncluded, restIncluded⟩
  have shallow : body.depth + 1 ≤ (Nodes.within arg body rest).depth ∧
      rest.depth ≤ (Nodes.within arg body rest).depth := by
    rw [Nodes.depth]
    omega
  have total : state.ip + (body.size + 2) + rest.size =
      state.ip + (Nodes.within arg body rest).size := by
    rw [Nodes.size]
    omega
  have itersRoom := ready.itersRoom
  have scopesRoom := ready.scopesRoom
  have room : ¬dotLimit - 1 ≤ state.scopes.length := by
    omega
  rw [Nodes.reading]
  refine follows_unless isWith fun asMeant => ?_
  have same : state.dot.evalExpr arg = state.dot.meant arg := asMeant
  have calm : ¬Astray formatFloat insts spans state := calm_of_inst isWith asMeant (.inl (by simp))
  have begins : Moves formatFloat insts state ⟨state.ip + 1, state.dot.meant arg,
      state.dot :: state.scopes, state.iters, state.out⟩ := by
    rw [Moves, State.step, isWith]
    dsimp only
    rw [if_neg room, same]
    rfl
  have inner : Ready body (state.ip + 1) (⟨state.ip + 1, state.dot.meant arg,
      state.dot :: state.scopes, state.iters, state.out⟩ : State F) := by
    constructor
    · rfl
    · change state.iters.length + body.depth ≤ iterLimit
      omega
    · change state.scopes.length + 1 + body.depth < dotLimit
      omega
    · exact fun iter isHead => (ready.outer iter isHead).trans (le_succ _)
  have follows : Follows formatFloat insts spans
      (body.reading formatFloat state.inside (state.dot.meant arg)) state
      (state.movedTo (state.ip + 1 + body.size + 1)) :=
    ((ofBody _ _ isBody bodyIncluded inner).arrives fun out => reaches_endWithin isEnd).after
      (.single calm begins)
  rw [← behind_block] at follows
  exact ofRest.behind ready follows (le_add_right _ _) shallow.2 isRest restIncluded total

theorem simulated_plain {op : TplOp} {arg : Arg} (isPlain : op.IsPlain)
    (ofRest : Simulated formatFloat insts spans rest) :
    Simulated formatFloat insts spans (.plain op isPlain arg rest) := by
  intro start state located included ready
  have atStart := ready.ip
  subst atStart
  rcases located_cons located with ⟨isInst, isRest⟩
  have total : state.ip + 1 + rest.size = state.ip + (Nodes.plain op isPlain arg rest).size := by
    rw [Nodes.size]
    omega
  rw [Nodes.reading]
  exact follows_unless isInst fun asMeant =>
    ofRest.behind ready (follows_plain isPlain isInst asMeant) (le_succ _) (le_refl _) isRest
      included total

/-- Every node is executed as it is read. -/
theorem simulated (one : Nodes.OneEach spans) (nodes : Nodes) :
    Simulated formatFloat insts spans nodes := by
  induction nodes with
  | nil =>
    intro start state _ _ ready
    change Reaches _ _ _ state (state.movedTo (start + 0) [])
    rw [movedTo_nil, add_zero, ← ready.ip]
    exact .refl state
  | plain op isPlain arg rest ofRest => exact simulated_plain isPlain ofRest
  | conditional arg body rest ofBody ofRest => exact simulated_conditional ofBody ofRest
  | conditionalElse arg body other rest ofBody ofOther ofRest =>
    exact simulated_conditionalElse ofBody ofOther ofRest
  | range arg body rest ofBody ofRest => exact simulated_range one ofBody ofRest
  | rangeElse arg body other rest ofBody ofOther ofRest =>
    exact simulated_rangeElse one ofBody ofOther ofRest
  | within arg body rest ofBody ofRest => exact simulated_within ofBody ofRest

end

end

variable (tables : Tables)

/-- A template whose tree is known renders its meaning, and on the way no end of a range goes on
with the iteration of another one, and every value is read as it is meant. -/
def RendersMeaning (src : Bytes) (nodes : Nodes) (data : Value F) : Prop :=
  ∃ insts, tplParse tables src = some insts ∧
    (∃ rounds, tplExec formatFloat insts rounds (.init data) =
      some (nodes.meaning formatFloat data)) ∧
    ∀ state, ReflTransGen (Moves formatFloat insts) (.init data) state →
      ¬Astray formatFloat insts (nodes.spans 0) state

/-- The tree of a source that can be parsed. -/
structure HasTree (src : Bytes) (nodes : Nodes) : Prop where
  tree : ∃ found, pieces src.length src = some found ∧ tokens found = some nodes.tokens
  parses : (tplParse tables src).isSome

variable {tables}

theorem HasTree.tplParse_eq {src : Bytes} {nodes : Nodes} (hasTree : HasTree tables src nodes) :
    tplParse tables src = some (nodes.flatten 0) ∧ nodes.depth ≤ ctrlLimit := by
  rcases hasTree.tree with ⟨found, isSource, isTree⟩
  have parses := hasTree.parses
  by_cases nonempty : src = []
  · subst nonempty
    cases isSource
    cases nodes with
    | nil =>
      have whole : tplParse tables [] = tplBuildObj tables [] := rfl
      rw [whole, tplBuildObj, Option.isSome_ite] at parses
      rw [whole, tplBuildObj, if_pos parses]
      exact ⟨rfl, zero_le _⟩
    | _ => cases isTree
  · have parsed := tplParse_of_nodes tables nonempty isSource isTree
    rw [parsed, Option.isSome_ite] at parses
    rw [if_pos parses] at parsed
    exact ⟨parsed, parses.1⟩

theorem follows_init {nodes : Nodes} (shallow : nodes.depth ≤ ctrlLimit) (data : Value F) :
    Follows formatFloat (nodes.flatten 0) (nodes.spans 0)
      (nodes.reading formatFloat false data) (.init data)
      ((State.init data).movedTo (nodes.flatten 0).length) := by
  have ready : Ready nodes 0 (State.init data) := by
    constructor
    · rfl
    · change 0 + nodes.depth ≤ ctrlLimit
      omega
    · change 0 + nodes.depth < dotLimit
      have limits : ctrlLimit < dotLimit := by decide
      omega
    · exact nofun
  have atRoot : Simulated formatFloat (nodes.flatten 0) (nodes.spans 0) nodes :=
    simulated (nodes.apart_spans 0).one nodes
  have follows := atRoot 0 (State.init data) (prefix_refl _) (fun _ isSpan => isSpan) ready
  rw [zero_add, ← nodes.length_flatten 0] at follows
  exact follows

/-- A template renders its meaning if and only if no range without elements is inside of another
range and no value is misread. -/
theorem rendersMeaning_iff {src : Bytes} {nodes : Nodes} (hasTree : HasTree tables src nodes)
    (data : Value F) :
    RendersMeaning formatFloat tables src nodes data ↔
      nodes.reading formatFloat false data ≠ .disturbed := by
  rcases hasTree.tplParse_eq with ⟨parsed, shallow⟩
  have follows := follows_init formatFloat shallow data
  have means := nodes.means_reading formatFloat false data
  constructor
  · rintro ⟨insts, parsed', _, calm⟩ disturbed
    rw [parsed] at parsed'
    cases parsed'
    rw [disturbed] at follows
    rcases follows with ⟨last, reaches, astray⟩
    exact calm last reaches.visits astray
  · intro calm
    refine ⟨_, parsed, ?_⟩
    rcases means with disturbed | isMeaning
    · exact absurd disturbed calm
    · rw [isMeaning] at follows
      cases meaning : nodes.meaning formatFloat data with
      | none =>
        rw [meaning] at follows
        rcases follows with ⟨last, reaches, lastCalm, failed⟩
        have stops (next : State F) : ¬Moves formatFloat (nodes.flatten 0) last next := by
          intro moves
          rw [Moves, failed] at moves
          cases moves
        refine ⟨reaches.tplExec ?_, fun state => reaches.all stops lastCalm⟩
        rw [tplExec, failed]
      | some out =>
        rw [meaning] at follows
        have atEnd : (nodes.flatten 0)[((State.init data).movedTo (nodes.flatten 0).length out).ip]?
            = none :=
          List.getElem?_length _
        have ended : ((State.init data).movedTo (nodes.flatten 0).length out).step formatFloat
            (nodes.flatten 0) = .done out := by
          rw [State.step, atEnd]
          rfl
        have stops (next : State F) : ¬Moves formatFloat (nodes.flatten 0)
            ((State.init data).movedTo (nodes.flatten 0).length out) next := by
          intro moves
          rw [Moves, ended] at moves
          cases moves
        have lastCalm : ¬Astray formatFloat (nodes.flatten 0) (nodes.spans 0)
            ((State.init data).movedTo (nodes.flatten 0).length out) := by
          rintro (⟨inst, _, _, isInst, _⟩ | ⟨inst, isInst, _⟩)
          · cases atEnd.symm.trans isInst
          · cases atEnd.symm.trans isInst
        have reaches : Reaches formatFloat (nodes.flatten 0) (nodes.spans 0) (.init data) _ :=
          follows
        refine ⟨reaches.tplExec ?_, fun state => reaches.all stops lastCalm⟩
        rw [tplExec, ended]

/-- A text around a `with` in which the elements of an array are written. -/
def listing : Bytes :=
  ascii "\x7b\x7bwith .a\x7d\x7d\x7b\x7brange .\x7d\x7d\x7b\x7b.\x7d\x7d;" ++
    ascii "\x7b\x7belse\x7d\x7dnone\x7b\x7bend\x7d\x7d\x7b\x7bend\x7d\x7d"

def listingNodes : Nodes :=
  .within (.string (ascii "a"))
    (.rangeElse .null
      (.plain .rootRef (by decide) .null (.plain .text (by decide) (.string (ascii ";")) .nil))
      (.plain .text (by decide) (.string (ascii "none")) .nil) .nil) .nil

/-- The value with two numbers. -/
def twoNumbers : Value Unit :=
  .struct [(ascii "a", .array [.int 1, .int 2])]

/-- The machine before any template. -/
def noTables : Tables :=
  ⟨0, []⟩

theorem rendersMeaning_listing :
    RendersMeaning (fun _ => []) noTables listing listingNodes twoNumbers ∧
      listingNodes.meaning (fun _ => []) twoNumbers = some (ascii "1;2;") :=
  ⟨(rendersMeaning_iff _ ⟨⟨_, rfl, rfl⟩, by decide⟩ twoNumbers).mpr (by decide), by decide⟩

theorem tplExec_add {insts : List Inst} {rounds : ℕ} {state : State F} {returned : Option Bytes}
    (returns : tplExec formatFloat insts rounds state = some returned) (more : ℕ) :
    tplExec formatFloat insts (rounds + more) state = some returned := by
  induction rounds generalizing state with
  | zero => cases returns
  | succ rounds ih =>
    rw [Nat.add_right_comm]
    rw [tplExec] at returns ⊢
    cases steps : state.step formatFloat insts with
    | next next =>
      rw [steps] at returns
      exact ih returns
    | done out | failed =>
      rw [steps] at returns
      exact returns

/-- Two ranges in each other, and a text behind the inner one. -/
def innerRange : Bytes :=
  ascii "\x7b\x7brange .\x7d\x7d\x7b\x7brange .\x7d\x7d\x7b\x7bend\x7d\x7dx\x7b\x7bend\x7d\x7d"

def innerRangeNodes : Nodes :=
  .range .null (.range .null .nil (.plain .text (by decide) (.string (ascii "x")) .nil)) .nil

/-- Two arrays without elements. -/
def emptyArrays : Value Unit :=
  .array [.array [], .array []]

/-- The text is there once, and not for both arrays. -/
theorem not_rendersMeaning :
    ¬∀ (tables : Tables) (src : Bytes) (nodes : Nodes) (data : Value Unit),
      HasTree tables src nodes → RendersMeaning (fun _ => []) tables src nodes data := by
  intro always
  have hasTree : HasTree noTables innerRange innerRangeNodes := ⟨⟨_, rfl, rfl⟩, by decide⟩
  rcases always noTables innerRange innerRangeNodes emptyArrays hasTree with
    ⟨insts, parsed, ⟨rounds, returns⟩, _⟩
  cases hasTree.tplParse_eq.1.symm.trans parsed
  have once : tplExec (fun _ => []) (innerRangeNodes.flatten 0) 8 (.init emptyArrays) =
      some (some (ascii "x")) := by
    decide
  have enough := tplExec_add _ once rounds
  rw [add_comm, tplExec_add _ returns] at enough
  exact absurd (Option.some.inj enough) (by decide)

end Gengo.Templates
