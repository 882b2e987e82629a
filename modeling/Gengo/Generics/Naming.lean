import Gengo.Generics.TypeSpec

/-!
# What the name of an instantiation shows

The name of an instantiation prints its arguments, but map and function types without their
parts, an array of optionals without the type that is optional, and `bigint` as `any`. What
it shows can be read back from it, when the names of declared types have none of the
characters that separate them and the buffers are long enough.
-/

namespace Gengo.Generics

open List Bool

/-- What a name shows of a type. -/
inductive Visible
  | atom (name : Text)
  | map
  | func
  | inst (qname : Text) (args : List Visible)
  | array (elem : Visible)
  | optional (type : Visible)

mutual

def visible (registry : Registry) : TypeExpr → Visible
  | .prim name => .atom name.tag.text
  | .declared qname => .atom qname
  | .param name => .atom name
  | .optional type => .optional (visible registry type)
  | .array (.optional _) => .array (.atom PrimTag.null.text)
  | .array elem => .array (visible registry elem)
  | .map _ _ => .map
  | .func _ _ => .func
  | .inst tname args =>
    .inst (qualifyTypeName registry.modulePrefix tname) (visibleAll registry args)

def visibleAll (registry : Registry) : List TypeExpr → List Visible
  | [] => []
  | type :: rest => visible registry type :: visibleAll registry rest

end

namespace Visible

mutual

/-- What is shown, as text. -/
def print : Visible → Text
  | .atom name => name
  | .map => mapText
  | .func => funcText
  | .inst qname args => qname ++ '[' :: printAll args ++ [']']
  | .array elem => '[' :: ']' :: elem.print
  | .optional type => PrimTag.null.text ++ '|' :: type.print

def printAll : List Visible → Text
  | [] => []
  | [type] => type.print
  | type :: rest => type.print ++ ',' :: printAll rest

end

/-- A character of names, not of the notation around them. -/
def plainChar (c : Char) : Bool :=
  c ∉ ['[', ']', ',', '|', '(']

def plainName (name : Text) : Bool :=
  name ≠ [] ∧ name.all plainChar

mutual

/-- Names are plain, and no generic type is called `map`. -/
def proper : Visible → Bool
  | .atom name => plainName name
  | .map | .func => true
  | .inst qname args => plainName qname && qname ≠ ['m', 'a', 'p'] && args ≠ [] && allProper args
  | .array elem => elem.proper
  | .optional type => type.proper

def allProper : List Visible → Bool
  | [] => true
  | type :: rest => type.proper && allProper rest

end

/-- What stands behind a whole type: nothing, or the comma or bracket of an argument list. -/
def Ends (rest : Text) : Prop :=
  ∀ c ∈ rest.head?, c = ',' ∨ c = ']'

/-- A text that does not go on with a character of a name. -/
def Stops (rest : Text) : Prop :=
  ∀ c ∈ rest.head?, plainChar c = false

variable {rest : Text}

theorem Ends.stops (ends : Ends rest) : Stops rest := by
  intro c first
  rcases ends c first with rfl | rfl
  · decide
  · decide

theorem stops_cons {c : Char} (special : plainChar c = false) : Stops (c :: rest) := by
  intro d first
  rw [List.head?_cons, Option.mem_some_iff] at first
  exact first ▸ special

/-- A name ends where the first character is that is not one of names. -/
theorem name_unique {left right leftRest rightRest : Text} (leftPlain : left.all plainChar)
    (rightPlain : right.all plainChar) (leftStops : Stops leftRest) (rightStops : Stops rightRest)
    (same : left ++ leftRest = right ++ rightRest) : left = right ∧ leftRest = rightRest := by
  induction left generalizing right with
  | nil =>
    cases right with
    | nil => exact ⟨rfl, same⟩
    | cons c right =>
      rw [nil_append, cons_append] at same
      rw [all_cons, and_eq_true] at rightPlain
      have special := leftStops c (by rw [same, List.head?_cons]; rfl)
      rw [rightPlain.1] at special
      cases special
  | cons c left ih =>
    rw [all_cons, and_eq_true] at leftPlain
    cases right with
    | nil =>
      rw [nil_append, cons_append] at same
      have special := rightStops c (by rw [← same, List.head?_cons]; rfl)
      rw [leftPlain.1] at special
      cases special
    | cons d right =>
      rw [all_cons, and_eq_true] at rightPlain
      rw [cons_append, cons_append, List.cons.injEq] at same
      obtain ⟨rfl, restEq⟩ := ih leftPlain.2 rightPlain.2 same.2
      exact ⟨by rw [same.1], restEq⟩

/-- The name that a text starts with, and what follows it. -/
def lead : Visible → Text
  | .atom name => name
  | .map => ['m', 'a', 'p']
  | .func => ['f', 'u', 'n', 'c']
  | .inst qname _ => qname
  | .array _ => []
  | .optional _ => PrimTag.null.text

def follow (rest : Text) : Visible → Text
  | .atom _ => rest
  | .map => ['[', '_', ']', '_'] ++ rest
  | .func => ['(', '_', ')'] ++ rest
  | .inst _ args => '[' :: (printAll args ++ ']' :: rest)
  | .array elem => '[' :: ']' :: (elem.print ++ rest)
  | .optional type => '|' :: (type.print ++ rest)

variable (type : Visible)

theorem print_append (rest : Text) : type.print ++ rest = type.lead ++ type.follow rest := by
  cases type <;> simp [print, lead, follow, mapText, funcText]

theorem proper_inst {qname : Text} {args : List Visible} (shown : (inst qname args).proper) :
    plainName qname ∧ qname ≠ ['m', 'a', 'p'] ∧ args ≠ [] ∧ allProper args := by
  simp only [proper, and_eq_true, decide_eq_true_eq] at shown
  exact ⟨shown.1.1.1, shown.1.1.2, shown.1.2, shown.2⟩

theorem plainName_iff {name : Text} : plainName name ↔ name ≠ [] ∧ name.all plainChar := by
  rw [plainName, decide_eq_true_iff]

theorem lead_plain {type : Visible} (shown : type.proper) : type.lead.all plainChar := by
  cases type with
  | atom name => exact (plainName_iff.mp shown).2
  | map => decide
  | func => decide
  | inst qname args => exact (plainName_iff.mp (proper_inst shown).1).2
  | array elem => rfl
  | optional type =>
    rw [lead]
    decide

theorem follow_stops (ends : Ends rest) : Stops (type.follow rest) := by
  cases type with
  | atom name => exact ends.stops
  | map | func | inst _ _ | array _ | optional _ => exact stops_cons (by decide)

/-- The constructor of what is shown. -/
def shape : Visible → ℕ
  | .atom _ => 0
  | .map => 1
  | .func => 2
  | .inst _ _ => 3
  | .array _ => 4
  | .optional _ => 5

theorem ends_ne_cons {rest text : Text} (ends : Ends rest) {c : Char} (other : c ≠ ',')
    (another : c ≠ ']') : rest ≠ c :: text := by
  intro same
  rcases ends c (by rw [same, List.head?_cons]; rfl) with isComma | isBracket
  · exact other isComma
  · exact another isBracket

/-- The character after the first name tells the constructors apart. -/
theorem shape_eq {left right : Visible} (leftShown : left.proper) (rightShown : right.proper)
    {leftRest rightRest : Text} (leftEnds : Ends leftRest) (rightEnds : Ends rightRest)
    (leadEq : left.lead = right.lead) (followEq : left.follow leftRest = right.follow rightRest) :
    left.shape = right.shape := by
  have notBracket : ∀ {rest text : Text}, Ends rest → rest ≠ '[' :: text :=
    fun ends => ends_ne_cons ends (by decide) (by decide)
  have notParen : ∀ {rest text : Text}, Ends rest → rest ≠ '(' :: text :=
    fun ends => ends_ne_cons ends (by decide) (by decide)
  have notBar : ∀ {rest text : Text}, Ends rest → rest ≠ '|' :: text :=
    fun ends => ends_ne_cons ends (by decide) (by decide)
  cases left <;> cases right <;> first
    | rfl
    | exact absurd followEq (notBracket leftEnds)
    | exact absurd followEq (notParen leftEnds)
    | exact absurd followEq (notBar leftEnds)
    | exact absurd followEq.symm (notBracket rightEnds)
    | exact absurd followEq.symm (notParen rightEnds)
    | exact absurd followEq.symm (notBar rightEnds)
    | exact absurd leadEq (by decide)
    | exact absurd leadEq (proper_inst leftShown).2.1
    | exact absurd leadEq.symm (proper_inst rightShown).2.1
    | exact absurd leadEq (plainName_iff.mp (proper_inst leftShown).1).1
    | exact absurd leadEq.symm (plainName_iff.mp (proper_inst rightShown).1).1
    | exact absurd leadEq (cons_ne_nil _ _)
    | exact absurd leadEq.symm (cons_ne_nil _ _)
    | exact absurd (List.cons.inj followEq).1 (by decide)

theorem allProper_cons {type : Visible} {rest : List Visible} :
    allProper (type :: rest) ↔ type.proper ∧ allProper rest := by
  rw [allProper, and_eq_true]

theorem ends_cons {c : Char} {rest : Text} (delimiter : c = ',' ∨ c = ']') : Ends (c :: rest) := by
  intro d first
  rw [List.head?_cons, Option.mem_some_iff] at first
  exact first ▸ delimiter

theorem printAll_cons (rest : List Visible) (text : Text) :
    printAll (type :: rest) ++ ']' :: text =
      type.print ++ if rest = [] then ']' :: text else ',' :: (printAll rest ++ ']' :: text) := by
  cases rest with
  | nil =>
    rw [if_pos rfl]
    rfl
  | cons next rest =>
    rw [printAll, if_neg (cons_ne_nil _ _), append_assoc, cons_append]
    exact cons_ne_nil _ _

theorem ends_printAll (rest : List Visible) (text : Text) :
    Ends (if rest = [] then ']' :: text else ',' :: (printAll rest ++ ']' :: text)) := by
  split
  · exact ends_cons (.inr rfl)
  · exact ends_cons (.inl rfl)

mutual

/-- A printed type tells what was shown, and where it ends. -/
theorem print_injective : ∀ (left right : Visible), left.proper → right.proper →
    ∀ {leftRest rightRest : Text}, Ends leftRest → Ends rightRest →
      left.print ++ leftRest = right.print ++ rightRest → left = right ∧ leftRest = rightRest := by
  intro left right leftShown rightShown leftRest rightRest leftEnds rightEnds same
  rw [print_append, print_append] at same
  obtain ⟨leadEq, followEq⟩ := name_unique (lead_plain leftShown) (lead_plain rightShown)
    (follow_stops left leftEnds) (follow_stops right rightEnds) same
  have shapeEq := shape_eq leftShown rightShown leftEnds rightEnds leadEq followEq
  match left, right with
  | .atom _, .atom _ => exact ⟨congrArg atom leadEq, followEq⟩
  | .map, .map => exact ⟨rfl, append_cancel_left followEq⟩
  | .func, .func => exact ⟨rfl, append_cancel_left followEq⟩
  | .inst leftName leftArgs, .inst rightName rightArgs =>
    rw [follow, follow, List.cons.injEq] at followEq
    have leftArgsShown := proper_inst leftShown
    have rightArgsShown := proper_inst rightShown
    obtain ⟨rfl, restEq⟩ := printAll_injective leftArgs rightArgs leftArgsShown.2.2.1
      rightArgsShown.2.2.1 leftArgsShown.2.2.2 rightArgsShown.2.2.2 followEq.2
    have nameEq : leftName = rightName := leadEq
    exact ⟨by rw [nameEq], restEq⟩
  | .array leftElem, .array rightElem =>
    rw [follow, follow, List.cons.injEq, List.cons.injEq] at followEq
    obtain ⟨rfl, restEq⟩ := print_injective leftElem rightElem leftShown rightShown leftEnds
      rightEnds followEq.2.2
    exact ⟨rfl, restEq⟩
  | .optional leftType, .optional rightType =>
    rw [follow, follow, List.cons.injEq] at followEq
    obtain ⟨rfl, restEq⟩ := print_injective leftType rightType leftShown rightShown leftEnds
      rightEnds followEq.2
    exact ⟨rfl, restEq⟩

theorem printAll_injective : ∀ (left right : List Visible), left ≠ [] → right ≠ [] →
    allProper left → allProper right → ∀ {leftRest rightRest : Text},
      printAll left ++ ']' :: leftRest = printAll right ++ ']' :: rightRest →
        left = right ∧ leftRest = rightRest := by
  intro left right leftNonempty rightNonempty leftShown rightShown leftRest rightRest same
  match left, right with
  | leftType :: lefts, rightType :: rights =>
    rw [allProper_cons] at leftShown rightShown
    rw [printAll_cons, printAll_cons] at same
    obtain ⟨rfl, restEq⟩ := print_injective leftType rightType leftShown.1 rightShown.1
      (ends_printAll lefts leftRest) (ends_printAll rights rightRest) same
    match lefts, rights with
    | [], [] => exact ⟨rfl, (List.cons.inj restEq).2⟩
    | [], _ :: _ => exact absurd (List.cons.inj restEq).1 (by decide)
    | _ :: _, [] => exact absurd (List.cons.inj restEq).1 (by decide)
    | leftNext :: lefts, rightNext :: rights =>
      rw [if_neg (cons_ne_nil _ _), if_neg (cons_ne_nil _ _), List.cons.injEq] at restEq
      obtain ⟨restSame, textEq⟩ := printAll_injective (leftNext :: lefts)
        (rightNext :: rights) (cons_ne_nil _ _) (cons_ne_nil _ _) leftShown.2
        rightShown.2 restEq.2
      exact ⟨by rw [restSame], textEq⟩

end

theorem printAll_inj {left right : List Visible} (leftNonempty : left ≠ [])
    (rightNonempty : right ≠ []) (leftShown : allProper left) (rightShown : allProper right)
    (same : printAll left ++ [']'] = printAll right ++ [']']) : left = right :=
  (printAll_injective left right leftNonempty rightNonempty leftShown rightShown same).1

end Visible

open Visible

mutual

/-- The buffers are long enough for the name of a type, in a buffer of `room` bytes. -/
def fits (registry : Registry) (room : ℕ) : TypeExpr → Bool
  | .prim _ | .declared _ | .param _ | .map _ _ | .func _ _ => true
  | .optional type =>
    fits registry 32 type && (visible registry (.optional type)).print.length ≤ 64
  | .array (.optional _) => 2 + PrimTag.null.text.length ≤ room
  | .array elem => fits registry 126 elem && 2 + (visible registry elem).print.length ≤ room
  | .inst tname args =>
    allFit registry args &&
      (tname.take 128).length + (printAll (visibleAll registry args)).length + 2 ≤ 256

def allFit (registry : Registry) : List TypeExpr → Bool
  | [] => true
  | type :: rest => fits registry 64 type && allFit registry rest

end

/-- The buffers are long enough for the name of an instantiation. -/
def nameFits (registry : Registry) (tname : Text) (args : List TypeExpr) : Bool :=
  fits registry 64 (.inst tname args)

variable {size : ℕ} {out text : Text}

theorem appendUpTo_eq (enough : out.length + text.length ≤ size) :
    appendUpTo size out text = out ++ text := by
  rw [appendUpTo, take_of_length_le (by omega)]

theorem separate_first (size : ℕ) (separator : Char) (out : Text) :
    separate size separator true out = out := by
  rw [separate, if_neg (by simp)]

theorem separate_next {separator : Char} (enough : out.length < size) :
    separate size separator false out = out ++ [separator] := by
  rw [separate, if_pos (by simp [enough])]

theorem writeAlts_eq {alts : List FieldTypeAlt}
    (enough : out.length + (alts.flatMap fun alt => '|' :: altTypeStr 32 alt).length ≤ 64) :
    writeAlts false out alts = out ++ alts.flatMap fun alt => '|' :: altTypeStr 32 alt := by
  induction alts generalizing out with
  | nil => exact (append_nil out).symm
  | cons alt rest ih =>
    rw [flatMap_cons, length_append, length_cons] at enough
    have room : out.length < 64 := by omega
    have whole : appendUpTo 64 (out ++ ['|']) (altTypeStr 32 alt) =
        out ++ '|' :: altTypeStr 32 alt := by
      rw [appendUpTo_eq, append_assoc, singleton_append]
      rw [length_append, length_singleton]
      omega
    rw [writeAlts, separate_next room, whole, ih, flatMap_cons, append_assoc]
    rw [length_append, length_cons]
    omega

variable {args : List FieldTypeSpec}

theorem writeArgs_eq
    (enough : out.length + (args.flatMap fun arg => ',' :: specTypeStr arg).length + 1 ≤ size) :
    writeArgs size false out args =
      out ++ (args.flatMap fun arg => ',' :: specTypeStr arg) ++ [']'] := by
  induction args generalizing out with
  | nil =>
    rw [flatMap_nil, length_nil] at enough
    rw [writeArgs, if_pos (by omega), flatMap_nil, append_nil]
  | cons arg rest ih =>
    rw [flatMap_cons, length_append, length_cons] at enough
    have room : out.length < size := by omega
    have whole : appendUpTo (size - 1) (out ++ [',']) (specTypeStr arg) =
        out ++ ',' :: specTypeStr arg := by
      rw [appendUpTo_eq, append_assoc, singleton_append]
      rw [length_append, length_singleton]
      omega
    rw [writeArgs, separate_next room, whole, ih, flatMap_cons, append_assoc out]
    rw [length_append, length_cons]
    omega

/-- A specification whose text is whole, in a buffer of `room` bytes for a single alternative. -/
inductive Shown : ℕ → FieldTypeSpec → Text → Prop
  | single {room : ℕ} {alt : FieldTypeAlt} : Shown room [alt] (altTypeStr room alt)
  | optional {room : ℕ} {spec : FieldTypeSpec} {text : Text} : Shown 32 spec text →
      (PrimTag.null.text ++ '|' :: text).length ≤ 64 →
        Shown room (.prim .null :: spec) (PrimTag.null.text ++ '|' :: text)

theorem Shown.flatMap_eq {spec : FieldTypeSpec} {text : Text} (shown : Shown 32 spec text) :
    (spec.flatMap fun alt => '|' :: altTypeStr 32 alt) = '|' :: text := by
  generalize roomEq : 32 = room at shown
  induction shown with
  | single =>
    rw [flatMap_singleton]
  | optional _ _ ih =>
    subst roomEq
    rw [flatMap_cons, ih rfl]
    rfl

theorem Shown.specTypeStr_eq {spec : FieldTypeSpec} {text : Text} (shown : Shown 64 spec text) :
    specTypeStr spec = text := by
  cases shown with
  | single => rfl
  | @optional _ spec text inner enough =>
    have several : specTypeStr (.prim .null :: spec) = writeAlts false PrimTag.null.text spec := by
      cases inner <;> rfl
    have restEq := inner.flatMap_eq
    rw [several, writeAlts_eq, restEq]
    rwa [restEq, ← length_append]

theorem Shown.single_eq {room : ℕ} {alt : FieldTypeAlt} {text : Text}
    (shown : Shown room [alt] text) : altTypeStr room alt = text := by
  generalize specEq : [alt] = spec at shown
  cases shown with
  | single =>
    cases specEq
    rfl
  | optional inner =>
    cases specEq
    cases inner

theorem altTypeStr_array {room : ℕ} {alt : FieldTypeAlt} {rest : List FieldTypeAlt}
    (enough : 2 + (altTypeStr 126 alt).length ≤ room) :
    altTypeStr room (.array (alt :: rest)) = '[' :: ']' :: altTypeStr 126 alt := by
  rw [altTypeStr]
  exact if_pos enough

/-- Texts with commas between them. -/
def commaJoin : List Text → Text
  | [] => []
  | text :: rest => text ++ rest.flatMap fun text => ',' :: text

theorem writeArgs_first {size : ℕ} {out : Text} {args : List FieldTypeSpec}
    (enough : out.length + (commaJoin (args.map specTypeStr)).length + 1 ≤ size) :
    writeArgs size true out args = out ++ commaJoin (args.map specTypeStr) ++ [']'] := by
  cases args with
  | nil =>
    rw [map_nil, commaJoin, length_nil] at enough
    rw [writeArgs, if_pos (by omega), map_nil, commaJoin, append_nil]
  | cons arg rest =>
    rw [map_cons, commaJoin, flatMap_map, length_append] at enough
    rw [writeArgs, separate_first, appendUpTo_eq (by omega), writeArgs_eq, map_cons,
      commaJoin, flatMap_map, append_assoc out]
    rw [length_append]
    omega

theorem Visible.printAll_eq (types : List Visible) :
    printAll types = commaJoin (types.map print) := by
  induction types with
  | nil => rfl
  | cons type rest ih =>
    cases rest with
    | nil => exact (append_nil type.print).symm
    | cons next rest =>
      rw [printAll, ih]
      · rfl
      · exact cons_ne_nil _ _

theorem buildInstKey_eq {tname : Text} {args : List FieldTypeSpec}
    (enough : (tname.take 128).length + (commaJoin (args.map specTypeStr)).length + 2 ≤ 256) :
    buildInstKey tname args =
      tname.take 128 ++ '[' :: commaJoin (args.map specTypeStr) ++ [']'] := by
  rw [buildInstKey, writeArgs_first, append_assoc (tname.take 128), singleton_append]
  rw [length_append, length_singleton]
  omega

theorem instQname_eq {modulePrefix tname : Text} {args : List FieldTypeSpec}
    (enough : (tname.take 128).length + (commaJoin (args.map specTypeStr)).length + 2 ≤ 256) :
    instQname modulePrefix tname args =
      qualifyTypeName modulePrefix tname ++ '[' :: commaJoin (args.map specTypeStr) ++ [']'] := by
  have taken : (tname.take 128).length = min tname.length 128 := by
    rw [length_take, Nat.min_comm]
  rw [instQname, buildInstKey_eq enough, append_assoc, append_assoc, ← taken, drop_left]

theorem parseFieldTypeSpec_single (registry : Registry) {type : TypeExpr}
    (required : ∀ inner, type ≠ .optional inner) :
    ∃ alt, parseFieldTypeSpec registry type = [alt] := by
  cases type with
  | optional inner => exact absurd rfl (required inner)
  | inst tname args =>
    rw [parseFieldTypeSpec]
    split
    · exact ⟨_, rfl⟩
    · exact ⟨_, rfl⟩
  | _ => exact ⟨_, rfl⟩

theorem visible_array (registry : Registry) {elem : TypeExpr}
    (required : ∀ inner, elem ≠ .optional inner) :
    visible registry (.array elem) = .array (visible registry elem) := by
  cases elem with
  | optional inner => exact absurd rfl (required inner)
  | _ => rfl

theorem fits_array {registry : Registry} {room : ℕ} {elem : TypeExpr}
    (required : ∀ inner, elem ≠ .optional inner) (short : fits registry room (.array elem)) :
    fits registry 126 elem ∧ 2 + (visible registry elem).print.length ≤ room := by
  cases elem with
  | optional inner => exact absurd rfl (required inner)
  | _ => simpa only [fits, and_eq_true, decide_eq_true_eq] using short

theorem allClosed_cons {type : TypeExpr} {rest : List TypeExpr} :
    allClosed (type :: rest) ↔ type.closed ∧ allClosed rest := by
  rw [allClosed, and_eq_true]

/-- The specification of a type without parameters has none among its alternatives. -/
theorem noTypeParam_of_closed (registry : Registry) : ∀ {type : TypeExpr}, type.closed →
    (parseFieldTypeSpec registry type).any FieldTypeAlt.isTypeParam = false
  | .prim _, _ | .declared _, _ | .array _, _ | .map _ _, _ | .func _ _, _ => rfl
  | .optional type, closed => by
    rw [parseFieldTypeSpec, any_cons, @noTypeParam_of_closed registry type closed]
    rfl
  | .inst tname args, _ => by
    rw [parseFieldTypeSpec]
    split <;> rfl

theorem argsHaveTypeParam_of_closed (registry : Registry) {args : List TypeExpr}
    (closed : allClosed args) : argsHaveTypeParam (parseFieldTypeSpecs registry args) = false := by
  induction args with
  | nil => rfl
  | cons type rest ih =>
    rw [allClosed_cons] at closed
    rw [parseFieldTypeSpecs, argsHaveTypeParam, any_cons, noTypeParam_of_closed registry closed.1]
    exact ih closed.2

mutual

theorem shown_parse (registry : Registry) : ∀ (type : TypeExpr) {room : ℕ}, type.closed →
    fits registry room type →
      Shown room (parseFieldTypeSpec registry type) (visible registry type).print
  | .prim _, _, _, _ | .declared _, _, _, _ | .map _ _, _, _, _ | .func _ _, _, _, _ => .single
  | .optional type, room, closed, short => by
    rw [fits, and_eq_true, decide_eq_true_eq] at short
    exact .optional (shown_parse registry type closed short.1) short.2
  | .array elem, room, closed, short => by
    by_cases nullable : ∃ inner, elem = .optional inner
    · obtain ⟨inner, rfl⟩ := nullable
      rw [fits, decide_eq_true_eq] at short
      have shown : Shown room [.array (.prim .null :: parseFieldTypeSpec registry inner)] _ :=
        .single
      rw [altTypeStr_array short] at shown
      exact shown
    · push Not at nullable
      obtain ⟨elemShort, enough⟩ := fits_array nullable short
      have elemShown := shown_parse registry elem closed elemShort
      obtain ⟨alt, altEq⟩ := parseFieldTypeSpec_single registry nullable
      rw [altEq] at elemShown
      have textEq := elemShown.single_eq
      have shown : Shown room [.array [alt]] _ := .single
      rw [altTypeStr_array (by rw [textEq]; exact enough), textEq] at shown
      rw [parseFieldTypeSpec, altEq, visible_array registry nullable]
      exact shown
  | .inst tname args, room, closed, short => by
    rw [fits, and_eq_true, decide_eq_true_eq] at short
    have texts := shown_parseAll registry args closed short.1
    have enough := short.2
    rw [printAll_eq, ← texts] at enough
    rw [parseFieldTypeSpec, argsHaveTypeParam_of_closed registry closed, if_neg Bool.false_ne_true,
      visible, print, printAll_eq, ← texts, ← instQname_eq enough]
    exact .single

theorem shown_parseAll (registry : Registry) : ∀ (types : List TypeExpr), allClosed types →
    allFit registry types →
      (parseFieldTypeSpecs registry types).map specTypeStr = (visibleAll registry types).map print
  | [], _, _ => rfl
  | type :: rest, closed, short => by
    rw [allClosed_cons] at closed
    rw [allFit, and_eq_true] at short
    rw [parseFieldTypeSpecs, visibleAll, map_cons, map_cons,
      (shown_parse registry type closed.1 short.1).specTypeStr_eq,
      shown_parseAll registry rest closed.2 short.2]

end

theorem buildInstKey_parse {registry : Registry} {tname : Text} {args : List TypeExpr}
    (closed : allClosed args) (short : nameFits registry tname args) :
    buildInstKey tname (parseFieldTypeSpecs registry args) =
      tname.take 128 ++ '[' :: printAll (visibleAll registry args) ++ [']'] := by
  rw [nameFits, fits, and_eq_true, decide_eq_true_eq] at short
  have texts := shown_parseAll registry args closed short.1
  have enough := short.2
  rw [printAll_eq, ← texts] at enough
  rw [buildInstKey_eq enough, printAll_eq, ← texts]

/-- Instantiations of one generic type have one key exactly when their names show the same. -/
theorem buildInstKey_eq_iff {registry : Registry} {tname : Text} {left right : List TypeExpr}
    (leftClosed : allClosed left) (rightClosed : allClosed right) (leftNonempty : left ≠ [])
    (rightNonempty : right ≠ []) (leftShort : nameFits registry tname left)
    (rightShort : nameFits registry tname right)
    (leftProper : allProper (visibleAll registry left))
    (rightProper : allProper (visibleAll registry right)) :
    buildInstKey tname (parseFieldTypeSpecs registry left) =
        buildInstKey tname (parseFieldTypeSpecs registry right) ↔
      visibleAll registry left = visibleAll registry right := by
  have nonempty : ∀ {types : List TypeExpr}, types ≠ [] → visibleAll registry types ≠ [] := by
    intro types some
    cases types with
    | nil => exact absurd rfl some
    | cons type rest => exact cons_ne_nil _ _
  rw [buildInstKey_parse leftClosed leftShort, buildInstKey_parse rightClosed rightShort]
  constructor
  · intro same
    rw [append_assoc, append_assoc] at same
    have texts := append_cancel_left same
    rw [cons_append, cons_append, List.cons.injEq] at texts
    exact printAll_inj (nonempty leftNonempty) (nonempty rightNonempty) leftProper rightProper
      texts.2
  · intro same
    rw [same]

end Gengo.Generics
