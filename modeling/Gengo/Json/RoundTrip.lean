import Gengo.Json.Emission

/-!
# What is written is JSON, and is read back

Exactly which values are written as texts of the grammar, and which of those that are made of the
kinds of JSON are read back as equal values.
-/

namespace Gengo.Json

open List
open Messages (Ref Value MapEntry Object Heap)

theorem intText_ne (n : ℤ) : ∀ c ∈ intText n, c ≠ '.' ∧ c ≠ 'e' ∧ c ≠ 'E' := by
  intro c mem
  have isDigit : c ∈ Nat.toDigits 10 n.natAbs → c ≠ '.' ∧ c ≠ 'e' ∧ c ≠ 'E' := by
    intro mem
    have digit := (digits_toDigits n.natAbs).2 c mem
    exact ⟨ne_of_isDigit digit rfl, ne_of_isDigit digit rfl, ne_of_isDigit digit rfl⟩
  rcases mem_append.mp mem with inSign | inDigits
  · split at inSign
    · rw [mem_singleton.mp inSign]
      decide
    · exact absurd inSign not_mem_nil
  · exact isDigit inDigits

theorem parseInt_intText (n : ℤ) : parseInt (intText n) = n := by
  have read := Nat.ofDigitChars_ten_toDigits (n := n.natAbs)
  rw [intText]
  split
  · rw [singleton_append, parseInt, read]
    omega
  · rw [nil_append]
    have digits := digits_toDigits n.natAbs
    generalize Nat.toDigits 10 n.natAbs = text at read digits
    rw [parseInt, read]
    · omega
    · intro rest same
      have isDigit := digits.2 '-' (same ▸ mem_cons_self ..)
      cases isDigit

theorem isNumberFormattedLikeAnInteger_intText (n : ℤ) :
    isNumberFormattedLikeAnInteger (intText n) = true := by
  have notMinusZero : intText n ≠ ['-', '0'] := by
    intro same
    have read := parseInt_intText n
    rw [same] at read
    have isZero : n = 0 := read.symm
    rw [isZero] at same
    cases same
  have chars := intText_ne n
  simp [isNumberFormattedLikeAnInteger, notMinusZero]
  exact fun c mem => ⟨⟨(chars c mem).1, (chars c mem).2.1⟩, (chars c mem).2.2⟩

theorem parseFromNumberSlice_intText (parseFloat : List Char → Option UInt64) (n : Int64) :
    parseFromNumberSlice parseFloat (intText n.toInt) = .integer n := by
  have fits : fitsInt64 n.toInt = true := by
    have low := n.le_toInt
    have high := n.toInt_lt
    simp [fitsInt64]
    omega
  rw [parseFromNumberSlice, if_pos (isNumberFormattedLikeAnInteger_intText _), parseInt_intText,
    if_pos fits, Int64.ofInt_toInt]

namespace Tree

variable {std : Std} {printFloat : UInt64 → List Char}

theorem allPlain_iff {items : List Tree} : AllPlain items ↔ ∀ item ∈ items, item.Plain := by
  induction items with
  | nil => simp [AllPlain]
  | cons item items ih =>
    rw [AllPlain, ih, forall_mem_cons]

theorem allMembersPlain_iff {members : List (Key × Tree)} :
    AllMembersPlain members ↔ ∀ member ∈ members, member.1.named = false ∧ member.2.Plain := by
  induction members with
  | nil => simp [AllMembersPlain]
  | cons member members ih =>
    rw [AllMembersPlain, ih, forall_mem_cons]

theorem docs_eq (items : List Tree) : docs printFloat items = items.map (doc printFloat) := by
  induction items with
  | nil => rfl
  | cons item items ih => rw [docs, ih, map_cons]

theorem memberDocs_eq (members : List (Key × Tree)) :
    memberDocs printFloat members =
      members.map fun member => (member.1.chars, member.2.doc printFloat) := by
  induction members with
  | nil => rfl
  | cons member members ih =>
    rw [memberDocs, ih, map_cons]

theorem isRaw_of_plain {tree : Tree} (plain : tree.Plain) : tree.isRaw = false := by
  cases tree with
  | decimal _ _ | bigint _ | named _ => exact plain.elim
  | _ => rfl

theorem written_elements {items : List Tree} (notRaw : ∀ item ∈ items, item.isRaw = false)
    (comma : Bool) :
    written comma (elements printFloat items) =
      membersText comma (items.map (text printFloat)) := by
  induction items generalizing comma with
  | nil => rfl
  | cons item items ih =>
    rw [elements, written, map_cons, membersText_cons,
      if_neg (by simp [notRaw item (mem_cons_self ..)]),
      ih fun item mem => notRaw item (mem_cons_of_mem _ mem)]

theorem spells_doc (correct : std.Correct) (tree : Tree) (plain : tree.Plain) :
    Spells (tree.text std.printFloat) (tree.doc std.printFloat) := by
  induction tree using Tree.induct with
  | null => exact .null
  | boolean value =>
    cases value with
    | true => exact .true_
    | false => exact .false_
  | int value => exact .number (number_intText _)
  | float bits => exact .number (correct.prints bits plain)
  | string form chars => exact .string (stringText_encodeJsonString chars)
  | array items ih =>
    rw [Plain, allPlain_iff] at plain
    rw [text, doc, docs_eq, written_elements fun item mem => isRaw_of_plain (plain item mem)]
    cases empty : items with
    | nil => exact .emptyArray fun c mem => absurd mem not_mem_nil
    | cons item rest =>
      rw [← empty]
      have nonempty : items.map (text std.printFloat) ≠ [] := by simp [empty]
      rw [membersText, if_neg nonempty]
      refine .array (elements_of_padded nonempty ?_)
      rw [List.forall₂_map_left_iff, List.forall₂_map_right_iff, List.forall₂_same]
      exact fun item mem => (ih item mem (plain item mem)).padded
  | object members ih =>
    rw [Plain, allMembersPlain_iff] at plain
    rw [text, doc, memberDocs_eq, entries_eq, map_map]
    cases empty : members with
    | nil => exact .emptyObject fun c mem => absurd mem not_mem_nil
    | cons member rest =>
      rw [← empty]
      refine .object (members_of_member (by simp [empty]) ?_)
      rw [List.forall₂_map_left_iff, List.forall₂_map_right_iff, List.forall₂_same]
      exact fun member mem => member_of_spells (stringText_encodeJsonString _)
        (ih member mem (plain member mem).2).padded
  | decimal _ _ | bigint _ | named _ _ | inlineVariant | other => exact plain.elim

theorem allNamesNodup_iff {ν : Type} {items : List (Doc ν)} :
    Doc.AllNamesNodup items ↔ ∀ item ∈ items, item.NamesNodup := by
  induction items with
  | nil => simp [Doc.AllNamesNodup]
  | cons item items ih =>
    rw [Doc.AllNamesNodup, ih, forall_mem_cons]

theorem allMembersNamesNodup_iff {ν : Type} {members : List (List Char × Doc ν)} :
    Doc.AllMembersNamesNodup members ↔ ∀ member ∈ members, member.2.NamesNodup := by
  induction members with
  | nil => simp [Doc.AllMembersNamesNodup]
  | cons member members ih =>
    rw [Doc.AllMembersNamesNodup, ih, forall_mem_cons]

theorem allKeysDiffer_iff {items : List Tree} :
    AllKeysDiffer items ↔ ∀ item ∈ items, item.KeysDiffer := by
  induction items with
  | nil => simp [AllKeysDiffer]
  | cons item items ih =>
    rw [AllKeysDiffer, ih, forall_mem_cons]

theorem allMembersKeysDiffer_iff {members : List (Key × Tree)} :
    AllMembersKeysDiffer members ↔ ∀ member ∈ members, member.2.KeysDiffer := by
  induction members with
  | nil => simp [AllMembersKeysDiffer]
  | cons member members ih =>
    rw [AllMembersKeysDiffer, ih, forall_mem_cons]

theorem namesNodup_doc_iff (tree : Tree) :
    (tree.doc printFloat).NamesNodup ↔ tree.KeysDiffer := by
  induction tree using Tree.induct with
  | array items ih =>
    rw [doc, docs_eq, Doc.NamesNodup, KeysDiffer, allNamesNodup_iff, allKeysDiffer_iff,
      forall_mem_map]
    exact forall₂_congr ih
  | object members ih =>
    rw [doc, memberDocs_eq, Doc.NamesNodup, KeysDiffer, allMembersNamesNodup_iff,
      allMembersKeysDiffer_iff, map_map, forall_mem_map]
    exact and_congr_right fun _ => forall₂_congr ih
  | _ => exact iff_of_true trivial trivial

mutual

/-- The value that is read back: a float that is printed like an integer is read as one, and every
string is one on the heap. -/
def readBack (printFloat : UInt64 → List Char) : Tree → Tree
  | .float bits =>
    if printsAsInt printFloat bits then .int (Int64.ofInt (parseInt (printFloat bits)))
    else .float bits
  | .string _ chars => .string .dynString chars
  | .array items => .array (readBackAll printFloat items)
  | .object members => .object (readBackMembers printFloat members)
  | tree => tree

def readBackAll (printFloat : UInt64 → List Char) : List Tree → List Tree
  | [] => []
  | item :: items => readBack printFloat item :: readBackAll printFloat items

def readBackMembers (printFloat : UInt64 → List Char) : List (Key × Tree) → List (Key × Tree)
  | [] => []
  | (key, value) :: members =>
    (⟨false, .dynString, key.chars⟩, readBack printFloat value) ::
      readBackMembers printFloat members

end

theorem readBackMembers_eq (members : List (Key × Tree)) :
    readBackMembers printFloat members =
      members.map fun member =>
        (⟨false, .dynString, member.1.chars⟩, member.2.readBack printFloat) := by
  induction members with
  | nil => rfl
  | cons member members ih =>
    rw [readBackMembers, ih, map_cons]

theorem jsonItemsToGengo_eq {items : List Tree} {f : List Char → StdNumber}
    (each : ∀ item ∈ items, jsonValueToGengo std ((item.doc std.printFloat).mapNumbers f) =
      .ok (item.readBack std.printFloat)) :
    jsonItemsToGengo std (Doc.mapAll f (docs std.printFloat items)) =
      .ok (readBackAll std.printFloat items) := by
  induction items with
  | nil => rfl
  | cons item items ih =>
    rw [docs, Doc.mapAll, jsonItemsToGengo, each item (mem_cons_self ..),
      ih fun item mem => each item (mem_cons_of_mem _ mem)]
    rfl

theorem jsonMembersToGengo_eq {members : List (Key × Tree)} {f : List Char → StdNumber}
    (each : ∀ member ∈ members,
      jsonValueToGengo std ((member.2.doc std.printFloat).mapNumbers f) =
        .ok (member.2.readBack std.printFloat)) :
    jsonMembersToGengo std (Doc.mapMembers f (memberDocs std.printFloat members)) =
      .ok (readBackMembers std.printFloat members) := by
  induction members with
  | nil => rfl
  | cons member members ih =>
    rw [memberDocs, Doc.mapMembers, jsonMembersToGengo, each _ (mem_cons_self ..),
      ih fun member mem => each member (mem_cons_of_mem _ mem)]
    rfl

theorem jsonValueToGengo_doc (correct : std.Correct) (tree : Tree) (plain : tree.Plain) :
    jsonValueToGengo std
        ((tree.doc std.printFloat).mapNumbers (parseFromNumberSlice std.parseFloat)) =
      .ok (tree.readBack std.printFloat) := by
  induction tree using Tree.induct with
  | int value =>
    rw [doc, Doc.mapNumbers, parseFromNumberSlice_intText]
    rfl
  | float bits =>
    have finite : isFinite bits = true := plain
    have reads := correct.reads bits finite
    rw [doc, Doc.mapNumbers, readBack, parseFromNumberSlice, printsAsInt]
    by_cases formatted : isNumberFormattedLikeAnInteger (std.printFloat bits) = true
    · by_cases fits : fitsInt64 (parseInt (std.printFloat bits)) = true
      · rw [if_pos formatted, if_pos fits, formatted, fits]
        rfl
      · rw [if_pos formatted, if_neg fits, jsonValueToGengo, reads,
          Bool.not_eq_true _ |>.mp fits, Bool.and_false]
        rfl
    · rw [if_neg formatted, reads, Bool.not_eq_true _ |>.mp formatted, Bool.false_and]
      dsimp only
      rw [if_pos finite]
      rfl
  | array items ih =>
    rw [Plain, allPlain_iff] at plain
    rw [doc, Doc.mapNumbers, jsonValueToGengo,
      jsonItemsToGengo_eq fun item mem => ih item mem (plain item mem)]
    rfl
  | object members ih =>
    rw [Plain, allMembersPlain_iff] at plain
    rw [doc, Doc.mapNumbers, jsonValueToGengo,
      jsonMembersToGengo_eq fun member mem => ih member mem (plain member mem).2]
    rfl
  | null | boolean _ | string _ _ => rfl
  | decimal _ _ | bigint _ | named _ _ | inlineVariant | other => exact plain.elim

theorem floatEquals_self {bits : UInt64} (finite : isFinite bits = true) :
    Maps.floatEquals bits bits = true := by
  have notNaN : Maps.isNaN bits = false := by
    rw [isFinite, decide_eq_true_iff] at finite
    rw [Maps.isNaN, decide_eq_false_iff_not]
    exact UInt64.lt_asymm finite
  simp [Maps.floatEquals, notNaN]

theorem allStay_iff {items : List Tree} :
    AllStay printFloat items ↔ ∀ item ∈ items, item.Stays printFloat := by
  induction items with
  | nil => simp [AllStay]
  | cons item items ih =>
    rw [AllStay, ih, forall_mem_cons]

theorem allMembersStay_iff {members : List (Key × Tree)} :
    AllMembersStay printFloat members ↔
      ∀ member ∈ members, member.1.form ≠ .stringView ∧ member.2.Stays printFloat := by
  induction members with
  | nil => simp [AllMembersStay]
  | cons member members ih =>
    rw [AllMembersStay, ih, forall_mem_cons]

theorem stringsEqual_dynString_iff {form : StringForm} {chars : List Char} :
    StringsEqual form .dynString chars chars ↔ form ≠ .stringView := by
  cases form with
  | constant => exact iff_of_true ⟨.inl rfl, rfl⟩ (by decide)
  | dynString => exact iff_of_true ⟨.inr (.inr rfl), rfl⟩ (by decide)
  | stringView =>
    refine iff_of_false (fun equal => ?_) (fun differs => differs rfl)
    rcases equal.1 with isConstant | isConstant | same
    · cases isConstant
    · cases isConstant
    · cases same

theorem eachDeepEqual_iff {members members' : List (Key × Tree)} :
    EachDeepEqual members members' ↔ ∀ member ∈ members,
      ∃ member' ∈ members', KeysEqual member.1 member'.1 ∧ member.2.DeepEqual member'.2 := by
  induction members with
  | nil => simp [EachDeepEqual]
  | cons member members ih =>
    rw [EachDeepEqual, ih, forall_mem_cons]

theorem allDeepEqual_readBack_iff {items : List Tree}
    (each : ∀ item ∈ items,
      item.DeepEqual (item.readBack printFloat) ↔ item.Stays printFloat) :
    AllDeepEqual items (readBackAll printFloat items) ↔
      ∀ item ∈ items, item.Stays printFloat := by
  induction items with
  | nil => simp [AllDeepEqual, readBackAll]
  | cons item items ih =>
    rw [readBackAll, AllDeepEqual, forall_mem_cons, each _ (mem_cons_self ..),
      ih fun item mem => each item (mem_cons_of_mem _ mem)]

/-- Where the keys of every map differ, what is read back is equal exactly if no float became an
integer and no string was a view. -/
theorem deepEqual_readBack_iff (tree : Tree) (plain : tree.Plain) (differ : tree.KeysDiffer) :
    tree.DeepEqual (tree.readBack printFloat) ↔ tree.Stays printFloat := by
  induction tree using Tree.induct with
  | null => exact iff_of_true trivial trivial
  | boolean _ | int _ => exact iff_of_true rfl trivial
  | string form chars => exact stringsEqual_dynString_iff
  | float bits =>
    rw [readBack, Stays]
    cases asInt : printsAsInt printFloat bits with
    | true => exact iff_of_false not_false (by decide)
    | false => exact iff_of_true (floatEquals_self plain) rfl
  | array items ih =>
    rw [Plain, allPlain_iff] at plain
    rw [KeysDiffer, allKeysDiffer_iff] at differ
    rw [readBack, DeepEqual, Stays, allStay_iff]
    exact allDeepEqual_readBack_iff fun item mem => ih item mem (plain item mem) (differ item mem)
  | object members ih =>
    rw [Plain, allMembersPlain_iff] at plain
    rw [KeysDiffer, allMembersKeysDiffer_iff] at differ
    rw [readBack, DeepEqual, Stays, allMembersStay_iff, eachDeepEqual_iff,
      readBackMembers_eq, length_map, eq_self_iff_true, true_and]
    constructor
    · intro found member mem
      rcases found member mem with ⟨member', mem', ⟨-, sameKey⟩, equal⟩
      rcases mem_map.mp mem' with ⟨other', isMember, rfl⟩
      -- The keys are different, so it is the member itself that was found.
      obtain rfl := inj_on_of_nodup_map differ.1 isMember mem sameKey.2.symm
      rw [← sameKey.2] at sameKey
      exact ⟨stringsEqual_dynString_iff.mp sameKey,
        (ih other' mem (plain other' mem).2 (differ.2 other' mem)).mp equal⟩
    · intro stay member mem
      exact ⟨_, mem_map_of_mem mem,
        ⟨⟨(plain member mem).1, rfl⟩, stringsEqual_dynString_iff.mpr (stay member mem).1⟩,
        (ih member mem (plain member mem).2 (differ.2 member mem)).mpr (stay member mem).2⟩
  | decimal _ _ | bigint _ | named _ _ | inlineVariant | other => exact plain.elim

theorem jsonParseNative_text (correct : std.Correct) (tree : Tree) (plain : tree.Plain)
    (differ : tree.KeysDiffer) :
    jsonParseNative std (tree.text std.printFloat) = .ok (tree.readBack std.printFloat) := by
  rw [jsonParseNative, correct.parses _ _ (spells_doc correct tree plain).padded
    ((namesNodup_doc_iff tree).mpr differ)]
  exact jsonValueToGengo_doc correct tree plain

/-- A text with a name twice in one object is refused. -/
theorem jsonParseNative_of_not_keysDiffer (correct : std.Correct) (tree : Tree)
    (plain : tree.Plain) (repeated : ¬tree.KeysDiffer) :
    jsonParseNative std (tree.text std.printFloat) = .error .typeError := by
  rw [jsonParseNative, correct.refuses _ _ (spells_doc correct tree plain).padded
    fun nodup => repeated ((namesNodup_doc_iff tree).mp nodup)]

theorem exists_deepEqual_iff (correct : std.Correct) (tree : Tree) (plain : tree.Plain) :
    (∃ result, jsonParseNative std (tree.text std.printFloat) = .ok result ∧
      tree.DeepEqual result) ↔ tree.KeysDiffer ∧ tree.Stays std.printFloat := by
  by_cases differ : tree.KeysDiffer
  · rw [jsonParseNative_text correct tree plain differ, and_iff_right differ,
      ← deepEqual_readBack_iff tree plain differ]
    constructor
    · rintro ⟨result, same, equal⟩
      rw [Except.ok.injEq] at same
      exact same ▸ equal
    · exact fun equal => ⟨_, rfl, equal⟩
  · rw [jsonParseNative_of_not_keysDiffer correct tree plain differ]
    refine iff_of_false ?_ fun both => differ both.1
    rintro ⟨result, isOk, -⟩
    cases isOk

end Tree

variable {heap : Heap} {types : Types} {std : Std}

theorem forall_right_of_forall₂ {α β : Type} {relation : α → β → Prop} {holds : β → Prop}
    {items : List α} {trees : List β} (each : List.Forall₂ relation items trees)
    (implies : ∀ item tree, relation item tree → holds tree) : ∀ tree ∈ trees, holds tree := by
  induction each with
  | nil => exact fun tree mem => absurd mem not_mem_nil
  | cons first _ ih =>
    exact forall_mem_cons.mpr ⟨implies _ _ first, ih⟩

theorem Layer.floatsPrint (correct : std.Correct) {below : Value → Tree → Prop}
    (lower : ∀ value tree, below value tree → tree.FloatsPrint std.printFloat)
    {value : Value} {tree : Tree} (layer : Layer heap types below value tree) :
    tree.FloatsPrint std.printFloat := by
  induction layer with
  | float finite => exact correct.prints _ finite
  | array _ elements =>
    rw [Tree.FloatsPrint, Tree.allFloatsPrint_iff]
    exact forall_right_of_forall₂ elements lower
  | map _ entries =>
    rw [Tree.FloatsPrint, Tree.allMemberFloatsPrint_iff]
    exact forall_right_of_forall₂ entries fun entry member both => lower _ _ both.2
  | named _ _ ih =>
    rw [Tree.FloatsPrint]
    unfold seen
    split
    · split <;> trivial
    · trivial
    · trivial
    · exact ih
  | _ => trivial

theorem Unfolds.floatsPrint (correct : std.Correct) {depth : ℕ} {value : Value} {tree : Tree}
    (unfolds : Unfolds heap types depth value tree) : tree.FloatsPrint std.printFloat := by
  induction depth generalizing value tree with
  | zero => exact Layer.floatsPrint correct (fun value tree none_ => none_.elim) unfolds
  | succ depth ih =>
    exact Layer.floatsPrint correct (fun value tree lower => ih lower) unfolds

/-- With enough room for the recursion over names, `json.stringify` returns a text of the grammar
for the value, and if the value is one of JSON, `json.parse` of the text returns a value that is
equal to it. -/
def StringifiesAsJson (heap : Heap) (types : Types) (std : Std) (value : Value) (tree : Tree) :
    Prop :=
  ∃ least, ∀ bound, least ≤ bound → ∃ text,
    jsonStringifyNative heap types std.printFloat bound value = .ok text ∧ IsText text ∧
      (tree.Plain → ∃ result, jsonParseNative std text = .ok result ∧ tree.DeepEqual result)

/-- A value is written as JSON and read back exactly if its tree has no inline variant and no
member that is written past the serializer, the elements without a separator between them spell
numbers, and, in a value of JSON, the keys of every map differ, no float is printed like an
integer and no string is a view. -/
theorem stringifiesAsJson_iff (heap : Heap) (types : Types) (std : Std) (correct : std.Correct)
    (depth : ℕ) (shallow : depth < maxDepth) (value : Value) (tree : Tree)
    (unfolds : Unfolds heap types depth value tree) :
    StringifiesAsJson heap types std value tree ↔
      tree.traps = false ∧ tree.Separable std.printFloat ∧
        (tree.Plain → tree.KeysDiffer ∧ tree.Stays std.printFloat) := by
  have prints := unfolds.floatsPrint correct
  have stringified : ∃ least, ∀ bound, least ≤ bound →
      jsonStringifyNative heap types std.printFloat bound value =
        if tree.traps then .error .unreachable else .ok (tree.text std.printFloat) :=
    unfolds.jsonStringifyNative_eq shallow
  rcases stringified with ⟨least, stringified⟩
  have readsBack := Tree.exists_deepEqual_iff correct tree
  constructor
  · rintro ⟨least', holds⟩
    rcases holds (max least least') (le_max_right _ _) with ⟨text, isOk, isText, readBack⟩
    rw [stringified _ (le_max_left _ _)] at isOk
    split at isOk
    · cases isOk
    · rename_i ok
      rw [Bool.not_eq_true] at ok
      rw [Except.ok.injEq] at isOk
      rw [← isOk] at isText readBack
      exact ⟨ok, (tree.isText_iff prints ok).mp isText,
        fun plain => (readsBack plain).mp (readBack plain)⟩
  · rintro ⟨ok, separable, stay⟩
    refine ⟨least, fun bound le => ⟨tree.text std.printFloat, ?_,
      (tree.isText_iff prints ok).mpr separable, fun plain => (readsBack plain).mpr (stay plain)⟩⟩
    rw [stringified bound le, ok]
    rfl

open Classical in
/-- The parser that the grammar specifies. -/
noncomputable def grammarParse (parseFloat : List Char → Option UInt64) (text : List Char) :
    Option (Doc StdNumber) :=
  if spelled : ∃ doc, Padded text doc ∧ doc.NamesNodup then
    some (spelled.choose.mapNumbers (parseFromNumberSlice parseFloat))
  else none

theorem grammarParse_eq {parseFloat : List Char → Option UInt64} {text : List Char}
    {doc : Doc (List Char)} (padded : Padded text doc) (nodup : doc.NamesNodup) :
    grammarParse parseFloat text = some (doc.mapNumbers (parseFromNumberSlice parseFloat)) := by
  have spelled : ∃ doc, Padded text doc ∧ doc.NamesNodup := ⟨doc, padded, nodup⟩
  rw [grammarParse, dif_pos spelled, spelled.choose_spec.1.unique padded]

theorem grammarParse_eq_none {parseFloat : List Char → Option UInt64} {text : List Char}
    {doc : Doc (List Char)} (padded : Padded text doc) (repeated : ¬doc.NamesNodup) :
    grammarParse parseFloat text = none := by
  rw [grammarParse, dif_neg]
  rintro ⟨doc', padded', nodup⟩
  rw [padded'.unique padded] at nodup
  exact repeated nodup

/-- The digits before the point, as the bits of a float. -/
def bitsOfDigits (text : List Char) : Option UInt64 :=
  some (UInt64.ofNat (Nat.ofDigitChars 10 (text.takeWhile Char.isDigit) 0))

/-- A standard library that prints the bits of a float with a fraction, and whose parser is the
one that the grammar specifies. -/
noncomputable def grammarStd : Std where
  printFloat bits := Nat.toDigits 10 bits.toNat ++ ['.', '0']
  parseFloat := bitsOfDigits
  parseFromSlice := grammarParse bitsOfDigits

theorem correct_grammarStd : grammarStd.Correct where
  prints := by
    intro bits _
    have isNumber : Number ([] ++ Nat.toDigits 10 bits.toNat ++ ['.', '0'] ++ []) :=
      .mk (.inl rfl) (intPart_toDigits _) (.digits ⟨by simp, by simp⟩) .absent
    rwa [nil_append, append_nil] at isNumber
  reads := by
    intro bits _
    have digits := (digits_toDigits bits.toNat).2
    change bitsOfDigits (Nat.toDigits 10 bits.toNat ++ ['.', '0']) = _
    rw [bitsOfDigits, takeWhile_append_of_pos digits]
    change some (UInt64.ofNat (Nat.ofDigitChars 10 (Nat.toDigits 10 bits.toNat ++ []) 0)) = _
    rw [append_nil, Nat.ofDigitChars_ten_toDigits, UInt64.ofNat_toNat]
  parses := fun _ _ padded nodup => grammarParse_eq padded nodup
  refuses := fun _ _ padded repeated => grammarParse_eq_none padded repeated

theorem decodeUtf8_a : decodeUtf8 [97] = some ['a'] := by
  have encoded : (ByteArray.mk #[97]) = ['a'].utf8Encode := by decide
  have decoded : ['a'].utf8Encode.utf8Decode? = some #['a'] := List.utf8Decode?_utf8Encode
  rw [decodeUtf8]
  change (ByteArray.mk #[97]).utf8Decode?.map Array.toList = _
  rw [encoded, decoded]
  rfl

/-- A heap in which a number of objects is given. -/
def heapOf (objects : List Object) : Heap where
  objects ref := objects.getD ref .function
  size := objects.length

/-- The type of index three is a decimal type with one digit behind the point. -/
def decimalTypes : Types where
  decimalScale typ := if typ = 3 then some 1 else none
  stringBased _ := false
  bigint _ := 0

/-- `{"a": [1, true]}`. -/
def listedHeap : Heap :=
  heapOf [.map [⟨.string [97], .object 1⟩], .array [.int 1, .boolean true]]

theorem stringifiesAsJson_listed :
    StringifiesAsJson listedHeap decimalTypes grammarStd (.object 0)
      (.object [(⟨false, .constant, ['a']⟩, .array [.int 1, .boolean true])]) := by
  have inner : Layer listedHeap decimalTypes (Unfolds listedHeap decimalTypes 0) (.object 1)
      (.array [.int 1, .boolean true]) :=
    .array rfl (.cons (.int 1) (.cons (.boolean true) .nil))
  have outer : Unfolds listedHeap decimalTypes 2 (.object 0)
      (.object [(⟨false, .constant, ['a']⟩, .array [.int 1, .boolean true])]) := by
    refine Layer.map rfl (.cons ⟨⟨by simp [unboxNamed], [97], .string, decodeUtf8_a⟩, inner⟩ .nil)
  refine (stringifiesAsJson_iff _ _ _ correct_grammarStd 2 (by decide) _ _ outer).mpr
    ⟨rfl, ⟨⟨?_, trivial, trivial, trivial⟩, trivial⟩, fun _ => ?_⟩
  · intro cluster mem several
    have single : ∀ cluster ∈ clusters false [] (Tree.elements grammarStd.printFloat
        [.int 1, .boolean true]), cluster.length = 1 := by
      simp [Tree.elements, clusters, Tree.isRaw]
    rw [single cluster mem] at several
    exact absurd several (by decide)
  · exact ⟨⟨nodup_singleton _, ⟨trivial, trivial, trivial⟩, trivial⟩,
      ⟨⟨by decide, trivial, trivial, trivial⟩, trivial⟩⟩

/-- `["a", 1]` with the one as a decimal. -/
def decimalInArray : Heap :=
  heapOf [.array [.string [97], .decimal 1]]

/-- `{"a": 1}` with the one as a decimal. -/
def decimalInMap : Heap :=
  heapOf [.map [⟨.string [97], .decimal 1⟩]]

theorem unfolds_decimalInArray :
    Unfolds decimalInArray decimalTypes 1 (.object 0)
      (.array [.string .constant ['a'], .decimal 1 0]) :=
  Layer.array rfl (.cons (.string decodeUtf8_a) (.cons (.decimal 1) .nil))

theorem unfolds_decimalInMap :
    Unfolds decimalInMap decimalTypes 1 (.object 0)
      (.object [(⟨false, .constant, ['a']⟩, .decimal 1 0)]) :=
  Layer.map rfl (.cons ⟨⟨by simp [unboxNamed], [97], .string, decodeUtf8_a⟩, Layer.decimal 1⟩ .nil)

/-- The decimal of an array is glued to the string before it, that of a map stands behind a key
without a colon, and an inline variant ends the walk. -/
theorem not_stringifiesAsJson :
    ¬StringifiesAsJson decimalInArray decimalTypes grammarStd (.object 0)
        (.array [.string .constant ['a'], .decimal 1 0]) ∧
      ¬StringifiesAsJson decimalInMap decimalTypes grammarStd (.object 0)
        (.object [(⟨false, .constant, ['a']⟩, .decimal 1 0)]) ∧
      ¬StringifiesAsJson (heapOf []) decimalTypes grammarStd (.inlineVariant 0) .inlineVariant := by
  refine ⟨?array, ?map, ?variant⟩
  case array =>
    rintro ⟨least, holds⟩
    have stringified : ∃ least, ∀ bound, least ≤ bound → jsonStringifyNative decimalInArray
        decimalTypes grammarStd.printFloat bound (.object 0) = _ :=
      unfolds_decimalInArray.jsonStringifyNative_eq (by decide)
    rcases stringified with ⟨least', stringified⟩
    rcases holds (max least least') (le_max_left _ _) with ⟨text, isOk, isText, -⟩
    rw [stringified _ (le_max_right _ _)] at isOk
    obtain rfl := Except.ok.inj isOk
    have prints := unfolds_decimalInArray.floatsPrint correct_grammarStd
    have separable := (Tree.isText_iff _ prints rfl).mp isText
    -- The two elements are one cluster, which begins with a quote.
    have isNumber := separable.1 [⟨false, encodeJsonString ['a']⟩, ⟨true, formatDecimalString 1 0⟩]
      (mem_singleton_self _) (by decide)
    exact absurd rfl (isNumber.numeric '"' (mem_cons_self ..)).bare.1
  case map =>
    rintro ⟨least, holds⟩
    have stringified : ∃ least, ∀ bound, least ≤ bound → jsonStringifyNative decimalInMap
        decimalTypes grammarStd.printFloat bound (.object 0) = _ :=
      unfolds_decimalInMap.jsonStringifyNative_eq (by decide)
    rcases stringified with ⟨least', stringified⟩
    rcases holds (max least least') (le_max_left _ _) with ⟨text, isOk, -⟩
    rw [stringified _ (le_max_right _ _)] at isOk
    cases isOk
  case variant =>
    rintro ⟨least, holds⟩
    rcases holds (least + 1) (Nat.le_succ least) with ⟨text, isOk, -⟩
    cases isOk

end Gengo.Json
