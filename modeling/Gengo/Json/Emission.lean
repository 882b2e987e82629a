import Gengo.Json.Parse

/-!
# Values that unfold

A value that is built from the kinds of JSON, from numbers of its own kinds and from variants
unfolds to a tree if it is not cyclic. What is written for such a value is the text of its tree.
-/

namespace Gengo.Json

open Option Nat
open Messages (Ref Value MapEntry Object Heap asArraySlice asMapSlice)

section

variable (heap : Heap) (types : Types)

/-- A string in one of its forms, under any number of names of string types. -/
inductive StringValue : Value → StringForm → List UInt8 → Prop
  | string {bytes : List UInt8} : StringValue (.string bytes) .constant bytes
  | dynString {ref : Ref} {bytes : List UInt8} (obj : heap.objects ref = .dynString bytes) :
      StringValue (.object ref) .dynString bytes
  | stringView {ref : Ref} {bytes : List UInt8} {source : Option Ref}
      (obj : heap.objects ref = .stringView bytes source) :
      StringValue (.object ref) .stringView bytes
  | named {ref typ : Ref} {value : Value} {form : StringForm} {bytes : List UInt8}
      (obj : heap.objects ref = .namedValue typ value) (stringBased : types.stringBased typ = true)
      (inner : StringValue value form bytes) : StringValue (.object ref) form bytes

/-- A key that is a string, or a value of a named type over strings. -/
structure KeyOf (value : Value) (key : Key) : Prop where
  named : key.named = true ↔ unboxNamed heap value ≠ value
  chars : ∃ bytes, StringValue heap types (unboxNamed heap value) key.form bytes ∧
    decodeUtf8 bytes = some key.chars

/-- What is seen of a value of a named type: the number of a decimal with the scale of the type,
and nothing of a name under another name. -/
def seen (typ : Ref) (value : Value) : Tree → Tree
  | .decimal raw scale =>
    match value with
    | .decimal _ => .decimal raw ((types.decimalScale typ).getD 0)
    | _ => .decimal raw scale
  | .named (.decimal raw scale) => .decimal raw scale
  | .named _ => .other
  | tree => tree

/-- Values whose elements and members unfold as given. -/
inductive Layer (below : Value → Tree → Prop) : Value → Tree → Prop
  | null : Layer below .null .null
  | boolean (value : Bool) : Layer below (.boolean value) (.boolean value)
  | int (value : Int64) : Layer below (.int value) (.int value)
  | float {bits : UInt64} (finite : isFinite bits = true) : Layer below (.float bits) (.float bits)
  | decimal (raw : Int64) : Layer below (.decimal raw) (.decimal raw.toInt 0)
  | string {bytes : List UInt8} {chars : List Char} (decoded : decodeUtf8 bytes = some chars) :
      Layer below (.string bytes) (.string .constant chars)
  | inlineVariant (bits : UInt64) : Layer below (.inlineVariant bits) .inlineVariant
  | dynString {ref : Ref} {bytes : List UInt8} {chars : List Char}
      (obj : heap.objects ref = .dynString bytes) (decoded : decodeUtf8 bytes = some chars) :
      Layer below (.object ref) (.string .dynString chars)
  | stringView {ref : Ref} {bytes : List UInt8} {source : Option Ref} {chars : List Char}
      (obj : heap.objects ref = .stringView bytes source)
      (decoded : decodeUtf8 bytes = some chars) :
      Layer below (.object ref) (.string .stringView chars)
  | bigint {ref : Ref} (obj : heap.objects ref = .shared .bigint) :
      Layer below (.object ref) (.bigint (types.bigint ref))
  | array {ref : Ref} {items : List Value} {trees : List Tree}
      (slice : asArraySlice heap (heap.objects ref) = some items)
      (elements : List.Forall₂ below items trees) : Layer below (.object ref) (.array trees)
  | map {ref : Ref} {entries : List MapEntry} {members : List (Key × Tree)}
      (slice : asMapSlice (heap.objects ref) = some entries)
      (entries_ : List.Forall₂ (fun entry member =>
        KeyOf heap types entry.key member.1 ∧ below entry.value member.2) entries members) :
      Layer below (.object ref) (.object members)
  | variantValue {ref typ : Ref} {tag : List UInt8} {ordinal : ℕ} {payload : Value}
      {sharedValues armFields : List Value}
      (obj : heap.objects ref = .variantValue typ tag ordinal payload sharedValues armFields) :
      Layer below (.object ref) .other
  | named {ref typ : Ref} {value : Value} {tree : Tree}
      (obj : heap.objects ref = .namedValue typ value) (inner : Layer below value tree) :
      Layer below (.object ref) (.named (seen types typ value tree))

/-- A value unfolds to a tree, with at most `depth` containers that are not empty inside each
other. -/
def Unfolds : ℕ → Value → Tree → Prop
  | 0 => Layer heap types fun _ _ => False
  | depth + 1 => Layer heap types (Unfolds depth)

end

variable {heap : Heap} {types : Types}

theorem StringValue.unique {value : Value} {form form' : StringForm} {bytes bytes' : List UInt8}
    (first : StringValue heap types value form bytes)
    (second : StringValue heap types value form' bytes') : form = form' ∧ bytes = bytes' := by
  induction first with
  | string =>
    cases second with
    | string => exact ⟨rfl, rfl⟩
  | dynString obj | stringView obj =>
    cases second with
    | dynString obj' | stringView obj' | named obj' =>
      rw [obj] at obj'
      cases obj'
      try exact ⟨rfl, rfl⟩
  | named obj _ _ ih =>
    cases second with
    | dynString obj' | stringView obj' =>
      rw [obj] at obj'
      cases obj'
    | named obj' _ inner' =>
      rw [obj] at obj'
      cases obj'
      exact ih inner'

theorem KeyOf.unique {value : Value} {key key' : Key} (first : KeyOf heap types value key)
    (second : KeyOf heap types value key') : key = key' := by
  rcases first.chars with ⟨bytes, isString, decoded⟩
  rcases second.chars with ⟨bytes', isString', decoded'⟩
  rcases isString.unique isString' with ⟨form, rfl⟩
  rw [decoded', some.injEq] at decoded
  have named : key.named = key'.named :=
    Bool.eq_iff_iff.mpr (first.named.trans second.named.symm)
  cases key
  cases key'
  simp_all

theorem forall₂_unique {α β : Type} {relation relation' : α → β → Prop}
    (unique : ∀ a b b', relation a b → relation' a b' → b = b') {items : List α}
    {trees trees' : List β} (first : List.Forall₂ relation items trees)
    (second : List.Forall₂ relation' items trees') : trees = trees' := by
  induction first generalizing trees' with
  | nil =>
    cases second with
    | nil => rfl
  | cons head _ ih =>
    cases second with
    | cons head' tail' => rw [unique _ _ _ head head', ih tail']

theorem asMapSlice_eq_none {obj : Object} {items : List Value}
    (slice : asArraySlice heap obj = some items) : asMapSlice obj = none := by
  cases obj with
  | map _ | mapManaged _ | mapHashed _ _ => cases slice
  | _ => rfl

theorem Layer.unique {below below' : Value → Tree → Prop}
    (unique : ∀ value tree tree', below value tree → below' value tree' → tree = tree')
    {value : Value} {tree tree' : Tree} (first : Layer heap types below value tree)
    (second : Layer heap types below' value tree') : tree = tree' := by
  induction first generalizing tree' with
  | null | boolean _ | int _ | decimal _ | inlineVariant _ =>
    cases second with
    | _ => rfl
  | float _ =>
    cases second with
    | float _ => rfl
  | string decoded =>
    cases second with
    | string decoded' => rw [some.inj (decoded.symm.trans decoded')]
  | dynString obj decoded | stringView obj decoded | bigint obj | variantValue obj =>
    cases second <;> simp_all [asArraySlice, asMapSlice]
  | array slice elements =>
    cases second with
    | array slice' elements' =>
      rw [slice, some.injEq] at slice'
      subst slice'
      rw [forall₂_unique unique elements elements']
    | map slice' _ =>
      rw [asMapSlice_eq_none slice] at slice'
      cases slice'
    | _ => simp_all [asArraySlice]
  | map slice entries =>
    cases second with
    | map slice' entries' =>
      rw [slice, some.injEq] at slice'
      subst slice'
      refine congrArg Tree.object (forall₂_unique ?_ entries entries')
      rintro entry ⟨key, tree⟩ ⟨key', tree'⟩ ⟨isKey, first⟩ ⟨isKey', second⟩
      exact Prod.ext (isKey.unique isKey') (unique _ _ _ first second)
    | array slice' _ =>
      rw [asMapSlice_eq_none slice'] at slice
      cases slice
    | _ => simp_all [asMapSlice]
  | named obj inner ih =>
    cases second with
    | named obj' inner' =>
      rw [obj] at obj'
      cases obj'
      rw [ih inner']
    | _ => simp_all [asArraySlice, asMapSlice]

theorem Unfolds.unique {depth depth' : ℕ} {value : Value} {tree tree' : Tree}
    (first : Unfolds heap types depth value tree) (second : Unfolds heap types depth' value tree') :
    tree = tree' := by
  induction depth generalizing depth' value tree tree' with
  | zero =>
    cases depth' with
    | zero | succ depth' => exact Layer.unique (fun _ _ _ none_ => none_.elim) first second
  | succ depth ih =>
    cases depth' with
    | zero => exact Layer.unique (fun _ _ _ _ none_ => none_.elim) first second
    | succ depth' =>
      have unique : ∀ value tree tree', Unfolds heap types depth value tree →
          Unfolds heap types depth' value tree' → tree = tree' :=
        fun _ _ _ lower lower' => ih lower lower'
      exact Layer.unique unique first second

/-!
# What the walk writes

The walk over a value that unfolds writes the text of its tree, after the separator that is due.
Where the tree has an inline variant, or an object with a member that is written past the
serializer, the walk ends in an unreachable branch.
-/

open List

namespace Stringify

variable {s : Stringify}

/-- A value can be written. -/
structure Ready (s : Stringify) : Prop where
  keyExpected : s.isObjectKeyExpected = false
  complete : s.isComplete = false

/-- The state when the text of a value has been written. -/
def put (s : Stringify) (raw : Bool) (text : List Char) : Stringify :=
  if raw then s.writeAll text
  else
    { out := s.out ++ (due s.nextPunctuation ++ text)
      nextPunctuation := .comma
      nesting := s.nesting }

theorem write_of_ready (ready : s.Ready) (text : List Char) :
    s.write text = .ok (s.put false text) := by
  simp [write, valueStart, valueStartAssumeTypeOk, ready.keyExpected, ready.complete, put,
    writeAll, valueDone, bind, Except.bind, pure, Except.pure]

/-- In an array, with a comma due or not. -/
def inArray (out : List Char) (nesting : List Container) (comma : Bool) : Stringify where
  out
  nextPunctuation := if comma then .comma else .none
  nesting := .array :: nesting

/-- In an object before a key, with a comma due or not. -/
def inObject (out : List Char) (nesting : List Container) (comma : Bool) : Stringify where
  out
  nextPunctuation := if comma then .comma else .none
  nesting := .object :: nesting

/-- In an object behind a key. -/
def behindKey (out : List Char) (nesting : List Container) : Stringify where
  out
  nextPunctuation := .colon
  nesting := .object :: nesting

variable {out : List Char} {nesting : List Container} {comma : Bool}

theorem ready_inArray : (inArray out nesting comma).Ready where
  keyExpected := rfl
  complete := rfl

theorem ready_behindKey : (behindKey out nesting).Ready where
  keyExpected := rfl
  complete := rfl

theorem beginArray_of_ready (ready : s.Ready) :
    s.beginArray = .ok (inArray (s.out ++ (due s.nextPunctuation ++ ['['])) s.nesting false) := by
  simp [beginArray, beginContainer, valueStart, valueStartAssumeTypeOk, ready.keyExpected,
    ready.complete, inArray, writeAll, bind, Except.bind, pure, Except.pure]

theorem beginObject_of_ready (ready : s.Ready) :
    s.beginObject = .ok (inObject (s.out ++ (due s.nextPunctuation ++ ['{'])) s.nesting false) := by
  simp [beginObject, beginContainer, valueStart, valueStartAssumeTypeOk, ready.keyExpected,
    ready.complete, inObject, writeAll, bind, Except.bind, pure, Except.pure]

theorem endArray_inArray :
    (inArray out nesting comma).endArray =
      .ok { out := out ++ [']'], nextPunctuation := .comma, nesting } := by
  cases comma <;> rfl

theorem endObject_inObject :
    (inObject out nesting comma).endObject =
      .ok { out := out ++ ['}'], nextPunctuation := .comma, nesting } := by
  cases comma <;> rfl

theorem objectField_inObject (key : List Char) :
    (inObject out nesting comma).objectField key =
      .ok (behindKey (out ++ ((if comma then [','] else []) ++ encodeJsonString key)) nesting) := by
  cases comma <;> simp [objectField, isObjectKeyExpected, inObject, valueStartAssumeTypeOk,
    isComplete, behindKey, writeAll, due, bind, Except.bind, pure, Except.pure]

theorem put_inArray (element : Element) :
    (inArray out nesting comma).put element.raw element.text =
      inArray (out ++ written comma [element]) nesting (comma || !element.raw) := by
  cases raw : element.raw <;> cases comma <;> simp [put, inArray, written, raw, writeAll, due]

theorem put_behindKey_raw (text : List Char) :
    (behindKey out nesting).put true text = behindKey (out ++ text) nesting :=
  rfl

theorem put_behindKey (text : List Char) :
    (behindKey out nesting).put false text = inObject (out ++ ':' :: text) nesting true :=
  rfl

end Stringify

/-- The number of a decimal under any number of names. -/
def Tree.decimal? : Tree → Option (ℤ × ℕ)
  | .decimal raw scale => some (raw, scale)
  | .named value => value.decimal?
  | _ => none

theorem Tree.of_decimal? {printFloat : UInt64 → List Char} {raw : ℤ} {scale : ℕ} (tree : Tree)
    (isDecimal : tree.decimal? = some (raw, scale)) :
    tree.traps = false ∧ tree.isRaw = true ∧
      tree.text printFloat = formatDecimalString raw scale := by
  induction tree using Tree.induct with
  | decimal raw' scale' =>
    cases isDecimal
    exact ⟨rfl, rfl, rfl⟩
  | named value ih => exact ih isDecimal
  | _ => cases isDecimal

variable {heap : Heap} {types : Types}

theorem StringValue.asStringValue_eq {value : Value} {form : StringForm} {bytes : List UInt8}
    (isString : StringValue heap types value form bytes) :
    ∃ least, ∀ bound, least ≤ bound → asStringValue heap types bound value = .ok bytes := by
  induction isString with
  | string =>
    refine ⟨1, fun bound le => ?_⟩
    obtain ⟨bound, rfl⟩ := Nat.exists_eq_add_of_le' le
    rfl
  | dynString obj | stringView obj =>
    refine ⟨1, fun bound le => ?_⟩
    obtain ⟨bound, rfl⟩ := Nat.exists_eq_add_of_le' le
    rw [asStringValue, obj]
  | named obj stringBased _ ih =>
    rcases ih with ⟨least, holds⟩
    refine ⟨least + 1, fun bound le => ?_⟩
    obtain ⟨bound, rfl⟩ := Nat.exists_eq_add_of_le' le
    rw [← add_assoc, asStringValue, obj]
    dsimp only
    rw [if_pos stringBased]
    exact holds _ (le_add_left _ _)

theorem decimal?_seen {below : Value → Tree → Prop} {typ : Ref} {value : Value} {tree : Tree}
    (inner : Layer heap types below value tree) (notDecimal : ∀ raw, value ≠ .decimal raw) :
    (seen types typ value tree).decimal? = tree.decimal? := by
  cases inner with
  | decimal raw => exact absurd rfl (notDecimal raw)
  | @named _ typ' value' tree' _ inner' =>
    have notNamed : ∀ hidden, seen types typ' value' tree' ≠ .named hidden := by
      intro hidden
      unfold seen
      split
      · split <;> simp
      · simp
      · simp
      · rename_i isNotNamed
        exact fun same => isNotNamed hidden same
    generalize seen types typ' value' tree' = visible at notNamed
    cases visible with
    | named hidden => exact absurd rfl (notNamed hidden)
    | _ => rfl
  | _ => rfl

theorem Layer.decimalRawAndScale_eq {below : Value → Tree → Prop} {value : Value} {tree : Tree}
    (layer : Layer heap types below value tree) :
    ∃ least, ∀ bound, least ≤ bound →
      decimalRawAndScale heap types bound value = .ok tree.decimal? := by
  induction layer with
  | @named ref typ value tree obj inner ih =>
    rcases ih with ⟨least, holds⟩
    refine ⟨least + 1, fun bound le => ?_⟩
    obtain ⟨bound, rfl⟩ := Nat.exists_eq_add_of_le' le
    have rest := holds (bound + least) (le_add_left _ _)
    rw [← add_assoc, decimalRawAndScale, obj]
    by_cases isDecimal : ∃ raw, value = .decimal raw
    · rcases isDecimal with ⟨raw, rfl⟩
      cases inner
      cases scale : types.decimalScale typ with
      | none =>
        dsimp only
        rw [rest]
        simp [seen, Tree.decimal?, scale]
      | some scale' => simp [seen, Tree.decimal?, scale]
    · have notDecimal : ∀ raw, value ≠ .decimal raw := fun raw same => isDecimal ⟨raw, same⟩
      rw [Tree.decimal?, decimal?_seen inner notDecimal, ← rest]
      dsimp only
      split
      · exact absurd rfl (notDecimal _)
      · rfl
  | array slice _ | map slice _ =>
    refine ⟨1, fun bound le => ?_⟩
    obtain ⟨bound, rfl⟩ := Nat.exists_eq_add_of_le' le
    rw [decimalRawAndScale]
    split
    · rename_i obj
      rw [obj] at slice
      cases slice
    · rfl
  | dynString obj _ | stringView obj _ | bigint obj | variantValue obj =>
    refine ⟨1, fun bound le => ?_⟩
    obtain ⟨bound, rfl⟩ := Nat.exists_eq_add_of_le' le
    rw [decimalRawAndScale, obj]
    rfl
  | _ =>
    refine ⟨1, fun bound le => ?_⟩
    obtain ⟨bound, rfl⟩ := Nat.exists_eq_add_of_le' le
    rfl

section

variable (heap types) (printFloat : UInt64 → List Char)

/-- An ancestor that unfolds to a larger tree. -/
def Larger (tree : Tree) (ancestor : Ref) : Prop :=
  ∃ depth whole, Unfolds heap types depth (.object ancestor) whole ∧ sizeOf tree < sizeOf whole

/-- The state after a value has been written, if it can be. -/
def written? (tree : Tree) (s : Stringify) : Except Trap Stringify :=
  if tree.traps then .error .unreachable
  else .ok (s.put tree.isRaw (tree.text printFloat))

/-- With that many levels left and inside of larger values only, the walk writes a tree. -/
def WritesAt (bound levels : ℕ) (value : Value) (tree : Tree) : Prop :=
  ∀ more, levels ≤ more → ∀ ancestors, (∀ ancestor ∈ ancestors, Larger heap types tree ancestor) →
    ∀ s : Stringify, s.Ready →
      jsonStringifyValueDepth heap types printFloat bound more ancestors value s =
        written? printFloat tree s

end

variable {printFloat : UInt64 → List Char} {bound levels more : ℕ} {ancestors : List Ref}

theorem written_cons (comma : Bool) (element : Element) (elements : List Element) :
    written comma (element :: elements) =
      written comma [element] ++ written (comma || !element.raw) elements := by
  cases raw : element.raw <;> cases comma <;> simp [written, raw]

theorem stringifyItems_eq {items : List Value} {trees : List Tree}
    (writes : List.Forall₂ (WritesAt heap types printFloat bound levels) items trees)
    (enough : levels ≤ more)
    (larger : ∀ ancestor ∈ ancestors, ∀ tree ∈ trees, Larger heap types tree ancestor)
    (out : List Char) (nesting : List Container) (comma : Bool) :
    ∃ comma', stringifyItems
        (jsonStringifyValueDepth heap types printFloat bound more ancestors) items
        (.inArray out nesting comma) =
      if Tree.anyTraps trees then .error .unreachable
      else
        .ok (.inArray (out ++ written comma (Tree.elements printFloat trees)) nesting comma') := by
  induction writes generalizing out comma with
  | nil => exact ⟨comma, by simp [stringifyItems, Tree.anyTraps, Tree.elements, written]⟩
  | @cons item tree items trees first _ ih =>
    have wrote := first more enough ancestors
      (fun ancestor mem => larger ancestor mem tree (mem_cons_self ..)) _
      (@Stringify.ready_inArray out nesting comma)
    rw [stringifyItems, wrote, written?, Tree.anyTraps]
    cases traps : tree.traps with
    | true => exact ⟨false, rfl⟩
    | false =>
      have put := @Stringify.put_inArray out nesting comma ⟨tree.isRaw, tree.text printFloat⟩
      rcases ih (fun ancestor mem tree isTree =>
          larger ancestor mem tree (mem_cons_of_mem _ isTree))
        (out ++ written comma [⟨tree.isRaw, tree.text printFloat⟩])
        (comma || !tree.isRaw) with ⟨comma', rest⟩
      refine ⟨comma', ?_⟩
      rw [if_neg Bool.false_ne_true, put, Bool.false_or, Tree.elements,
        written_cons comma _ (Tree.elements printFloat trees), ← append_assoc]
      exact rest

/-- The members of an object with the separators before them. -/
def membersText (comma : Bool) (texts : List (List Char)) : List Char :=
  if texts = [] then [] else (if comma then [','] else []) ++ commaSeparated texts

theorem membersText_cons (comma : Bool) (text : List Char) (texts : List (List Char)) :
    membersText comma (text :: texts) =
      (if comma then [','] else []) ++ (text ++ membersText true texts) := by
  cases texts with
  | nil | cons next texts => simp [membersText, commaSeparated]

/-- The entries of a map are written up to the closing brace, if no member is written past the
serializer. -/
theorem stringifyEntries_eq {entries : List MapEntry} {members : List (Key × Tree)}
    (writes : List.Forall₂ (fun entry member =>
      (∃ bytes, asStringValue heap types bound (unboxNamed heap entry.key) = .ok bytes ∧
        decodeUtf8 bytes = some member.1.chars) ∧
      WritesAt heap types printFloat bound levels entry.value member.2) entries members)
    (enough : levels ≤ more)
    (larger : ∀ ancestor ∈ ancestors, ∀ member ∈ members, Larger heap types member.2 ancestor)
    (out : List Char) (nesting : List Container) (comma : Bool) :
    (stringifyEntries heap types bound
        (jsonStringifyValueDepth heap types printFloat bound more ancestors) entries
        (.inObject out nesting comma)).bind Stringify.endObject =
      if Tree.anyMemberTraps members then .error .unreachable
      else .ok
        { out := out ++
            (membersText comma ((Tree.entries printFloat members).map memberText) ++ ['}'])
          nextPunctuation := .comma
          nesting } := by
  induction writes generalizing out comma with
  | nil =>
    simp [stringifyEntries, Tree.anyMemberTraps, Tree.entries, membersText, Except.bind,
      Stringify.endObject_inObject]
  | @cons entry member entries members first rest ih =>
    rcases first with ⟨⟨bytes, isKey, decoded⟩, writesValue⟩
    have wrote := writesValue more enough ancestors
      (fun ancestor mem => larger ancestor mem member (mem_cons_self ..)) _
      (@Stringify.ready_behindKey
        (out ++ ((if comma then [','] else []) ++ encodeJsonString member.1.chars)) nesting)
    have keyed : stringifyEntries heap types bound
        (jsonStringifyValueDepth heap types printFloat bound more ancestors) (entry :: entries)
        (.inObject out nesting comma) =
      (written? printFloat member.2 (.behindKey
        (out ++ ((if comma then [','] else []) ++ encodeJsonString member.1.chars)) nesting)).bind
        fun s => stringifyEntries heap types bound
          (jsonStringifyValueDepth heap types printFloat bound more ancestors) entries s := by
      rw [stringifyEntries, isKey]
      change (writeKey bytes (.inObject out nesting comma)).bind _ = _
      rw [writeKey, decoded]
      dsimp only
      rw [Stringify.objectField_inObject]
      change (jsonStringifyValueDepth heap types printFloat bound more ancestors entry.value
        (.behindKey _ nesting)).bind _ = _
      rw [wrote]
    rw [keyed, written?, Tree.anyMemberTraps]
    cases traps : member.2.traps with
    | true => rfl
    | false =>
      rw [if_neg Bool.false_ne_true, Bool.false_or]
      change (stringifyEntries heap types bound
        (jsonStringifyValueDepth heap types printFloat bound more ancestors) entries
        (Stringify.put _ member.2.isRaw _)).bind Stringify.endObject = _
      cases raw : member.2.isRaw with
      | true =>
        -- The colon is still due when the next key or the closing brace is written.
        rw [Stringify.put_behindKey_raw, Bool.true_or, if_pos rfl]
        cases rest with
        | nil => rfl
        | cons next _ =>
          rcases next with ⟨⟨bytes', isKey', decoded'⟩, -⟩
          rw [stringifyEntries, isKey']
          change ((writeKey bytes' _).bind _).bind Stringify.endObject = _
          rw [writeKey, decoded']
          rfl
      | false =>
        have later := ih (fun ancestor mem member isMember =>
            larger ancestor mem member (mem_cons_of_mem _ isMember))
          (out ++ ((if comma then [','] else []) ++ encodeJsonString member.1.chars) ++
            ':' :: member.2.text printFloat) true
        rw [Stringify.put_behindKey, later, Bool.false_or, Tree.entries_eq,
          Tree.entries_eq, map_cons, map_cons, membersText_cons]
        simp [memberText]

theorem exists_least_forall₂ {α β : Type} {writes : ℕ → α → β → Prop} {items : List α}
    {trees : List β} (each : List.Forall₂ (fun item tree =>
      ∃ least, ∀ bound, least ≤ bound → writes bound item tree) items trees) :
    ∃ least, ∀ bound, least ≤ bound → List.Forall₂ (writes bound) items trees := by
  induction each with
  | nil => exact ⟨0, fun _ _ => .nil⟩
  | cons first _ ih =>
    rcases first with ⟨least, holds⟩
    rcases ih with ⟨least', holds'⟩
    refine ⟨max least least', fun bound le => .cons (holds bound ?_) (holds' bound ?_)⟩
    · exact (le_max_left _ _).trans le
    · exact (le_max_right _ _).trans le

/-- The value without its name is written as a tree. -/
def WritesUnboxed (heap : Heap) (types : Types) (printFloat : UInt64 → List Char)
    (bound levels : ℕ) (uv : Value) (tree : Tree) : Prop :=
  ∀ more, levels ≤ more → ∀ ancestors, (∀ ancestor ∈ ancestors, Larger heap types tree ancestor) →
    ∀ s : Stringify, s.Ready →
      stringifyUnboxed heap types printFloat bound
        (jsonStringifyValueDepth heap types printFloat bound more) ancestors uv s =
        written? printFloat tree s

/-- A decimal is written before the names are looked at, and any other value without its name. -/
theorem WritesUnboxed.writesAt {value : Value} {tree : Tree}
    (isDecimal : decimalRawAndScale heap types bound value = .ok tree.decimal?)
    (unboxed : tree.decimal? = none →
      WritesUnboxed heap types printFloat bound levels (unboxNamed heap value) tree) :
    WritesAt heap types printFloat bound (levels + 1) value tree := by
  intro more le ancestors larger s ready
  obtain ⟨more, rfl⟩ : ∃ fewer, more = fewer + 1 := ⟨more - 1, by omega⟩
  rw [jsonStringifyValueDepth, isDecimal]
  cases decimal : tree.decimal? with
  | none => exact unboxed decimal more (le_of_succ_le_succ le) ancestors larger s ready
  | some number =>
    rcases number with ⟨raw, scale⟩
    rcases tree.of_decimal? decimal with ⟨ok, raw_, text⟩
    rw [written?, ok, raw_, text]
    rfl

theorem writesUnboxed_write {uv : Value} {tree : Tree} (ok : tree.traps = false)
    (notRaw : tree.isRaw = false)
    (writes : ∀ stringify ancestors s, stringifyUnboxed heap types printFloat bound stringify
      ancestors uv s = s.write (tree.text printFloat)) :
    WritesUnboxed heap types printFloat bound levels uv tree := by
  intro more _ ancestors _ s ready
  rw [writes, written?, ok, notRaw, Stringify.write_of_ready ready]
  rfl

theorem writesUnboxed_bytes {uv : Value} {form : StringForm} {bytes : List UInt8}
    {chars : List Char}
    (decoded : decodeUtf8 bytes = some chars)
    (writes : ∀ stringify ancestors s, stringifyUnboxed heap types printFloat bound stringify
      ancestors uv s = writeBytes bytes s) :
    WritesUnboxed heap types printFloat bound levels uv (.string form chars) := by
  refine writesUnboxed_write rfl rfl fun stringify ancestors s => ?_
  rw [writes, writeBytes, decoded]
  rfl

section Ancestors

variable {ref : Ref} {tree : Tree}
  (unfolds : ∃ depth, Unfolds heap types depth (.object ref) tree)
  (larger : ∀ ancestor ∈ ancestors, Larger heap types tree ancestor)

include unfolds larger

theorem not_mem_ancestors : ref ∉ ancestors := by
  intro mem
  rcases unfolds with ⟨depth, unfolds⟩
  rcases larger ref mem with ⟨depth', whole, unfolds', lt⟩
  rw [unfolds.unique unfolds'] at lt
  exact lt_irrefl _ lt

theorem larger_of_lt {part : Tree} (smaller : sizeOf part < sizeOf tree) :
    ∀ ancestor ∈ ref :: ancestors, Larger heap types part ancestor := by
  rcases unfolds with ⟨depth, unfolds⟩
  refine forall_mem_cons.mpr ⟨⟨depth, tree, unfolds, smaller⟩, fun ancestor mem => ?_⟩
  rcases larger ancestor mem with ⟨depth', whole, unfolds', lt⟩
  exact ⟨depth', whole, unfolds', smaller.trans lt⟩

end Ancestors

theorem writesUnboxed_array {ref : Ref} {items : List Value} {trees : List Tree}
    (slice : asArraySlice heap (heap.objects ref) = some items)
    (unfolds : ∃ depth, Unfolds heap types depth (.object ref) (.array trees))
    (writes : List.Forall₂ (WritesAt heap types printFloat bound levels) items trees) :
    WritesUnboxed heap types printFloat bound levels (.object ref) (.array trees) := by
  intro more le ancestors larger s ready
  have fresh := not_mem_ancestors unfolds larger
  have inside : ∀ ancestor ∈ ref :: ancestors, ∀ tree ∈ trees, Larger heap types tree ancestor := by
    intro ancestor mem tree isTree
    refine larger_of_lt unfolds larger ?_ ancestor mem
    have lt := sizeOf_lt_of_mem isTree
    rw [Tree.array.sizeOf_spec]
    omega
  rcases stringifyItems_eq writes le inside (s.out ++ (Stringify.due s.nextPunctuation ++ ['[']))
    s.nesting false with ⟨comma, wrote⟩
  have goes : stringifyUnboxed heap types printFloat bound
      (jsonStringifyValueDepth heap types printFloat bound more) ancestors (.object ref) s =
        (stringifyItems (jsonStringifyValueDepth heap types printFloat bound more
          (ref :: ancestors)) items (.inArray (s.out ++
            (Stringify.due s.nextPunctuation ++ ['['])) s.nesting false)).bind
          Stringify.endArray := by
    rw [stringifyUnboxed]
    cases obj : heap.objects ref with
    | array _ | arrayManaged _ | arrayView _ _ | arrayCapacity _ _ =>
      rw [obj] at slice
      rw [stringifyContainer, if_neg fresh, Stringify.beginArray_of_ready ready, slice]
      rfl
    | _ =>
      rw [obj] at slice
      cases slice
  rw [goes, wrote, written?, Tree.traps]
  split
  · rfl
  · change Stringify.endArray _ = _
    rw [Stringify.endArray_inArray]
    simp [Stringify.put, Tree.isRaw, Tree.text]

theorem writesUnboxed_map {ref : Ref} {entries : List MapEntry} {members : List (Key × Tree)}
    (slice : asMapSlice (heap.objects ref) = some entries)
    (unfolds : ∃ depth, Unfolds heap types depth (.object ref) (.object members))
    (writes : List.Forall₂ (fun entry member =>
      (∃ bytes, asStringValue heap types bound (unboxNamed heap entry.key) = .ok bytes ∧
        decodeUtf8 bytes = some member.1.chars) ∧
      WritesAt heap types printFloat bound levels entry.value member.2) entries members) :
    WritesUnboxed heap types printFloat bound levels (.object ref) (.object members) := by
  intro more le ancestors larger s ready
  have fresh := not_mem_ancestors unfolds larger
  have inside : ∀ ancestor ∈ ref :: ancestors, ∀ member ∈ members,
      Larger heap types member.2 ancestor := by
    rintro ancestor mem ⟨key, value⟩ isMember
    refine larger_of_lt unfolds larger ?_ ancestor mem
    have lt := sizeOf_lt_of_mem isMember
    rw [Prod.mk.sizeOf_spec] at lt
    rw [Tree.object.sizeOf_spec]
    change sizeOf value < _
    omega
  have wrote := stringifyEntries_eq writes le inside
    (s.out ++ (Stringify.due s.nextPunctuation ++ ['{'])) s.nesting false
  have goes : stringifyUnboxed heap types printFloat bound
      (jsonStringifyValueDepth heap types printFloat bound more) ancestors (.object ref) s =
        (stringifyEntries heap types bound (jsonStringifyValueDepth heap types printFloat bound
          more (ref :: ancestors)) entries (.inObject (s.out ++
            (Stringify.due s.nextPunctuation ++ ['{'])) s.nesting false)).bind
          Stringify.endObject := by
    rw [stringifyUnboxed]
    cases obj : heap.objects ref with
    | map _ | mapManaged _ | mapHashed _ _ =>
      rw [obj] at slice
      dsimp only
      rw [stringifyContainer, if_neg fresh, Stringify.beginObject_of_ready ready, slice]
      rfl
    | _ =>
      rw [obj] at slice
      cases slice
  rw [goes, wrote, written?, Tree.traps]
  split
  · rfl
  · cases members with
    | nil => simp [Stringify.put, Tree.isRaw, Tree.text, Tree.entries, membersText, commaSeparated]
    | cons member members =>
      simp [Stringify.put, Tree.isRaw, Tree.text, Tree.entries_eq, membersText]

theorem unboxNamed_eq_self {below : Value → Tree → Prop} {value : Value} {tree : Tree}
    (layer : Layer heap types below value tree) (notNamed : ∀ hidden, tree ≠ .named hidden) :
    unboxNamed heap value = value := by
  cases layer with
  | named _ _ => exact absurd rfl (notNamed _)
  | dynString obj _ | stringView obj _ | bigint obj | variantValue obj =>
    rw [unboxNamed, obj]
  | array slice _ | map slice _ =>
    rw [unboxNamed]
    split
    · rename_i obj
      rw [obj] at slice
      cases slice
    · rfl
  | _ => rfl

/-- If everything below a layer is written as its trees, then so is the layer without its
name. -/
theorem Layer.writesUnboxed {below : Value → Tree → Prop}
    (unfolds : ∀ value tree, Layer heap types below value tree →
      ∃ depth, Unfolds heap types depth value tree)
    (lower : ∀ value tree, below value tree →
      ∃ least, ∀ bound, least ≤ bound → WritesAt heap types printFloat bound levels value tree)
    {value : Value} {tree : Tree} (layer : Layer heap types below value tree)
    (notNamed : ∀ hidden, tree ≠ .named hidden) (notDecimal : tree.decimal? = none) :
    ∃ least, ∀ bound, least ≤ bound →
      WritesUnboxed heap types printFloat bound levels value tree := by
  have whole := unfolds value tree layer
  cases layer with
  | null | int _ | float _ =>
    exact ⟨0, fun bound _ => writesUnboxed_write rfl rfl fun _ _ _ => rfl⟩
  | boolean value =>
    cases value with
    | true | false => exact ⟨0, fun bound _ => writesUnboxed_write rfl rfl fun _ _ _ => rfl⟩
  | decimal raw => cases notDecimal
  | string decoded => exact ⟨0, fun bound _ => writesUnboxed_bytes decoded fun _ _ _ => rfl⟩
  | inlineVariant bits => exact ⟨0, fun bound _ more _ ancestors _ s _ => rfl⟩
  | dynString obj decoded | stringView obj decoded =>
    refine ⟨0, fun bound _ => writesUnboxed_bytes decoded fun _ _ _ => ?_⟩
    rw [stringifyUnboxed, obj]
  | bigint obj =>
    refine ⟨0, fun bound _ more _ ancestors _ s _ => ?_⟩
    rw [stringifyUnboxed, obj]
    rfl
  | variantValue obj =>
    refine ⟨0, fun bound _ => writesUnboxed_write rfl rfl fun _ _ _ => ?_⟩
    rw [stringifyUnboxed, obj]
    rfl
  | array slice elements =>
    have each := elements.imp fun item tree isBelow => lower item tree isBelow
    rcases exists_least_forall₂ each with ⟨least, writes⟩
    exact ⟨least, fun bound le => writesUnboxed_array slice whole (writes bound le)⟩
  | @map ref entries members slice isMembers =>
    have each : List.Forall₂ (fun entry member => ∃ least, ∀ bound, least ≤ bound →
        (∃ bytes, asStringValue heap types bound (unboxNamed heap entry.key) = .ok bytes ∧
          decodeUtf8 bytes = some member.1.chars) ∧
        WritesAt heap types printFloat bound levels entry.value member.2) entries members := by
      refine isMembers.imp fun entry member both => ?_
      rcases both.1.chars with ⟨bytes, isString, decoded⟩
      rcases isString.asStringValue_eq with ⟨least, isKey⟩
      rcases lower _ _ both.2 with ⟨least', writes⟩
      refine ⟨max least least', fun bound le => ⟨⟨bytes, isKey bound ?_, decoded⟩, writes bound ?_⟩⟩
      · exact (le_max_left _ _).trans le
      · exact (le_max_right _ _).trans le
    rcases exists_least_forall₂ each with ⟨least, writes⟩
    exact ⟨least, fun bound le => writesUnboxed_map slice whole (writes bound le)⟩
  | named _ _ => exact absurd rfl (notNamed _)

theorem writesUnboxed_hidden {ref typ typ' : Ref} {value : Value} {tree : Tree}
    (obj : heap.objects ref = .namedValue typ value)
    (notDecimal : (seen types typ' (.object ref) (.named tree)).decimal? = none) :
    WritesUnboxed heap types printFloat bound levels (.object ref)
      (.named (seen types typ' (.object ref) (.named tree))) := by
  have isOther : seen types typ' (.object ref) (.named tree) = .other := by
    cases tree with
    | decimal raw scale => cases notDecimal
    | _ => rfl
  rw [isOther]
  refine writesUnboxed_write rfl rfl fun _ _ _ => ?_
  rw [stringifyUnboxed, obj]
  rfl

/-- If everything below a layer is written as its trees, then so is the layer. -/
theorem Layer.writesAt {below : Value → Tree → Prop}
    (unfolds : ∀ value tree, Layer heap types below value tree →
      ∃ depth, Unfolds heap types depth value tree)
    (lower : ∀ value tree, below value tree →
      ∃ least, ∀ bound, least ≤ bound → WritesAt heap types printFloat bound levels value tree)
    {value : Value} {tree : Tree} (layer : Layer heap types below value tree) :
    ∃ least, ∀ bound, least ≤ bound →
      WritesAt heap types printFloat bound (levels + 1) value tree := by
  rcases layer.decimalRawAndScale_eq with ⟨least, isDecimal⟩
  -- It is enough to look at values that are no decimals, without their names.
  suffices unboxed : tree.decimal? = none → ∃ least, ∀ bound, least ≤ bound →
      WritesUnboxed heap types printFloat bound levels (unboxNamed heap value) tree by
    cases decimal : tree.decimal? with
    | some number =>
      refine ⟨least, fun bound le => (WritesUnboxed.writesAt (isDecimal bound le) ?_)⟩
      intro none_
      rw [decimal] at none_
      cases none_
    | none =>
      rcases unboxed decimal with ⟨least', writes⟩
      refine ⟨max least least', fun bound le =>
        WritesUnboxed.writesAt (isDecimal bound ?_) fun _ => writes bound ?_⟩
      · exact (le_max_left _ _).trans le
      · exact (le_max_right _ _).trans le
  intro notDecimal
  by_cases isNamed : ∃ hidden, tree = .named hidden
  · rcases isNamed with ⟨hidden, rfl⟩
    cases layer with
    | @named ref typ inner tree obj layer =>
      rw [unboxNamed, obj]
      have notDecimalValue : ∀ raw, inner ≠ .decimal raw := by
        rintro raw rfl
        cases layer
        cases notDecimal
      by_cases isNamed : ∃ hidden, tree = .named hidden
      · rcases isNamed with ⟨hidden, rfl⟩
        cases layer with
        | named obj' _ => exact ⟨0, fun bound _ => writesUnboxed_hidden obj' notDecimal⟩
      · have notNamed : ∀ hidden, tree ≠ .named hidden :=
          fun hidden same => isNamed ⟨hidden, same⟩
        have none_ : tree.decimal? = none :=
          (decimal?_seen layer notDecimalValue).symm.trans notDecimal
        have same : seen types typ inner tree = tree := by
          unfold seen
          split
          · cases none_
          · exact absurd rfl (notNamed _)
          · exact absurd rfl (notNamed _)
          · rfl
        rcases layer.writesUnboxed unfolds lower notNamed none_ with ⟨least, writes⟩
        refine ⟨least, fun bound le more enough ancestors larger s ready => ?_⟩
        rw [same] at larger ⊢
        refine writes bound le more enough ancestors (fun ancestor mem => ?_) s ready
        rcases larger ancestor mem with ⟨depth, whole, unfolded, lt⟩
        rw [Tree.named.sizeOf_spec] at lt
        exact ⟨depth, whole, unfolded, by omega⟩
  · have notNamed : ∀ hidden, tree ≠ .named hidden := fun hidden same => isNamed ⟨hidden, same⟩
    rw [unboxNamed_eq_self layer notNamed]
    exact layer.writesUnboxed unfolds lower notNamed notDecimal

/-- A value that unfolds is written as its tree, with more levels left than it is deep. -/
theorem Unfolds.writesAt {depth : ℕ} {value : Value} {tree : Tree}
    (unfolds : Unfolds heap types depth value tree) :
    ∃ least, ∀ bound, least ≤ bound →
      WritesAt heap types printFloat bound (depth + 1) value tree := by
  induction depth generalizing value tree with
  | zero =>
    exact Layer.writesAt (fun value tree layer => ⟨0, layer⟩)
      (fun value tree none_ => none_.elim) unfolds
  | succ depth ih =>
    exact Layer.writesAt (fun value tree layer => ⟨depth + 1, layer⟩)
      (fun value tree lower => ih lower) unfolds

theorem Unfolds.jsonStringifyNative_eq {depth : ℕ} {value : Value} {tree : Tree}
    (unfolds : Unfolds heap types depth value tree) (shallow : depth < maxDepth) :
    ∃ least, ∀ bound, least ≤ bound → jsonStringifyNative heap types printFloat bound value =
      if tree.traps then .error .unreachable else .ok (tree.text printFloat) := by
  have writesAt : ∃ least, ∀ bound, least ≤ bound →
      WritesAt heap types printFloat bound (depth + 1) value tree := unfolds.writesAt
  rcases writesAt with ⟨least, writes⟩
  refine ⟨least, fun bound le => ?_⟩
  have ready : ({} : Stringify).Ready := ⟨rfl, rfl⟩
  have wrote := writes bound le maxDepth shallow [] (fun _ mem => absurd mem not_mem_nil) {} ready
  rw [jsonStringifyNative, wrote, written?]
  split
  · rfl
  · cases raw : tree.isRaw with
    | true => rfl
    | false => rfl

end Gengo.Json
