import Gengo.Json.Serializer

/-!
# The text of a tree

What a value unfolds to, and the text that is written for it. Decimals and bigints are written
past the serializer, so that no separator stands before them and none becomes due after them. An
array falls into clusters of elements that nothing separates.
-/

namespace Gengo.Json

open List Bool

/-- The forms of a string: a constant, a string on the heap, and a view of one. -/
inductive StringForm
  | constant
  | dynString
  | stringView
  deriving DecidableEq

/-- A key of a map, and whether it is a value of a named type. -/
structure Key where
  named : Bool
  form : StringForm
  chars : List Char
  deriving DecidableEq

/-- What a value unfolds to. `other` stands for the values that are written as null. -/
inductive Tree
  | null
  | boolean (value : Bool)
  | int (value : Int64)
  | float (bits : UInt64)
  | decimal (raw : ℤ) (scale : ℕ)
  | bigint (value : ℤ)
  | string (form : StringForm) (chars : List Char)
  | array (items : List Tree)
  | object (members : List (Key × Tree))
  | named (value : Tree)
  | inlineVariant
  | other

/-- The text of an element, and whether it is written past the serializer. -/
structure Element where
  raw : Bool
  text : List Char

/-- Elements as they are written, when one before them was written by the serializer or not. -/
def written : Bool → List Element → List Char
  | _, [] => []
  | comma, element :: elements =>
    if element.raw then element.text ++ written comma elements
    else (if comma then [','] else []) ++ (element.text ++ written true elements)

/-- The runs of elements without a separator between them, behind the start of one. -/
def clusters : Bool → List Element → List Element → List (List Element)
  | _, current, [] => [current]
  | comma, current, element :: elements =>
    if element.raw ∨ comma = false then
      clusters (comma || !element.raw) (current ++ [element]) elements
    else current :: clusters true [element] elements

def clusterText (cluster : List Element) : List Char :=
  cluster.flatMap Element.text

theorem commaSeparated_cons {text : List Char} {texts : List (List Char)} (nonempty : texts ≠ []) :
    commaSeparated (text :: texts) = text ++ ',' :: commaSeparated texts := by
  cases texts with
  | nil => contradiction
  | cons next texts => rfl

section

variable (comma : Bool) (current elements : List Element)
include comma current elements

theorem clusters_ne_nil : clusters comma current elements ≠ [] := by
  induction elements generalizing comma current with
  | nil => exact cons_ne_nil _ _
  | cons element elements ih =>
    rw [clusters]
    split
    · exact ih _ _
    · exact cons_ne_nil _ _

theorem commaSeparated_clusters :
    commaSeparated ((clusters comma current elements).map clusterText) =
      clusterText current ++ written comma elements := by
  induction elements generalizing comma current with
  | nil => simp [clusters, commaSeparated, written]
  | cons element elements ih =>
    rw [clusters, written]
    cases raw : element.raw with
    | true =>
      rw [if_pos (.inl rfl), if_pos rfl, ih]
      simp [clusterText]
    | false =>
      cases comma with
      | false =>
        rw [if_pos (.inr rfl), if_neg Bool.false_ne_true, ih]
        simp [clusterText]
      | true =>
        rw [if_neg (by simp), if_neg Bool.false_ne_true, map_cons,
          commaSeparated_cons (by simpa using clusters_ne_nil _ _ _), ih]
        simp [clusterText]

theorem flatten_clusters : (clusters comma current elements).flatten = current ++ elements := by
  induction elements generalizing comma current with
  | nil => simp [clusters]
  | cons element elements ih =>
    rw [clusters]
    split
    · rw [ih, append_assoc, singleton_append]
    · rw [flatten_cons, ih, singleton_append]

end

/-- A cluster of more than one element begins or ends with one that the serializer did not
write. -/
theorem raw_of_mem_clusters {comma : Bool} {current elements : List Element}
    (start : (comma = false → ∀ element ∈ current, element.raw = true) ∧
      ∀ first second rest, current = first :: second :: rest →
        first.raw = true ∨ ∃ last, current.getLast? = some last ∧ last.raw = true) :
    ∀ cluster ∈ clusters comma current elements, ∀ first second rest,
      cluster = first :: second :: rest →
        first.raw = true ∨ ∃ last, cluster.getLast? = some last ∧ last.raw = true := by
  induction elements generalizing comma current with
  | nil =>
    intro cluster mem
    rw [mem_singleton.mp mem]
    exact start.2
  | cons element elements ih =>
    rw [clusters]
    split
    case isTrue joins =>
      refine ih ⟨fun none_ => ?_, fun first second rest same => ?_⟩
      · rw [or_eq_false_iff, not_eq_false'] at none_
        intro other mem
        rcases mem_append.mp mem with earlier | isNew
        · exact start.1 none_.1 other earlier
        · rw [mem_singleton.mp isNew]
          exact none_.2
      · cases raw : element.raw with
        | true => exact .inr ⟨element, by rw [List.getLast?_concat], raw⟩
        | false =>
          have none_ : comma = false := joins.resolve_left (by simp [raw])
          have allRaw := start.1 none_
          cases current with
          | nil => cases same
          | cons other current =>
            rw [cons_append, List.cons.injEq] at same
            exact .inl (same.1 ▸ allRaw other (mem_cons_self ..))
    case isFalse separates =>
      refine forall_mem_cons.mpr ⟨start.2, ih ⟨?_, ?_⟩⟩
      · exact fun none_ => absurd none_ (by decide)
      · intro first second rest same
        cases same

theorem ne_nil_of_mem_clusters {comma : Bool} {current elements : List Element}
    (nonempty : current ≠ []) : ∀ cluster ∈ clusters comma current elements, cluster ≠ [] := by
  induction elements generalizing comma current with
  | nil => exact forall_mem_singleton.mpr nonempty
  | cons element elements ih =>
    rw [clusters]
    split
    · exact ih (by simp)
    · exact forall_mem_cons.mpr ⟨nonempty, ih (cons_ne_nil _ _)⟩

section Elements

variable {elements : List Element}

theorem mem_of_mem_clusters {cluster : List Element} (mem : cluster ∈ clusters false [] elements) :
    ∀ element ∈ cluster, element ∈ elements := by
  intro element inCluster
  have inFlat := mem_flatten_of_mem mem inCluster
  rwa [flatten_clusters, nil_append] at inFlat

theorem exists_cluster {element : Element} (mem : element ∈ elements) :
    ∃ cluster ∈ clusters false [] elements, element ∈ cluster := by
  rw [← mem_flatten, flatten_clusters, nil_append]
  exact mem

theorem ne_nil_of_mem_clusters_of_ne_nil (nonempty : elements ≠ []) :
    ∀ cluster ∈ clusters false [] elements, cluster ≠ [] := by
  cases elements with
  | nil => contradiction
  | cons element elements =>
    rw [clusters, if_pos (.inr rfl)]
    exact ne_nil_of_mem_clusters (by simp)

theorem closed_clusterText {cluster : List Element}
    (closed : ∀ element ∈ cluster, Closed element.text) : Closed (clusterText cluster) := by
  induction cluster with
  | nil => exact closed_nil
  | cons element cluster ih =>
    rw [clusterText, flatMap_cons]
    exact (closed element (mem_cons_self ..)).append
      (ih fun other mem => closed other (mem_cons_of_mem _ mem))

/-- Elements that nothing separates are one value only if they are one number. -/
theorem isText_clusterText_iff (solid : ∀ element ∈ elements, Solid element.text)
    (numbers : ∀ element ∈ elements, element.raw = true →
      Number element.text) {cluster : List Element}
    (isCluster : cluster ∈ clusters false [] elements) (several : 2 ≤ cluster.length) :
    IsText (clusterText cluster) ↔ Number (clusterText cluster) := by
  have inside := mem_of_mem_clusters isCluster
  have ends := raw_of_mem_clusters
    ⟨fun _ element mem => absurd mem not_mem_nil, fun _ _ _ same => by cases same⟩
    cluster isCluster
  match cluster with
  | first :: second :: rest =>
    have firstSolid := solid first (inside first (mem_cons_self ..))
    rcases eq_nil_or_concat (second :: rest) with none_ | ⟨front, last, split_⟩
    · cases none_
    · rw [concat_eq_append] at split_
      have lastMem : last ∈ first :: second :: rest := by
        rw [split_]
        simp
      have lastSolid := solid last (inside last lastMem)
      have text_eq : clusterText (first :: second :: rest) =
          first.text ++ (clusterText front ++ last.text) := by
        rw [split_]
        simp [clusterText]
      have head : ∀ c, (clusterText (first :: second :: rest)).head? = some c ↔
          first.text.head? = some c := by
        intro c
        rw [text_eq, List.head?_append_of_ne_nil _ firstSolid.nonempty]
      have final : ∀ c, (clusterText (first :: second :: rest)).getLast? = some c ↔
          last.text.getLast? = some c := by
        intro c
        rw [text_eq, ← append_assoc, List.getLast?_append_of_ne_nil _ lastSolid.nonempty]
      have whole : Solid (clusterText (first :: second :: rest)) :=
        { nonempty := by simp [text_eq, firstSolid.nonempty]
          first := fun c isHead => firstSolid.first c ((head c).mp isHead)
          last := fun c isLast => lastSolid.last c ((final c).mp isLast) }
      rw [whole.isText_iff]
      constructor
      · rintro ⟨doc, spells⟩
        rcases ends first second rest rfl with raw | ⟨other, isLast, raw⟩
        · have isNumber := numbers first (inside first (mem_cons_self ..)) raw
          rcases isNumber.exists_head with ⟨c, isHead, numeric⟩
          exact spells.number_of_head ((head c).mpr isHead) numeric
        · rw [split_, ← cons_append, List.getLast?_concat, Option.some.injEq] at isLast
          have isNumber := numbers last (inside last lastMem) (isLast ▸ raw)
          rcases Option.isSome_iff_exists.mp (List.getLast?_isSome.mpr lastSolid.nonempty) with
            ⟨c, isFinal⟩
          exact spells.number_of_last ((final c).mpr isFinal) (isNumber.isDigit_getLast c isFinal)
      · exact fun isNumber => ⟨_, .number isNumber⟩

variable (closed : ∀ element ∈ elements, Closed element.text)

include closed

theorem closed_of_mem_clusters :
    ∀ text ∈ (clusters false [] elements).map clusterText, Closed text := by
  intro text mem
  rcases mem_map.mp mem with ⟨cluster, isCluster, rfl⟩
  exact closed_clusterText fun element inCluster =>
    closed element (mem_of_mem_clusters isCluster element inCluster)

theorem closed_written : Closed ('[' :: (written false elements ++ [']'])) := by
  have same := commaSeparated_clusters false [] elements
  have inner := inner_commaSeparated fun text mem => (closed_of_mem_clusters closed text mem).inner
  rw [same] at inner
  exact closed_bracketed (.inl rfl) (.inl rfl) inner

variable (solid : ∀ element ∈ elements, Solid element.text)

include solid

/-- The text of an array is one of the grammar if the text of every cluster is. -/
theorem isText_written_iff (nonempty : elements ≠ []) :
    IsText ('[' :: (written false elements ++ [']'])) ↔
      ∀ cluster ∈ clusters false [] elements, IsText (clusterText cluster) := by
  have same := commaSeparated_clusters false [] elements
  have splits := isText_iff_elements (by simpa using clusters_ne_nil false [] elements)
    (closed_of_mem_clusters closed)
  rw [same, clusterText, flatMap_nil, nil_append, forall_mem_map] at splits
  rw [(solid_bracketed _ rfl rfl).isText_iff, ← splits]
  constructor
  · rintro ⟨doc, spells⟩
    rcases spells.array_cases with ⟨blank, -⟩ | ⟨items, isElements, -⟩
    · -- The first element is no blank.
      cases elements with
      | nil => contradiction
      | cons element elements =>
        have first := solid element (mem_cons_self ..)
        cases text : element.text with
        | nil => exact absurd text first.nonempty
        | cons c rest =>
          have notBlank := first.first c (by rw [text, List.head?_cons])
          have isBlank_ := blank c (by
            rw [written]
            split <;> simp [text])
          rw [notBlank] at isBlank_
          cases isBlank_
    · exact ⟨items, isElements⟩
  · rintro ⟨items, isElements⟩
    exact ⟨.array items, .array isElements⟩

end Elements

namespace Tree

variable (printFloat : UInt64 → List Char)

/-- The value is written past the serializer. -/
def isRaw : Tree → Bool
  | .decimal .. | .bigint _ => true
  | .named value => value.isRaw
  | _ => false

mutual

def text : Tree → List Char
  | .null | .other => ['n', 'u', 'l', 'l']
  | .boolean true => ['t', 'r', 'u', 'e']
  | .boolean false => ['f', 'a', 'l', 's', 'e']
  | .int value => intText value.toInt
  | .float bits => printFloat bits
  | .decimal raw scale => formatDecimalString raw scale
  | .bigint value => intText value
  | .string _ chars => encodeJsonString chars
  | .array items => '[' :: (written false (elements items) ++ [']'])
  | .object members => '{' :: (commaSeparated ((entries members).map memberText) ++ ['}'])
  | .named value => text value
  | .inlineVariant => []

/-- The elements of an array. -/
def elements : List Tree → List Element
  | [] => []
  | item :: items => ⟨item.isRaw, text item⟩ :: elements items

/-- The spellings of the keys and values of an object. -/
def entries : List (Key × Tree) → List (List Char × List Char)
  | [] => []
  | (key, value) :: members => (encodeJsonString key.chars, text value) :: entries members

end

mutual

/-- An inline variant is reached, or a member of an object is written past the serializer. -/
def traps : Tree → Bool
  | .array items => anyTraps items
  | .object members => anyMemberTraps members
  | .named value => traps value
  | .inlineVariant => true
  | _ => false

def anyTraps : List Tree → Bool
  | [] => false
  | item :: items => traps item || anyTraps items

def anyMemberTraps : List (Key × Tree) → Bool
  | [] => false
  | (_, value) :: members => (traps value || value.isRaw) || anyMemberTraps members

end

mutual

/-- In every array, elements with no separator between them spell a single number. -/
def Separable : Tree → Prop
  | .array items =>
    (∀ cluster ∈ clusters false [] (elements printFloat items), 2 ≤ cluster.length →
      Number (clusterText cluster)) ∧ AllSeparable items
  | .object members => AllMembersSeparable members
  | .named value => Separable value
  | _ => True

def AllSeparable : List Tree → Prop
  | [] => True
  | item :: items => Separable item ∧ AllSeparable items

def AllMembersSeparable : List (Key × Tree) → Prop
  | [] => True
  | (_, value) :: members => Separable value ∧ AllMembersSeparable members

end

mutual

/-- Every float is a number when it is printed. -/
def FloatsPrint : Tree → Prop
  | .float bits => Number (printFloat bits)
  | .array items => AllFloatsPrint items
  | .object members => AllMemberFloatsPrint members
  | .named value => FloatsPrint value
  | _ => True

def AllFloatsPrint : List Tree → Prop
  | [] => True
  | item :: items => FloatsPrint item ∧ AllFloatsPrint items

def AllMemberFloatsPrint : List (Key × Tree) → Prop
  | [] => True
  | (_, value) :: members => FloatsPrint value ∧ AllMemberFloatsPrint members

end

/-- Induction over a tree, with the hypothesis for every element and every member. -/
theorem induct {motive : Tree → Prop} (null : motive .null)
    (boolean : ∀ value, motive (.boolean value)) (int : ∀ value, motive (.int value))
    (float : ∀ bits, motive (.float bits)) (decimal : ∀ raw scale, motive (.decimal raw scale))
    (bigint : ∀ value, motive (.bigint value))
    (string : ∀ form chars, motive (.string form chars))
    (array : ∀ items, (∀ item ∈ items, motive item) → motive (.array items))
    (object : ∀ members, (∀ member ∈ members, motive member.2) → motive (.object members))
    (named : ∀ value, motive value → motive (.named value)) (inlineVariant : motive .inlineVariant)
    (other : motive .other) (tree : Tree) : motive tree := by
  refine @Tree.rec motive (fun items => ∀ item ∈ items, motive item)
    (fun members => ∀ member ∈ members, motive member.2) (fun member => motive member.2) null
    boolean int float decimal bigint string array object named inlineVariant other
    ?_ ?_ ?_ ?_ ?_ tree
  · exact fun item mem => absurd mem not_mem_nil
  · exact fun item items first later => forall_mem_cons.mpr ⟨first, later⟩
  · exact fun member mem => absurd mem not_mem_nil
  · exact fun member members first later => forall_mem_cons.mpr ⟨first, later⟩
  · exact fun key value first => first

theorem elements_eq (items : List Tree) :
    elements printFloat items = items.map fun item => ⟨item.isRaw, item.text printFloat⟩ := by
  induction items with
  | nil => rfl
  | cons item items ih =>
    rw [elements, ih, map_cons]

theorem entries_eq (members : List (Key × Tree)) :
    entries printFloat members = members.map fun member =>
      (encodeJsonString member.1.chars, member.2.text printFloat) := by
  induction members with
  | nil => rfl
  | cons member members ih =>
    rw [entries, ih, map_cons]

variable {items : List Tree}

theorem anyTraps_eq_false : anyTraps items = false ↔ ∀ item ∈ items, item.traps = false := by
  induction items with
  | nil => simp [anyTraps]
  | cons item items ih =>
    rw [anyTraps, or_eq_false_iff, ih, forall_mem_cons]

variable {members : List (Key × Tree)}

theorem anyMemberTraps_eq_false :
    anyMemberTraps members = false ↔
      ∀ member ∈ members, member.2.traps = false ∧ member.2.isRaw = false := by
  induction members with
  | nil => simp [anyMemberTraps]
  | cons member members ih =>
    rw [anyMemberTraps, or_eq_false_iff, ih, forall_mem_cons, or_eq_false_iff]

theorem allSeparable_iff :
    AllSeparable printFloat items ↔ ∀ item ∈ items, item.Separable printFloat := by
  induction items with
  | nil => simp [AllSeparable]
  | cons item items ih =>
    rw [AllSeparable, ih, forall_mem_cons]

theorem allMembersSeparable_iff :
    AllMembersSeparable printFloat members ↔ ∀ member ∈ members, member.2.Separable printFloat := by
  induction members with
  | nil => simp [AllMembersSeparable]
  | cons member members ih =>
    rw [AllMembersSeparable, ih, forall_mem_cons]

theorem allFloatsPrint_iff :
    AllFloatsPrint printFloat items ↔ ∀ item ∈ items, item.FloatsPrint printFloat := by
  induction items with
  | nil => simp [AllFloatsPrint]
  | cons item items ih =>
    rw [AllFloatsPrint, ih, forall_mem_cons]

theorem allMemberFloatsPrint_iff :
    AllMemberFloatsPrint printFloat members ↔
      ∀ member ∈ members, member.2.FloatsPrint printFloat := by
  induction members with
  | nil => simp [AllMemberFloatsPrint]
  | cons member members ih =>
    rw [AllMemberFloatsPrint, ih, forall_mem_cons]

variable {printFloat}

variable (tree : Tree)

theorem number_of_isRaw (raw : tree.isRaw = true) : Number (tree.text printFloat) := by
  induction tree using Tree.induct with
  | decimal value scale => exact number_formatDecimalString value scale
  | bigint value => exact number_intText value
  | named value ih => exact ih raw
  | _ => cases raw

/-- Where the serializer is not stopped, a text is closed and has no blanks at its ends. -/
theorem closed_and_solid (prints : tree.FloatsPrint printFloat)
    (ok : tree.traps = false) :
    Closed (tree.text printFloat) ∧ Solid (tree.text printFloat) := by
  induction tree using Tree.induct with
  | null | other => exact ⟨Spells.null.closed, Spells.null.solid⟩
  | boolean value =>
    cases value with
    | true => exact ⟨Spells.true_.closed, Spells.true_.solid⟩
    | false => exact ⟨Spells.false_.closed, Spells.false_.solid⟩
  | int value | bigint value => exact ⟨(number_intText _).closed, (number_intText _).solid⟩
  | float bits => exact ⟨Number.closed prints, Number.solid prints⟩
  | decimal raw scale =>
    exact ⟨(number_formatDecimalString _ _).closed, (number_formatDecimalString _ _).solid⟩
  | string form chars =>
    exact ⟨(stringText_encodeJsonString chars).closed, (stringText_encodeJsonString chars).solid⟩
  | array items ih =>
    refine ⟨closed_written fun element mem => ?_, solid_bracketed _ rfl rfl⟩
    rw [elements_eq] at mem
    rcases mem_map.mp mem with ⟨item, isItem, rfl⟩
    exact (ih item isItem
      (allFloatsPrint_iff printFloat |>.mp prints item isItem)
      (anyTraps_eq_false.mp ok item isItem)).1
  | object members ih =>
    refine ⟨closed_bracketed (.inr rfl) (.inr rfl) (inner_commaSeparated fun text mem => ?_),
      solid_bracketed _ rfl rfl⟩
    rw [entries_eq, map_map] at mem
    rcases mem_map.mp mem with ⟨member, isMember, rfl⟩
    have value := ih member isMember
      (allMemberFloatsPrint_iff printFloat |>.mp prints member isMember)
      (anyMemberTraps_eq_false.mp ok member isMember).1
    exact (stringText_encodeJsonString member.1.chars).closed.inner.append
      (value.1.inner.cons (.inr rfl))
  | named value ih => exact ih prints ok
  | inlineVariant => cases ok

/-- A tree of which every character is one of numbers holds no array and no object. -/
theorem separable_of_numeric (numeric : ∀ c ∈ tree.text printFloat, Numeric c) :
    tree.Separable printFloat := by
  induction tree using Tree.induct with
  | array items _ => exact absurd rfl (numeric '[' (mem_cons_self ..)).bare.2.1
  | object members _ => exact absurd rfl (numeric '{' (mem_cons_self ..)).bare.2.2.1
  | named value ih => exact ih numeric
  | _ => trivial

theorem isText_of_spells {text : List Char} {doc : Doc (List Char)} (spells : Spells text doc) :
    IsText text :=
  spells.solid.isText_iff.mpr ⟨doc, spells⟩

theorem isText_array_iff (prints : ∀ item ∈ items, item.FloatsPrint printFloat)
    (ok : ∀ item ∈ items, item.traps = false)
    (each : ∀ item ∈ items, IsText (item.text printFloat) ↔ item.Separable printFloat) :
    IsText ((Tree.array items).text printFloat) ↔ (Tree.array items).Separable printFloat := by
  rw [Separable, allSeparable_iff, text, elements_eq]
  cases empty : items with
  | nil =>
    refine iff_of_true (isText_of_spells (.emptyArray fun c mem => ?_))
      ⟨fun cluster mem several => ?_, fun item mem => absurd mem not_mem_nil⟩
    · exact absurd mem not_mem_nil
    · rw [mem_singleton.mp mem] at several
      exact absurd several (by decide)
  | cons first rest =>
    rw [← empty]
    have closed : ∀ element ∈ items.map fun item => Element.mk item.isRaw (item.text printFloat),
        Closed element.text := forall_mem_map.mpr fun item mem =>
      (closed_and_solid item (prints item mem) (ok item mem)).1
    have solid : ∀ element ∈ items.map fun item => Element.mk item.isRaw (item.text printFloat),
        Solid element.text := forall_mem_map.mpr fun item mem =>
      (closed_and_solid item (prints item mem) (ok item mem)).2
    have numbers : ∀ element ∈ items.map fun item =>
        Element.mk item.isRaw (item.text printFloat), element.raw = true → Number element.text :=
      forall_mem_map.mpr fun item mem raw => number_of_isRaw item raw
    have nonempty : items.map
        (fun item => Element.mk item.isRaw (item.text printFloat)) ≠ [] := by simp [empty]
    rw [isText_written_iff closed solid nonempty]
    constructor
    · intro clusterIsText
      refine ⟨fun cluster isCluster several => ?_, fun item mem => ?_⟩
      · exact (isText_clusterText_iff solid numbers isCluster several).mp
          (clusterIsText cluster isCluster)
      · rcases exists_cluster (mem_map_of_mem mem) with ⟨cluster, isCluster, inCluster⟩
        by_cases several : 2 ≤ cluster.length
        · -- The element is a part of a number.
          have isNumber := (isText_clusterText_iff solid numbers isCluster several).mp
            (clusterIsText cluster isCluster)
          refine separable_of_numeric item fun c inText => isNumber.numeric c ?_
          exact mem_flatMap.mpr ⟨_, inCluster, inText⟩
        · have positive := length_pos_of_mem inCluster
          have one : cluster.length = 1 := by omega
          rcases length_eq_one_iff.mp one with ⟨element, rfl⟩
          have isText := clusterIsText [element] isCluster
          rw [← mem_singleton.mp inCluster, clusterText, flatMap_singleton] at isText
          exact (each item mem).mp isText
    · rintro ⟨glued, separable⟩ cluster isCluster
      by_cases several : 2 ≤ cluster.length
      · exact (isText_clusterText_iff solid numbers isCluster several).mpr
          (glued cluster isCluster several)
      · have positive := length_pos_iff.mpr
          (ne_nil_of_mem_clusters_of_ne_nil nonempty cluster isCluster)
        have one : cluster.length = 1 := by omega
        rcases length_eq_one_iff.mp one with ⟨element, rfl⟩
        rcases mem_map.mp (mem_of_mem_clusters isCluster element
          (mem_singleton_self _)) with ⟨item, mem, rfl⟩
        rw [clusterText, flatMap_singleton]
        exact (each item mem).mpr (separable item mem)

theorem isText_object_iff (prints : ∀ member ∈ members, member.2.FloatsPrint printFloat)
    (ok : ∀ member ∈ members, member.2.traps = false) (each : ∀ member ∈ members,
      IsText (member.2.text printFloat) ↔ member.2.Separable printFloat) :
    IsText ((Tree.object members).text printFloat) ↔
      (Tree.object members).Separable printFloat := by
  rw [Separable, allMembersSeparable_iff, text, entries_eq]
  cases empty : members with
  | nil =>
    refine iff_of_true (isText_of_spells (.emptyObject fun c mem => ?_))
      fun member mem => absurd mem not_mem_nil
    exact absurd mem not_mem_nil
  | cons first rest =>
    rw [← empty]
    have splits := isText_iff_members (members.map fun member =>
        (encodeJsonString member.1.chars, member.2.text printFloat))
      (by simp [empty])
      (forall_mem_map.mpr fun member _ => ⟨_, stringText_encodeJsonString member.1.chars⟩)
      (forall_mem_map.mpr fun member mem =>
        (closed_and_solid member.2 (prints member mem) (ok member mem)).1)
    rw [forall_mem_map] at splits
    have values : (∀ member ∈ members, IsText (member.2.text printFloat)) ↔
        ∀ member ∈ members, member.2.Separable printFloat :=
      forall₂_congr each
    rw [(solid_bracketed _ rfl rfl).isText_iff, ← values, ← splits]
    constructor
    · rintro ⟨doc, spells⟩
      rcases spells.object_cases with ⟨blank, -⟩ | ⟨entries, isMembers, -⟩
      · -- The first key begins with a quote.
        have quote : '"' ∈ commaSeparated ((members.map fun member =>
            (encodeJsonString member.1.chars, member.2.text printFloat)).map memberText) := by
          rw [empty, map_cons, map_cons]
          cases (rest.map fun member =>
            (encodeJsonString member.1.chars, member.2.text printFloat)).map memberText with
          | nil => exact mem_cons_self ..
          | cons next texts => exact mem_cons_self ..
        exact absurd (blank _ quote) (by decide)
      · exact ⟨entries, isMembers⟩
    · rintro ⟨entries, isMembers⟩
      exact ⟨.object entries, .object isMembers⟩

/-- The text that is written for a tree is one of the grammar exactly if, in every array, the
elements without a separator between them spell a single number. -/
theorem isText_iff (prints : tree.FloatsPrint printFloat) (ok : tree.traps = false) :
    IsText (tree.text printFloat) ↔ tree.Separable printFloat := by
  induction tree using Tree.induct with
  | null | other => exact iff_of_true (isText_of_spells .null) trivial
  | boolean value =>
    cases value with
    | true => exact iff_of_true (isText_of_spells .true_) trivial
    | false => exact iff_of_true (isText_of_spells .false_) trivial
  | int value | bigint value =>
    exact iff_of_true (isText_of_spells (.number (number_intText _))) trivial
  | float bits => exact iff_of_true (isText_of_spells (.number prints)) trivial
  | decimal raw scale =>
    exact iff_of_true (isText_of_spells (.number (number_formatDecimalString _ _))) trivial
  | string form chars =>
    exact iff_of_true (isText_of_spells (.string (stringText_encodeJsonString chars))) trivial
  | array items ih =>
    rw [FloatsPrint, allFloatsPrint_iff] at prints
    rw [traps, anyTraps_eq_false] at ok
    exact isText_array_iff prints ok fun item mem =>
      ih item mem (prints item mem) (ok item mem)
  | object members ih =>
    rw [FloatsPrint, allMemberFloatsPrint_iff] at prints
    rw [traps, anyMemberTraps_eq_false] at ok
    exact isText_object_iff prints (fun member mem => (ok member mem).1) fun member mem =>
      ih member mem (prints member mem) (ok member mem).1
  | named value ih => exact ih prints ok
  | inlineVariant => cases ok

end Tree

end Gengo.Json
