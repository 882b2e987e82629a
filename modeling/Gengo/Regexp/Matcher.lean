import Mathlib.Data.List.Basic

/-!
# The parser of regular expressions

`parseAlts` cuts a pattern at the bars outside of parentheses, and `parseAlt` reads the nodes
of an alternative. Both count every parenthesis, also an escaped one or one in a class, so
some patterns that a reader would accept are rejected.
-/

namespace Gengo.Regexp

open List

/-- `MaxPatternLen` -/
def maxPatternLen : ℕ :=
  4096

/-- `Kind` -/
inductive Kind
  | literal
  | dot
  | caret
  | dollar
  | star
  | plus
  | maybe
  | charClass
  | charClassNeg
  | group
  deriving DecidableEq

/-- `Node`, a part of a pattern; `children` are the alternatives of a group. -/
inductive Node
  | mk (kind : Kind) (ch : UInt8) (classBits : BitVec 128) (childKind : Kind)
      (children : List (List Node))

/-- `Alt` -/
abbrev Alt : Type :=
  List Node

namespace Node

def kind : Node → Kind
  | mk kind _ _ _ _ => kind

def ch : Node → UInt8
  | mk _ ch _ _ _ => ch

def classBits : Node → BitVec 128
  | mk _ _ classBits _ _ => classBits

def childKind : Node → Kind
  | mk _ _ _ childKind _ => childKind

def children : Node → List Alt
  | mk _ _ _ _ children => children

/-- A node with the default values but for its kind. -/
def ofKind (kind : Kind) : Node :=
  mk kind 0 0 .literal []

def literal (ch : UInt8) : Node :=
  mk .literal ch 0 .literal []

def ofClass (negated : Bool) (classBits : BitVec 128) : Node :=
  mk (if negated then .charClassNeg else .charClass) 0 classBits .literal []

def ofGroup (children : List Alt) : Node :=
  mk .group 0 0 .literal children

/-- The node under a quantifier: its kind moves to `child_kind`. -/
def quantify (kind : Kind) : Node → Node
  | mk childKind ch classBits _ children => mk kind ch classBits childKind children

/-- `childNode` -/
def childNode : Node → Node
  | mk _ ch classBits childKind children => mk childKind ch classBits .literal children

end Node

/-- `ParseError`, without `OutOfMemory`. -/
inductive ParseError
  | patternTooLong
  | invalidPattern
  | unmatchedParen
  | unterminatedGroup
  | unterminatedClass
  | unexpectedPipe
  deriving DecidableEq

/-- What a byte begins, outside of a class. -/
inductive Lead
  | backslash
  | dot
  | caret
  | dollar
  | star
  | plus
  | maybe
  | openClass
  | openGroup
  | closeGroup
  | pipe
  | ordinary
  deriving DecidableEq

/-- The cases of the `switch` of `parseAlt`. -/
def lead (b : UInt8) : Lead :=
  if b = 92 then .backslash
  else if b = 46 then .dot
  else if b = 94 then .caret
  else if b = 36 then .dollar
  else if b = 42 then .star
  else if b = 43 then .plus
  else if b = 63 then .maybe
  else if b = 91 then .openClass
  else if b = 40 then .openGroup
  else if b = 41 then .closeGroup
  else if b = 124 then .pipe
  else .ordinary

/-- `bits | (1 << c)` -/
def setBit (bits : BitVec 128) (c : ℕ) : BitVec 128 :=
  bits ||| BitVec.twoPow 128 c

/-- The bits of some bytes, each below 128. -/
def bitsOf (bytes : List ℕ) : BitVec 128 :=
  bytes.foldl setBit 0

/-- `digitBits` -/
def digitBits : BitVec 128 :=
  bitsOf (List.range' 48 10)

/-- `wordBits` -/
def wordBits : BitVec 128 :=
  bitsOf (List.range' 97 26 ++ List.range' 65 26 ++ List.range' 48 10 ++ [95])

/-- `spaceBits` -/
def spaceBits : BitVec 128 :=
  bitsOf [32, 9, 10, 13, 12, 11]

/-- The shorthand of an escaped byte, negated or not. -/
def shorthand (b : UInt8) : Option (Bool × BitVec 128) :=
  if b = 100 then some (false, digitBits)
  else if b = 119 then some (false, wordBits)
  else if b = 115 then some (false, spaceBits)
  else if b = 68 then some (true, digitBits)
  else if b = 87 then some (true, wordBits)
  else if b = 83 then some (true, spaceBits)
  else none

/-- The node of an escaped byte. -/
def escapedNode (b : UInt8) : Node :=
  match shorthand b with
  | some (negated, classBits) => .ofClass negated classBits
  | none => .literal b

/-- `sh_bits`, the shorthands that are known in a class. -/
def classShorthand (b : UInt8) : Option (BitVec 128) :=
  if b = 100 then some digitBits
  else if b = 119 then some wordBits
  else if b = 115 then some spaceBits
  else none

/-- The bytes from one to another, as far as they are below 128. -/
def setRange (bits : BitVec 128) (low high : UInt8) : BitVec 128 :=
  (List.range' low.toNat (min (high.toNat + 1) 128 - low.toNat)).foldl setBit bits

/-- A single byte of a class, if it is below 128. -/
def setByte (bits : BitVec 128) (b : UInt8) : BitVec 128 :=
  if b < 128 then setBit bits b.toNat else bits

/-- The body of a class, up to its closing bracket: the bits and what follows. `first` is
whether no byte was read yet, `prev` the byte before, and `rangeStart` the start of a range
that is being read. -/
def parseClass (first : Bool) (prev : UInt8) (rangeStart : Option UInt8) (bits : BitVec 128) :
    List UInt8 → Except ParseError (BitVec 128 × List UInt8)
  | [] => .error .unterminatedClass
  | b :: rest =>
    if b = 93 then .ok (bits, rest)
    else if b = 92 then
      match rest with
      | [] => .error .invalidPattern
      | escaped :: rest =>
        match classShorthand escaped with
        | some classBits => parseClass false escaped rangeStart (bits ||| classBits) rest
        | none =>
          match rangeStart with
          | some low => parseClass false escaped none (setRange bits low escaped) rest
          | none => parseClass false escaped none (setByte bits escaped) rest
    else if b = 45 ∧ rest ≠ [] ∧ rest.head? ≠ some 93 then
      if first then parseClass false b rangeStart (setByte bits b) rest
      else parseClass false b (some prev) bits rest
    else
      match rangeStart with
      | some low =>
        if b < low then .error .invalidPattern
        else parseClass false b none (setRange bits low b) rest
      | none => parseClass false b none (setByte bits b) rest

/-- A class after its opening bracket. -/
def parseClassNode (bytes : List UInt8) : Except ParseError (Node × List UInt8) :=
  let negated := bytes.head? = some 94
  match parseClass true 0 none 0 (if negated then bytes.tail else bytes) with
  | .ok (bits, rest) => .ok (.ofClass negated bits, rest)
  | .error err => .error err

/-- How many parentheses are open after a byte. -/
def nest (depth : ℕ) (b : UInt8) : ℕ :=
  if b = 40 then depth + 1 else if b = 41 then depth - 1 else depth

/-- The content of a group after its opening parenthesis, and what follows the closing one;
`depth` parentheses are open inside. -/
def groupContent (depth : ℕ) : List UInt8 → Option (List UInt8 × List UInt8)
  | [] => none
  | b :: rest =>
    if b = 41 ∧ depth = 0 then some ([], rest)
    else (groupContent (nest depth b) rest).map fun found => (b :: found.1, found.2)

/-- What the scan of `parseAlts` finds: the first segment, the further ones, and whether the
scan fails after the last. -/
structure Segments where
  first : List UInt8
  others : List (List UInt8)
  err : Option ParseError

/-- The scan of `parseAlts` for bars outside of parentheses. -/
def scan (depth : ℕ) : List UInt8 → Segments
  | [] => ⟨[], [], if depth = 0 then none else some .unterminatedGroup⟩
  | b :: rest =>
    if b = 41 ∧ depth = 0 then ⟨[], [], some .unmatchedParen⟩
    else if b = 124 ∧ depth = 0 then
      let found := scan 0 rest
      ⟨[], found.first :: found.others, found.err⟩
    else
      let found := scan (nest depth b) rest
      ⟨b :: found.first, found.others, found.err⟩

/-- The bytes of a first segment and further ones, each with its bar. -/
def segmentsLength (first : List UInt8) : List (List UInt8) → ℕ
  | [] => first.length
  | next :: others => first.length + 1 + segmentsLength next others

theorem segmentsLength_cons (b : UInt8) (first : List UInt8) (others : List (List UInt8)) :
    segmentsLength (b :: first) others = segmentsLength first others + 1 := by
  cases others with
  | nil => rfl
  | cons next others =>
    simp only [segmentsLength, length_cons]
    omega

theorem length_le_segmentsLength (first : List UInt8) (others : List (List UInt8)) :
    first.length ≤ segmentsLength first others := by
  cases others with
  | nil => exact Nat.le_refl _
  | cons next others =>
    simp only [segmentsLength]
    omega

variable {bytes rest : List UInt8}

theorem groupContent_text {depth : ℕ} {content : List UInt8}
    (found : groupContent depth bytes = some (content, rest)) : bytes = content ++ 41 :: rest := by
  induction bytes generalizing depth content rest with
  | nil => simp [groupContent] at found
  | cons b bytes ih =>
    rw [groupContent] at found
    split_ifs at found with closes
    · rcases found with ⟨rfl, rfl⟩
      rw [closes.1, nil_append]
    · rcases Option.map_eq_some_iff.mp found with ⟨⟨inner, after⟩, further, equal⟩
      cases equal
      rw [ih further, cons_append]

theorem groupContent_length {depth : ℕ} {content : List UInt8}
    (found : groupContent depth bytes = some (content, rest)) :
    content.length + rest.length + 1 = bytes.length := by
  rw [groupContent_text found, length_append]
  rfl

theorem scan_length (depth : ℕ) (bytes : List UInt8) :
    segmentsLength (scan depth bytes).first (scan depth bytes).others ≤ bytes.length := by
  induction bytes generalizing depth with
  | nil => simp [scan, segmentsLength]
  | cons b bytes ih =>
    rw [scan]
    split_ifs with closes bar
    · simp [segmentsLength]
    · have further := ih 0
      simp only [segmentsLength, length_nil, length_cons]
      omega
    · have further := ih (nest depth b)
      change segmentsLength (b :: (scan (nest depth b) bytes).first) _ ≤ _
      rw [segmentsLength_cons, length_cons]
      exact Nat.succ_le_succ further

theorem parseClass_length {first : Bool} {prev : UInt8} {rangeStart : Option UInt8}
    {bits found : BitVec 128}
    (parsed : parseClass first prev rangeStart bits bytes = .ok (found, rest)) :
    rest.length < bytes.length := by
  fun_induction parseClass first prev rangeStart bits bytes
  case case2 => cases parsed; simp
  case case1 | case3 | case9 => cases parsed
  all_goals
    rename_i ih
    have shorter := ih parsed
    simp only [length_cons]
    omega

theorem parseClassNode_length {node : Node} (parsed : parseClassNode bytes = .ok (node, rest)) :
    rest.length < bytes.length := by
  rw [parseClassNode] at parsed
  split at parsed
  · rename_i bits after found
    have shorter := parseClass_length found
    cases parsed
    split_ifs at shorter
    · exact Nat.lt_of_lt_of_le shorter (by simp)
    · exact shorter
  · cases parsed

mutual

/-- `parseAlts` -/
def parseAlts (bytes : List UInt8) : Except ParseError (List Alt) :=
  parseSegments (scan 0 bytes).first (scan 0 bytes).others (scan 0 bytes).err
termination_by (bytes.length, 2)
decreasing_by
  rcases Nat.eq_or_lt_of_le (scan_length 0 bytes) with same | shorter
  · rw [same]
    exact Prod.Lex.right _ (by omega)
  · exact Prod.Lex.left _ _ shorter

/-- The alternatives of the segments in turn; the last is read unless the scan has failed. -/
def parseSegments (first : List UInt8) (others : List (List UInt8)) (err : Option ParseError) :
    Except ParseError (List Alt) :=
  match others with
  | [] =>
    match err with
    | some err => .error err
    | none =>
      match parseAlt [] first with
      | .ok nodes => .ok [nodes]
      | .error err => .error err
  | next :: others =>
    match parseAlt [] first with
    | .ok nodes =>
      match parseSegments next others err with
      | .ok alts => .ok (nodes :: alts)
      | .error err => .error err
    | .error err => .error err
termination_by (segmentsLength first others, 1)
decreasing_by
  · exact Prod.Lex.right _ (by omega)
  · exact Prod.Lex.right' _ (length_le_segmentsLength first _) (by omega)
  · apply Prod.Lex.left
    simp only [segmentsLength]
    omega

/-- The loop of `parseAlt`, with the nodes that it has read, the last one first. -/
def parseAlt (nodes : List Node) (bytes : List UInt8) : Except ParseError Alt :=
  match bytes with
  | [] => .ok nodes.reverse
  | b :: rest =>
    match lead b with
    | .backslash =>
      match rest with
      | [] => .error .invalidPattern
      | escaped :: rest => parseAlt (escapedNode escaped :: nodes) rest
    | .dot => parseAlt (.ofKind .dot :: nodes) rest
    | .caret => parseAlt (.ofKind .caret :: nodes) rest
    | .dollar => parseAlt (.ofKind .dollar :: nodes) rest
    | .star =>
      match nodes with
      | [] => .error .invalidPattern
      | prev :: nodes => parseAlt (prev.quantify .star :: nodes) rest
    | .plus =>
      match nodes with
      | [] => .error .invalidPattern
      | prev :: nodes => parseAlt (prev.quantify .plus :: nodes) rest
    | .maybe =>
      match nodes with
      | [] => .error .invalidPattern
      | prev :: nodes => parseAlt (prev.quantify .maybe :: nodes) rest
    | .openClass =>
      match _found : parseClassNode rest with
      | .ok (node, rest') => parseAlt (node :: nodes) rest'
      | .error err => .error err
    | .openGroup =>
      match _found : groupContent 0 rest with
      | some (content, rest') =>
        match parseAlts content with
        | .ok children => parseAlt (.ofGroup children :: nodes) rest'
        | .error err => .error err
      | none => .error .unterminatedGroup
    | .closeGroup => .error .unmatchedParen
    | .pipe => .error .unexpectedPipe
    | .ordinary => parseAlt (.literal b :: nodes) rest
termination_by (bytes.length, 0)
decreasing_by
  all_goals apply Prod.Lex.left
  all_goals try simp only [List.length_cons]
  all_goals try omega
  · have shorter := parseClassNode_length _found
    omega
  · have length_eq := groupContent_length _found
    omega
  · have length_eq := groupContent_length _found
    omega

end

/-- `parsePattern`, without the cache of parsed patterns. -/
def parsePattern (pattern : List UInt8) : Except ParseError (List Alt) :=
  if maxPatternLen < pattern.length then .error .patternTooLong else parseAlts pattern

/-!
# The matcher of regular expressions

`matchAlt` follows the nodes of an alternative through a text. Under a quantifier and in a
group it calls itself for the child, takes the end that the call returns, and calls itself
for the rest of the alternative.
-/

/-- `MaxMatchDepth` -/
def maxMatchDepth : ℕ :=
  200

/-- The rounds of a `*`: one less than there are ends. -/
def maxStarRounds : ℕ :=
  511

/-- The rounds of a `+`. -/
def maxPlusRounds : ℕ :=
  512

/-- The ends of round after round of a committed repetition. -/
def rounds (child : ℕ → Option ℕ) : ℕ → ℕ → List ℕ
  | 0, _ => []
  | fuel + 1, p =>
    match child p with
    | some e => if e = p then [] else e :: rounds child fuel e
    | none => []

/-- `classMatch` -/
def classMatch (ch : UInt8) (node : Node) : Bool :=
  if 128 ≤ ch then node.kind ≠ .charClass
  else
    let present := node.classBits.getLsbD ch.toNat
    if node.kind = .charClassNeg then !present else present

/-- `matchOne` -/
def matchOne (ch : UInt8) (node : Node) : Bool :=
  match node.kind with
  | .literal => node.ch = ch
  | .dot => true
  | .charClass | .charClassNeg => classMatch ch node
  | .star | .plus | .maybe =>
    match node.childKind with
    | .dot => true
    | .charClass | .charClassNeg => classMatch ch node
    | _ => node.ch = ch
  | .caret | .dollar | .group => false

/-- The loop of `matchAlt`; `next` is the recursive call. -/
def walk (next : Alt → ℕ → Option ℕ) (s : List UInt8) : Alt → ℕ → Option ℕ
  | [], p => some p
  | node :: rest, p =>
    match node.kind with
    | .caret => if p ≠ 0 then none else walk next s rest p
    | .dollar => if p ≠ s.length then none else walk next s rest p
    | .literal | .dot | .charClass | .charClassNeg =>
      match s[p]? with
      | some ch => if matchOne ch node then walk next s rest (p + 1) else none
      | none => none
    | .star =>
      (p :: rounds (next [node.childNode]) maxStarRounds p).reverse.findSome? (next rest)
    | .plus =>
      (rounds (next [node.childNode]) maxPlusRounds p).reverse.findSome? (next rest)
    | .maybe =>
      match next [node.childNode] p with
      | some e =>
        match next rest e with
        | some result => some result
        | none => next rest p
      | none => next rest p
    | .group => node.children.findSome? fun child => (next child p).bind (next rest)

/-- `matchAlt`, with so many levels left of `MaxMatchDepth`. -/
def matchAlt (s : List UInt8) : ℕ → Alt → ℕ → Option ℕ
  | 0, _, _ => none
  | levels + 1, alt, p => walk (matchAlt s levels) s alt p

/-- `matchAny`, at depth 0. -/
def matchAny (alts : List Alt) (s : List UInt8) (p : ℕ) : Option ℕ :=
  alts.findSome? fun alt => matchAlt s maxMatchDepth alt p

/-- The first alternative begins with `^`. -/
def leadingCaret (alts : List Alt) : Bool :=
  match alts with
  | (node :: _) :: _ => node.kind = .caret
  | _ => false

/-- `findMatch` -/
def findMatch (alts : List Alt) (s : List UInt8) : Option (ℕ × ℕ) :=
  if leadingCaret alts then (matchAny alts s 0).map fun e => (0, e)
  else (List.range (s.length + 1)).findSome? fun i => (matchAny alts s i).map fun e => (i, e)

end Gengo.Regexp
