import Gengo.Lexing.Scanning

/-!
# Where tokens are

Every call of `next` goes over whitespace and comments and then over a token, until the end of the
source. The counters of lines are those of the source as long as no token has a newline in it.
-/

namespace Gengo.Lexing

open List Nat
open Bytecode (Bytes)

/-- How many lines end in the bytes. -/
def breaks (bytes : Bytes) : ℕ :=
  bytes.count newline

/-- The position behind the last newline. -/
def lastBreak : Bytes → Option ℕ
  | [] => none
  | c :: rest => ((lastBreak rest).map (1 + ·)).or (if c = newline then some 1 else none)

theorem breaks_append (first second : Bytes) :
    breaks (first ++ second) = breaks first + breaks second :=
  count_append

theorem lastBreak_append (first second : Bytes) :
    lastBreak (first ++ second) =
      ((lastBreak second).map (first.length + ·)).or (lastBreak first) := by
  induction first with
  | nil => simp [lastBreak]
  | cons c first ih =>
    rw [cons_append, lastBreak, ih, lastBreak]
    cases lastBreak second with
    | none => rfl
    | some position =>
      simp [add_comm 1, Nat.add_right_comm]

theorem breaks_eq_zero_iff {bytes : Bytes} : breaks bytes = 0 ↔ newline ∉ bytes :=
  count_eq_zero

theorem lastBreak_eq_none {bytes : Bytes} (single : newline ∉ bytes) : lastBreak bytes = none := by
  induction bytes with
  | nil => rfl
  | cons c bytes ih =>
    rw [mem_cons, not_or] at single
    rw [lastBreak, ih single.2, if_neg (Ne.symm single.1)]
    rfl

theorem lineStartFor_eq (src : Bytes) (idx : ℕ) :
    lineStartFor src idx = (lastBreak (src.take idx)).getD 0 := by
  induction idx with
  | zero => rfl
  | succ idx ih =>
    rw [lineStartFor, take_add_one, lastBreak_append]
    cases found : src[idx]? with
    | none => simpa [lastBreak] using ih
    | some c =>
      have inside : idx < src.length := (List.getElem?_eq_some_iff.mp found).1
      by_cases isBreak : c = newline
      · simp [lastBreak, isBreak, min_eq_left (le_of_lt inside)]
      · simp [lastBreak, isBreak, ih]

namespace Moved

/-- Every newline is counted. -/
structure Counts (moved : Moved) (rest : Bytes) : Prop where
  inside : moved.len ≤ rest.length
  lines : moved.lines = breaks (rest.take moved.len)
  lineStart : moved.lineStart = lastBreak (rest.take moved.len)

/-- No newline is counted. -/
structure Silent (moved : Moved) : Prop where
  lines : moved.lines = 0
  lineStart : moved.lineStart = none

variable {first second : Moved} {rest : Bytes} {len : ℕ}

theorem Counts.followedBy (counts : first.Counts rest)
    (later : second.Counts (rest.drop first.len)) :
    (first.followedBy second).Counts rest := by
  have both : rest.take (first.len + second.len) =
      rest.take first.len ++ (rest.drop first.len).take second.len :=
    take_add
  have length : (rest.take first.len).length = first.len := by
    rw [length_take]
    exact min_eq_left counts.inside
  constructor
  · have inside := later.inside
    rw [length_drop] at inside
    have begins := counts.inside
    change first.len + second.len ≤ rest.length
    omega
  · change first.lines + second.lines = breaks (rest.take (first.len + second.len))
    rw [both, breaks_append, counts.lines, later.lines]
  · change (second.lineStart.map (first.len + ·)).or first.lineStart =
      lastBreak (rest.take (first.len + second.len))
    rw [both, lastBreak_append, counts.lineStart, later.lineStart, length]

theorem counts_bytes (inside : len ≤ rest.length) (single : newline ∉ rest.take len) :
    (Moved.bytes len).Counts rest :=
  ⟨inside, (breaks_eq_zero_iff.mpr single).symm, (lastBreak_eq_none single).symm⟩

theorem counts_nothing (rest : Bytes) : (Moved.bytes 0).Counts rest :=
  counts_bytes (zero_le _) (by rw [take_zero]; exact not_mem_nil)

theorem counts_line (rest : Bytes) : Moved.line.Counts (newline :: rest) := by
  refine ⟨succ_le_succ (zero_le _), ?_, ?_⟩
  · simp [Moved.line, breaks]
  · simp [Moved.line, lastBreak]

theorem counts_byte {c : UInt8} (ordinary : c ≠ newline) (rest : Bytes) :
    (Moved.bytes 1).Counts (c :: rest) := by
  apply counts_bytes (succ_le_succ (zero_le _))
  simpa using Ne.symm ordinary

theorem silent_bytes (len : ℕ) : (Moved.bytes len).Silent :=
  ⟨rfl, rfl⟩

theorem Silent.followedBy (silent : first.Silent) (later : second.Silent) :
    (first.followedBy second).Silent := by
  constructor
  · change first.lines + second.lines = 0
    rw [silent.lines, later.lines]
  · change (second.lineStart.map _).or first.lineStart = none
    rw [silent.lineStart, later.lineStart]
    rfl

end Moved

def closing : Bytes :=
  [ascii '*', ascii '/']

/-- Nothing but whitespace and comments. A comment that is not closed goes up to the end. -/
inductive Blank : Bytes → Prop
  | nil : Blank []
  | space {c : UInt8} {rest : Bytes}
      (isSpace : c = ascii ' ' ∨ c = ascii '\r' ∨ c = ascii '\t' ∨ c = newline)
      (blank : Blank rest) : Blank (c :: rest)
  | lineComment {text rest : Bytes} (single : newline ∉ text)
      (ends : rest = [] ∨ rest.head? = some newline) (blank : Blank rest) :
      Blank (ascii '/' :: ascii '/' :: text ++ rest)
  | blockComment {text rest : Bytes} (first : ¬closing <:+: text ++ [ascii '*'])
      (blank : Blank rest) : Blank (ascii '/' :: ascii '*' :: text ++ closing ++ rest)
  | openComment {text : Bytes} (unclosed : ¬closing <:+: text) :
      Blank (ascii '/' :: ascii '*' :: text)

section

variable (rest : Bytes)
include rest

theorem lineLength_le : lineLength rest ≤ rest.length :=
  ( takeWhile_prefix _).length_le

theorem take_lineLength : rest.take (lineLength rest) = rest.takeWhile (· != newline) :=
  (prefix_iff_eq_take.mp ( takeWhile_prefix _)).symm

theorem single_takeWhile : newline ∉ rest.takeWhile (· != newline) := by
  intro isBreak
  have kept := mem_takeWhile_imp isBreak
  simp at kept

theorem counts_lineLength : (Moved.bytes (lineLength rest)).Counts rest := by
  apply Moved.counts_bytes (lineLength_le rest)
  rw [take_lineLength]
  exact single_takeWhile rest

theorem drop_lineLength :
    rest.drop (lineLength rest) = [] ∨ (rest.drop (lineLength rest)).head? = some newline := by
  have dropped : rest.drop (lineLength rest) = rest.dropWhile (· != newline) := by
    have whole : rest.takeWhile (· != newline) ++ rest.dropWhile (· != newline) = rest :=
      takeWhile_append_dropWhile
    have dropped := congrArg (List.drop (lineLength rest)) whole
    rw [lineLength, drop_left] at dropped
    exact dropped.symm
  rw [dropped]
  cases last : rest.dropWhile (· != newline) with
  | nil => exact .inl rfl
  | cons c behind =>
    have stopped := List.head?_dropWhile_not (· != newline) rest
    rw [last] at stopped
    right
    simpa using stopped

theorem counts_skipBlock : (skipBlock rest).Counts rest := by
  induction rest with
  | nil => exact Moved.counts_nothing []
  | cons c rest ih =>
    rw [skipBlock]
    split
    · rename_i closes
      rcases closes with ⟨rfl, next⟩
      rcases head?_eq_some_iff.mp next with ⟨rest, rfl⟩
      apply Moved.counts_bytes
      · exact succ_le_succ (succ_le_succ (zero_le _))
      · change newline ∉ [ascii '*', ascii '/']
        decide
    · split
      · rename_i isBreak
        rw [isBreak]
        exact (Moved.counts_line rest).followedBy ih
      · rename_i ordinary
        exact (Moved.counts_byte ordinary rest).followedBy ih

/-- A block comment goes up to the first place where it is closed, or up to the end. -/
theorem skipBlock_cases :
    (∃ text back, rest = text ++ closing ++ back ∧ (skipBlock rest).len = text.length + 2 ∧
      ¬closing <:+: text ++ [ascii '*']) ∨
    (skipBlock rest).len = rest.length ∧ ¬closing <:+: rest := by
  induction rest with
  | nil =>
    right
    refine ⟨rfl, fun isInfix => ?_⟩
    have length := isInfix.length_le
    exact absurd length (by decide)
  | cons c rest ih =>
    rw [skipBlock]
    split
    · rename_i closes
      rcases closes with ⟨rfl, next⟩
      rcases head?_eq_some_iff.mp next with ⟨rest, rfl⟩
      left
      refine ⟨[], rest, rfl, rfl, fun isInfix => ?_⟩
      have length := isInfix.length_le
      exact absurd length (by decide)
    · rename_i goesOn
      have len : ((if c = newline then Moved.line else Moved.bytes 1).followedBy
          (skipBlock rest)).len = 1 + (skipBlock rest).len := by
        split
        · rfl
        · rfl
      rw [len]
      rcases ih with ⟨text, back, rfl, closed, isFirst⟩ | ⟨all, unclosed⟩
      · left
        refine ⟨c :: text, back, rfl, ?_, ?_⟩
        · rw [closed, length_cons]
          omega
        · rw [cons_append, infix_cons_iff, not_or]
          refine ⟨?_, isFirst⟩
          rintro ⟨after, same⟩
          have heads := List.cons.inj same
          cases text with
          | nil => exact absurd (List.cons.inj heads.2).1 (by decide)
          | cons second text =>
            exact goesOn ⟨heads.1.symm, congrArg some (List.cons.inj heads.2).1.symm⟩
      · right
        refine ⟨?_, ?_⟩
        · rw [all, length_cons]
          omega
        · rw [infix_cons_iff, not_or]
          refine ⟨?_, unclosed⟩
          rintro ⟨after, same⟩
          have heads := List.cons.inj same
          exact goesOn ⟨heads.1.symm, by rw [← heads.2]; rfl⟩

end

variable (rounds : ℕ)

theorem counts_skipBlanks (rest : Bytes) : (skipBlanks rounds rest).Counts rest := by
  fun_induction skipBlanks rounds rest with
  | case1 rest => exact Moved.counts_nothing rest
  | case2 rounds => exact Moved.counts_nothing []
  | case3 rounds c rest isSpace ih =>
    refine (Moved.counts_byte ?_ rest).followedBy ih
    rintro rfl
    revert isSpace
    decide
  | case4 rounds rest notSpace ih =>
    exact (Moved.counts_line rest).followedBy ih
  | case5 rounds c rest notSpace ordinary isComment comment ih =>
    exact (counts_lineLength (c :: rest)).followedBy ih
  | case6 rounds c rest notSpace ordinary notLine isComment comment ih =>
    refine Moved.Counts.followedBy ?_ ih
    rcases isComment with ⟨rfl, next⟩
    rcases head?_eq_some_iff.mp next with ⟨rest, rfl⟩
    refine (Moved.counts_bytes ?_ ?_).followedBy (counts_skipBlock rest)
    · exact succ_le_succ (succ_le_succ (zero_le _))
    · change newline ∉ [ascii '/', ascii '*']
      decide
  | case7 rounds c rest notSpace ordinary notLine notBlock => exact Moved.counts_nothing _

theorem take_followedBy {first second : Moved} {rest : Bytes} :
    rest.take (first.followedBy second).len =
      rest.take first.len ++ (rest.drop first.len).take second.len :=
  take_add

/-- What is gone over between two tokens is whitespace and comments. -/
theorem blank_skipBlanks (rest : Bytes) : Blank (rest.take (skipBlanks rounds rest).len) := by
  fun_induction skipBlanks rounds rest with
  | case1 rest => exact .nil
  | case2 rounds => exact .nil
  | case3 rounds c rest isSpace ih =>
    rw [take_followedBy]
    refine .space ?_ ih
    rcases isSpace with isSpace | isSpace | isSpace
    · exact .inl isSpace
    · exact .inr (.inl isSpace)
    · exact .inr (.inr (.inl isSpace))
  | case4 rounds rest notSpace ih =>
    rw [take_followedBy]
    exact .space (.inr (.inr (.inr rfl))) ih
  | case5 rounds c rest notSpace ordinary isComment comment ih =>
    rw [take_followedBy]
    rcases isComment with ⟨rfl, next⟩
    rcases head?_eq_some_iff.mp next with ⟨rest, rfl⟩
    have slash : (ascii '/' != newline) = true := by
      decide
    have text : (ascii '/' :: ascii '/' :: rest).take (Moved.bytes comment).len =
        ascii '/' :: ascii '/' :: rest.takeWhile (· != newline) := by
      refine (take_lineLength _).trans ?_
      rw [takeWhile_cons, if_pos slash, takeWhile_cons, if_pos slash]
    rw [text]
    refine .lineComment (single_takeWhile rest) ?_ ih
    rcases drop_lineLength (ascii '/' :: ascii '/' :: rest) with atEnd | atBreak
    · left
      exact (congrArg _ atEnd).trans take_nil
    · rw [List.head?_take]
      split
      · rename_i nothing
        left
        rw [nothing, take_zero]
      · right
        exact atBreak
  | case6 rounds c rest notSpace ordinary notLine isComment comment ih =>
    rw [take_followedBy]
    rcases isComment with ⟨rfl, next⟩
    rcases head?_eq_some_iff.mp next with ⟨rest, rfl⟩
    have text : (ascii '/' :: ascii '*' :: rest).take comment.len =
        ascii '/' :: ascii '*' :: rest.take (skipBlock rest).len :=
      take_followedBy
    rw [text]
    rcases skipBlock_cases rest with ⟨text, back, same, closed, isFirst⟩ | ⟨all, unclosed⟩
    · have taken : rest.take (skipBlock rest).len = text ++ closing := by
        have length : (text ++ closing).length = text.length + 2 := length_append
        rw [same] at closed
        rw [same, closed, ← length, take_left]
      rw [taken]
      exact .blockComment isFirst ih
    · have ended : (ascii '/' :: ascii '*' :: rest).drop comment.len = [] := by
        apply drop_of_length_le
        change rest.length + 2 ≤ 2 + (skipBlock rest).len
        omega
      rw [ended, take_nil, append_nil, all, take_length]
      exact .openComment unclosed
  | case7 rounds c rest notSpace ordinary notLine notBlock => exact .nil

/-- Whitespace and comments, with a line for the system before it at the beginning of a source. -/
def Skippable (pos : ℕ) (bytes : Bytes) : Prop :=
  Blank bytes ∨
    pos = 0 ∧ ∃ text rest, bytes = ascii '#' :: ascii '!' :: text ++ rest ∧ newline ∉ text ∧
      Blank rest

theorem counts_skipWS (pos : ℕ) (rest : Bytes) : (skipWS pos rest).Counts rest := by
  unfold skipWS
  split
  · exact (counts_lineLength rest).followedBy (counts_skipBlanks _ _)
  · exact (Moved.counts_nothing rest).followedBy (counts_skipBlanks _ _)

theorem skippable_skipWS (pos : ℕ) (rest : Bytes) :
    Skippable pos (rest.take (skipWS pos rest).len) := by
  unfold skipWS
  split
  · rename_i isShebang
    rcases isShebang with ⟨atFront, marks⟩
    rw [take_followedBy]
    right
    refine ⟨atFront, ((rest.drop 2).takeWhile (· != newline)), _, ?_, single_takeWhile _,
      blank_skipBlanks rest.length (rest.drop (lineLength rest))⟩
    congr 1
    have split : rest = ascii '#' :: ascii '!' :: rest.drop 2 := by
      rw [← take_append_drop 2 rest, marks]
      rfl
    have hash : (ascii '#' != newline) = true := by
      decide
    have bang : (ascii '!' != newline) = true := by
      decide
    refine (take_lineLength rest).trans ?_
    rw [split, takeWhile_cons, if_pos hash, takeWhile_cons, if_pos bang]
    rfl
  · rw [take_followedBy]
    left
    exact blank_skipBlanks _ _

variable (rest : Bytes)

theorem peekCodepointLen_le : peekCodepointLen rest ≤ rest.length := by
  unfold peekCodepointLen
  split
  · exact zero_le _
  · split
    · exact zero_le _
    · split
      · exact zero_le _
      · rename_i fits
        exact Nat.le_of_not_lt fits

theorem identRest_le (unicode : Unicode) (rounds : ℕ) (rest : Bytes) :
    identRest unicode rounds rest ≤ rest.length := by
  fun_induction identRest unicode rounds rest with
  | case1 _ | case2 _ | case5 _ _ _ _ _ _ _ | case6 _ _ _ _ _ => exact zero_le _
  | case3 rounds c rest isWord ih =>
    rw [length_cons]
    omega
  | case4 rounds c rest notWord wide len isWord ih =>
    have bound : len ≤ (c :: rest).length := peekCodepointLen_le (c :: rest)
    rw [length_drop] at ih
    omega

variable {index : ℕ}

theorem peekAt_of_le {rest : Bytes} (outside : rest.length ≤ index) : peekAt rest index = 0 := by
  rw [peekAt, List.getElem?_eq_none outside]
  rfl

theorem lt_of_peekAt {rest : Bytes} (inside : peekAt rest index ≠ 0) : index < rest.length := by
  by_contra outside
  exact inside (peekAt_of_le (Nat.le_of_not_lt outside))

theorem lt_of_isDigit {rest : Bytes} (digit : isDigit (peekAt rest index) = true) :
    index < rest.length := by
  apply lt_of_peekAt
  intro zero
  rw [zero] at digit
  exact absurd digit (by decide)

theorem digitsLength_le (isDigit : UInt8 → Bool) (rest : Bytes) :
    digitsLength isDigit rest ≤ rest.length :=
  ( takeWhile_prefix _).length_le

theorem fractionLength_le : fractionLength rest ≤ rest.length := by
  have whole := digitsLength_le isDigit rest
  unfold fractionLength
  dsimp only
  split
  · rename_i hasFraction
    have inside := lt_of_isDigit hasFraction.2
    have behind := digitsLength_le isDigit (rest.drop (digitsLength isDigit rest + 1))
    rw [length_drop] at behind
    omega
  · exact whole

theorem exponentLength_le {rest : Bytes} {length : ℕ} (inside : length ≤ rest.length) :
    exponentLength rest length ≤ rest.length := by
  unfold exponentLength
  dsimp only
  generalize length + signLength (peekAt rest (length + 1)) = digitPos
  split
  · split
    · rename_i hasExponent
      have begun := lt_of_isDigit hasExponent
      have behind : ((rest.drop digitPos).takeWhile isDigit).length ≤ (rest.drop digitPos).length :=
        ( takeWhile_prefix _).length_le
      rw [length_drop] at behind
      omega
    · exact inside
  · exact inside

theorem numLit_le : numLit rest ≤ rest.length := by
  have marked : ∀ {marker : UInt8} {isDigit : UInt8 → Bool}, peekAt rest 0 = marker → marker ≠ 0 →
      1 + digitsLength isDigit (rest.drop 1) ≤ rest.length := by
    intro marker isDigit isMarker nonzero
    have inside := lt_of_peekAt (isMarker ▸ nonzero)
    have behind := digitsLength_le isDigit (rest.drop 1)
    rw [length_drop] at behind
    omega
  unfold numLit
  dsimp only
  split
  · rename_i isHex
    rcases isHex with isHex | isHex
    · exact marked isHex (by decide)
    · exact marked isHex (by decide)
  · split
    · rename_i isBinary
      rcases isBinary with isBinary | isBinary
      · exact marked isBinary (by decide)
      · exact marked isBinary (by decide)
    · split
      · rename_i isOctal
        rcases isOctal with isOctal | isOctal
        · exact marked isOctal (by decide)
        · exact marked isOctal (by decide)
      · exact exponentLength_le (fractionLength_le rest)

theorem readHexN_le (digits : ℕ) (rest : Bytes) (val : ℕ) :
    (readHexN digits rest val).2 ≤ rest.length := by
  fun_induction readHexN digits rest val with
  | case1 _ _ | case2 _ _ => exact zero_le _
  | case3 digits c rest val noDigit => exact succ_le_succ (zero_le _)
  | case4 digits c rest val d isDigit result read found ih =>
    rw [found] at ih
    exact succ_le_succ ih

theorem unicodeEscape_len_le (digits : ℕ) (rest pool : Bytes) :
    (unicodeEscape digits rest pool).len ≤ rest.length + 1 := by
  have read := readHexN_le digits rest 0
  unfold unicodeEscape
  split
  · rename_i found
    rw [found] at read
    dsimp only at read ⊢
    omega
  · rename_i found
    rw [found] at read
    dsimp only at read ⊢
    omega

variable (rest pool : Bytes)

theorem byteEscape_len_le : (byteEscape rest pool).len ≤ rest.length + 1 := by
  unfold byteEscape
  split
  · exact le_refl _
  · exact le_refl _
  · simp only [length_cons]
    split
    · split
      · dsimp only
        omega
      · dsimp only
        omega
    · dsimp only
      omega

theorem escape_len_le : (escape rest pool).len ≤ rest.length := by
  unfold escape
  split
  · exact zero_le _
  · rename_i esc rest
    split
    · exact byteEscape_len_le rest pool
    · split
      · exact unicodeEscape_len_le 4 rest pool
      · split
        · exact unicodeEscape_len_le 8 rest pool
        · split
          · exact succ_le_succ (zero_le _)
          · exact succ_le_succ (zero_le _)

/-- A scan stays inside of what is left. -/
def Scanned.Inside (scanned : Scanned) (rest : Bytes) : Prop :=
  scanned.moved.len ≤ rest.length

theorem Scanned.Inside.behind {scanned : Scanned} {rest : Bytes} {moved : Moved}
    (inside : scanned.Inside (rest.drop moved.len)) (begun : moved.len ≤ rest.length) :
    (scanned.behind moved).Inside rest := by
  unfold Scanned.Inside at inside ⊢
  rw [length_drop] at inside
  change moved.len + scanned.moved.len ≤ rest.length
  omega

theorem strLit_inside (quote : UInt8) (rounds : ℕ) (rest pool : Bytes) :
    (strLit quote rounds rest pool).Inside rest := by
  fun_induction strLit quote rounds rest pool with
  | case1 _ _ | case2 _ _ | case4 _ _ _ _ => exact zero_le _
  | case3 rounds rest pool => exact succ_le_succ (zero_le _)
  | case5 rounds c rest pool notQuote ordinary isEscape found err failed =>
    have inside : found.len ≤ rest.length := escape_len_le rest pool
    change 1 + found.len ≤ rest.length + 1
    omega
  | case6 rounds c rest pool notQuote ordinary isEscape found fine ih =>
    have inside : found.len ≤ rest.length := escape_len_le rest pool
    have begun : (Moved.bytes (1 + found.len)).len ≤ (c :: rest).length := by
      change 1 + found.len ≤ rest.length + 1
      omega
    refine Scanned.Inside.behind ?_ begun
    change Scanned.Inside _ ((c :: rest).drop (1 + found.len))
    rw [add_comm]
    exact ih
  | case7 rounds c rest pool notQuote ordinary notEscape full =>
    exact succ_le_succ (zero_le _)
  | case8 rounds c rest pool notQuote ordinary notEscape pool' room ih =>
    refine Scanned.Inside.behind ?_ (succ_le_succ (zero_le _))
    exact ih

theorem silent_strLit (quote : UInt8) (rounds : ℕ) (rest pool : Bytes) :
    (strLit quote rounds rest pool).moved.Silent := by
  fun_induction strLit quote rounds rest pool with
  | case6 _ _ _ _ _ _ _ _ _ ih | case8 _ _ _ _ _ _ _ _ _ ih =>
    exact (Moved.silent_bytes _).followedBy ih
  | _ => exact Moved.silent_bytes _

theorem outBytes_tried_le (text pool : Bytes) : (outBytes text pool).2.1 ≤ text.length := by
  fun_induction outBytes text pool with
  | case1 pool => exact zero_le _
  | case2 b text pool full => exact succ_le_succ (zero_le _)
  | case3 b text pool pool' room all tried last found ih =>
    rw [found] at ih
    exact succ_le_succ ih

theorem outBytes_tried_of_all {text pool : Bytes} (all : (outBytes text pool).1 = true) :
    (outBytes text pool).2.1 = text.length := by
  fun_induction outBytes text pool with
  | case1 pool => rfl
  | case2 b text pool full => cases all
  | case3 b text pool pool' room all' tried last found ih =>
    rw [found] at ih
    exact congrArg (· + 1) (ih all)

theorem Scanned.counts_behind {scanned : Scanned} {rest : Bytes} {moved : Moved}
    (counts : moved.Counts rest) (later : scanned.moved.Counts (rest.drop moved.len)) :
    (scanned.behind moved).moved.Counts rest :=
  counts.followedBy later

theorem counts_within {rest : Bytes} {len : ℕ} (within : len ≤ lineLength rest) :
    (Moved.bytes len).Counts rest := by
  apply Moved.counts_bytes (within.trans (lineLength_le rest))
  intro isBreak
  have taken : rest.take len = (rest.take (lineLength rest)).take len := by
    rw [take_take, min_eq_left within]
  rw [taken, take_lineLength] at isBreak
  exact single_takeWhile rest (mem_of_mem_take isBreak)

theorem counts_takeWhile {isBlank : UInt8 → Bool} (ordinary : isBlank newline = false)
    (rest : Bytes) : (Moved.bytes (rest.takeWhile isBlank).length).Counts rest := by
  apply Moved.counts_bytes ( takeWhile_prefix _).length_le
  rw [← prefix_iff_eq_take.mp ( takeWhile_prefix _)]
  intro isBreak
  have kept := mem_takeWhile_imp isBreak
  rw [ordinary] at kept
  cases kept

theorem counts_multilineStrLit : (multilineStrLit rounds rest pool).moved.Counts rest := by
  induction rounds generalizing rest pool with
  | zero => exact Moved.counts_nothing rest
  | succ rounds ih =>
    rw [multilineStrLit]
    have tried := outBytes_tried_le (rest.takeWhile (· != newline)) pool
    split
    · rename_i found
      rw [found] at tried
      exact counts_within tried
    · rename_i len pool' found
      have all := outBytes_tried_of_all (congrArg Prod.fst found)
      rw [found] at all
      have isLine : len = lineLength rest := all
      subst isLine
      split
      · exact counts_lineLength rest
      · rename_i c behind isRest
        have isBreak : c = newline := by
          rcases drop_lineLength rest with atEnd | atBreak
          · rw [isRest] at atEnd
            cases atEnd
          · rw [isRest] at atBreak
            exact Option.some.inj atBreak
        subst isBreak
        have ended : ((Moved.bytes (lineLength rest)).followedBy .line).Counts rest := by
          refine (counts_lineLength rest).followedBy ?_
          change Moved.line.Counts (rest.drop (lineLength rest))
          rw [isRest]
          exact Moved.counts_line behind
        have dropped : rest.drop ((Moved.bytes (lineLength rest)).followedBy .line).len =
            behind := by
          change rest.drop (lineLength rest + 1) = behind
          rw [← drop_drop, isRest]
          rfl
        split
        · exact ended
        · rename_i pool'' room
          have next : (((Moved.bytes (lineLength rest)).followedBy .line).followedBy
              (.bytes (behind.takeWhile fun c => c = ascii ' ' || c = ascii '\t').length)).Counts
                rest := by
            refine ended.followedBy ?_
            rw [dropped]
            exact counts_takeWhile (by decide) behind
          dsimp only
          generalize (behind.takeWhile fun c => c = ascii ' ' || c = ascii '\t').length =
            indent at next ⊢
          split
          · rename_i goesOn
            have indented : rest.drop (((Moved.bytes (lineLength rest)).followedBy
                .line).followedBy (.bytes indent)).len = behind.drop indent := by
              rw [← dropped, drop_drop]
              rfl
            have marks : (Moved.bytes 2).Counts (behind.drop indent) := by
              apply Moved.counts_bytes
              · have length := congrArg List.length goesOn
                rw [length_take] at length
                change min 2 _ = 2 at length
                omega
              · rw [goesOn]
                decide
            refine Scanned.counts_behind (next.followedBy ?_) ?_
            · rw [indented]
              exact marks
            · have later : rest.drop ((((Moved.bytes (lineLength rest)).followedBy
                  .line).followedBy (.bytes indent)).followedBy (.bytes 2)).len =
                    behind.drop (indent + 2) := by
                rw [← drop_drop, ← indented, drop_drop]
                rfl
              rw [later]
              exact ih _ _
          · exact next

theorem runeLit_le : (runeLit rest).2 ≤ rest.length := by
  unfold runeLit
  dsimp only
  have within : (rest.takeWhile fun c => c != ascii '\x60' && c != newline).length ≤ rest.length :=
    ( takeWhile_prefix _).length_le
  generalize (rest.takeWhile fun c => c != ascii '\x60' && c != newline).length = len at within ⊢
  split
  · exact within
  · rename_i isRest
    have more := congrArg List.length isRest
    rw [length_drop, length_cons] at more
    split
    · exact within
    · omega

theorem operator_le (c : UInt8) (rest : Bytes) : (operator c rest).2 ≤ rest.length := by
  unfold operator
  split
  · exact zero_le _
  · split
    · exact zero_le _
    · rename_i form found
      have isPrefix := List.find?_some found
      have length := ( isPrefixOf_iff_prefix.mp isPrefix).length_le
      rw [length_map] at length
      exact length

/-- A scan of a token is inside of what is left and goes on, and it counts all newlines or none. -/
structure Scanned.Proper (scanned : Scanned) (rest : Bytes) : Prop where
  inside : scanned.Inside rest
  forward : 0 < scanned.moved.len
  moved : scanned.moved.Silent ∨ scanned.moved.Counts rest

variable {unicode : Unicode}

theorem proper_plain {typ : TT} {len : ℕ} {rest pool : Bytes} (forward : 0 < len)
    (inside : len ≤ rest.length) : (plain typ len pool).Proper rest :=
  ⟨inside, forward, .inl (Moved.silent_bytes len)⟩

theorem proper_ident {begun : ℕ} {bytes pool : Bytes} (forward : 0 < begun)
    (inside : begun ≤ bytes.length) : (ident unicode begun bytes pool).Proper bytes := by
  have rest := identRest_le unicode bytes.length (bytes.drop begun)
  rw [length_drop] at rest
  apply proper_plain
  · omega
  · omega

theorem proper_scanToken (unicode : Unicode) (c : UInt8) (rest pool : Bytes) :
    (scanToken unicode c rest pool).Proper (c :: rest) := by
  have length : (c :: rest).length = rest.length + 1 := length_cons
  unfold scanToken
  split
  · exact proper_ident Nat.zero_lt_one (by omega)
  split
  · have inside := numLit_le rest
    exact proper_plain (by omega) (by omega)
  split
  · have inside := peekCodepointLen_le (c :: rest)
    dsimp only
    split
    · rename_i isWord
      exact proper_ident isWord.1 inside
    · split
      · rename_i wide
        exact proper_plain wide inside
      · exact proper_plain Nat.zero_lt_one (by omega)
  split
  · have begun : (Moved.bytes 1).len ≤ (c :: rest).length := succ_le_succ (zero_le _)
    refine ⟨(strLit_inside c _ rest pool).behind begun, ?_, .inl ?_⟩
    · change 0 < 1 + _
      omega
    · exact (Moved.silent_bytes 1).followedBy (silent_strLit c _ rest pool)
  split
  · have inside := runeLit_le rest
    exact proper_plain (by omega) (by omega)
  split
  · rename_i isBackslash
    split
    · rename_i isSecond
      rcases rest with _ | ⟨second, rest⟩
      · cases isSecond
      · cases isSecond
        have marks : (Moved.bytes 2).Counts (c :: ascii '\\' :: rest) := by
          apply Moved.counts_bytes
          · exact succ_le_succ (succ_le_succ (zero_le _))
          · rw [isBackslash]
            change newline ∉ [ascii '\\', ascii '\\']
            decide
        have counts := Scanned.counts_behind marks
          (counts_multilineStrLit (rest.length + 1 + 1) rest pool)
        refine ⟨counts.inside, ?_, .inr counts⟩
        change 0 < 2 + _
        omega
    · exact proper_plain Nat.zero_lt_one (by omega)
  · have inside := operator_le c rest
    exact proper_plain (by omega) (by omega)

namespace Lexer

variable {lexer : Lexer} {moved : Moved}

/-- The bytes up to where a move goes. -/
theorem take_move (lexer : Lexer) (len : ℕ) :
    lexer.src.take (lexer.pos + len) = lexer.src.take lexer.pos ++ lexer.rest.take len :=
  take_add

theorem length_rest (lexer : Lexer) : lexer.rest.length = lexer.src.length - lexer.pos :=
  length_drop

/-- The counters are those of the source. -/
structure Right (lexer : Lexer) : Prop where
  line : lexer.line = UInt32.ofNat (1 + breaks (lexer.src.take lexer.pos))
  lineStart : lexer.lineStart = lineStartFor lexer.src lexer.pos

theorem right_init (src : Bytes) : (init src).Right :=
  ⟨rfl, rfl⟩

theorem Right.move (right : lexer.Right) (inside : lexer.pos ≤ lexer.src.length)
    (counts : moved.Counts lexer.rest) : (lexer.move moved).Right := by
  constructor
  · change lexer.line + UInt32.ofNat moved.lines =
      UInt32.ofNat (1 + breaks (lexer.src.take (lexer.pos + moved.len)))
    rw [take_move, breaks_append, right.line, counts.lines, ← UInt32.ofNat_add, add_assoc]
  · change (moved.lineStart.map (lexer.pos + ·)).getD lexer.lineStart =
      lineStartFor lexer.src (lexer.pos + moved.len)
    have length : (lexer.src.take lexer.pos).length = lexer.pos := by
      rw [length_take]
      exact min_eq_left inside
    rw [lineStartFor_eq, take_move, lastBreak_append, right.lineStart, counts.lineStart, length,
      lineStartFor_eq]
    cases lastBreak (lexer.rest.take moved.len) with
    | none => rfl
    | some position => rfl

theorem counts_begin (lexer : Lexer) : (skipWS lexer.pos lexer.rest).Counts lexer.rest :=
  counts_skipWS _ _

theorem pos_begin (lexer : Lexer) :
    lexer.begin.pos = lexer.pos + (skipWS lexer.pos lexer.rest).len :=
  rfl

theorem begin_inside (inside : lexer.pos ≤ lexer.src.length) :
    lexer.begin.pos ≤ lexer.src.length := by
  have skipped := lexer.counts_begin.inside
  rw [length_rest] at skipped
  rw [pos_begin]
  omega

theorem Right.begin (right : lexer.Right) (inside : lexer.pos ≤ lexer.src.length) :
    lexer.begin.Right :=
  have moved := right.move inside lexer.counts_begin
  ⟨moved.line, moved.lineStart⟩

variable (unicode : Unicode)

/-- What a call of `next` does: at the end nothing more, and else it goes over a token. -/
theorem next_cases (lexer : Lexer) :
    (lexer.begin.rest = [] ∧ lexer.next unicode = (lexer.begin.tok .eof, lexer.begin)) ∨
    ∃ scanned : Scanned, scanned.Proper lexer.begin.rest ∧
      lexer.next unicode = lexer.begin.finish scanned := by
  unfold next
  cases isRest : lexer.begin.rest with
  | nil => exact .inl ⟨rfl, rfl⟩
  | cons c rest => exact .inr ⟨_, proper_scanToken unicode c rest _, rfl⟩

/-- The first byte of the token, the byte behind it, and the source are as told. -/
structure Steps (unicode : Unicode) (lexer after : Lexer) : Prop where
  src : after.src = lexer.src
  start : after.start = lexer.begin.pos
  forward : after.start ≤ after.pos
  inside : lexer.pos ≤ lexer.src.length → after.pos ≤ lexer.src.length

theorem steps_next (lexer : Lexer) : Steps unicode lexer (lexer.next unicode).2 := by
  rcases next_cases unicode lexer with ⟨_, same⟩ | ⟨scanned, proper, same⟩
  · rw [same]
    exact ⟨rfl, rfl, le_refl _, fun inside => begin_inside inside⟩
  · rw [same]
    refine ⟨rfl, rfl, le_add_right _ _, fun inside => ?_⟩
    have within : scanned.moved.len ≤ lexer.begin.rest.length := proper.inside
    have begun := begin_inside inside
    rw [length_rest] at within
    change lexer.begin.pos + scanned.moved.len ≤ lexer.src.length
    change scanned.moved.len ≤ lexer.src.length - lexer.begin.pos at within
    omega

/-- The lexer before a call of `next`. -/
def before (unicode : Unicode) (src : Bytes) : ℕ → Lexer
  | 0 => init src
  | calls + 1 => ((before unicode src calls).next unicode).2

/-- The token of a call. -/
def token (unicode : Unicode) (src : Bytes) (call : ℕ) : Token :=
  ((before unicode src call).next unicode).1

/-- Where the token of a call starts. -/
def tokenStart (unicode : Unicode) (src : Bytes) (call : ℕ) : ℕ :=
  (before unicode src (call + 1)).start

/-- The position behind the token of a call. -/
def tokenEnd (unicode : Unicode) (src : Bytes) (call : ℕ) : ℕ :=
  (before unicode src (call + 1)).pos

variable (unicode : Unicode) (src : Bytes)

variable (call : ℕ)

theorem src_before : (before unicode src call).src = src := by
  induction call with
  | zero => rfl
  | succ call ih => exact (steps_next unicode _).src.trans ih

theorem before_inside : (before unicode src call).pos ≤ src.length := by
  induction call with
  | zero => exact zero_le _
  | succ call ih =>
    have inside := (steps_next unicode (before unicode src call)).inside
    rw [src_before] at inside
    exact inside ih

theorem begin_le (lexer : Lexer) : lexer.pos ≤ lexer.begin.pos :=
  le_add_right _ _

theorem begin_rest_eq_nil {call : ℕ} (atEnd : src.length ≤ (before unicode src call).begin.pos) :
    (before unicode src call).begin.rest = [] := by
  apply drop_of_length_le
  change (before unicode src call).src.length ≤ _
  rw [src_before]
  exact atEnd

theorem le_begin_of_rest {call : ℕ} (ended : (before unicode src call).begin.rest = []) :
    src.length ≤ (before unicode src call).begin.pos := by
  have length := length_rest (before unicode src call).begin
  rw [ended] at length
  change 0 = (before unicode src call).src.length - _ at length
  rw [src_before] at length
  omega

theorem min_le_before : min call src.length ≤ (before unicode src call).pos := by
  induction call with
  | zero => exact min_le_left _ _
  | succ call ih =>
    have skipped := begin_le (before unicode src call)
    rcases next_cases unicode (before unicode src call) with
      ⟨ended, same⟩ | ⟨scanned, proper, same⟩
    · have atEnd := le_begin_of_rest unicode src ended
      rw [before, same]
      dsimp only
      omega
    · have forward := proper.forward
      rw [before, same]
      change _ ≤ (before unicode src call).begin.pos + scanned.moved.len
      omega

theorem ended_of_le {call : ℕ} (enough : src.length ≤ call) :
    (before unicode src call).begin.rest = [] := by
  apply begin_rest_eq_nil
  have reached := min_le_before unicode src call
  have skipped := begin_le (before unicode src call)
  omega

theorem token_of_ended {call : ℕ} (ended : (before unicode src call).begin.rest = []) :
    (before unicode src call).next unicode =
      ((before unicode src call).begin.tok .eof, (before unicode src call).begin) := by
  rcases next_cases unicode (before unicode src call) with ⟨_, same⟩ | ⟨scanned, proper, _⟩
  · exact same
  · have inside : scanned.moved.len ≤ _ := proper.inside
    have forward := proper.forward
    rw [ended, length_nil] at inside
    omega

/-- The calls of `next` reach the end, and their tokens are one behind the other with nothing but
whitespace and comments between them. -/
structure Progresses : Prop where
  ends : ∃ call ≤ src.length, (token unicode src call).typ = .eof
  forward : ∀ call, (token unicode src call).typ ≠ .eof →
    tokenStart unicode src call < tokenEnd unicode src call
  ordered : ∀ call, tokenStart unicode src call ≤ tokenEnd unicode src call ∧
    tokenEnd unicode src call ≤ tokenStart unicode src (call + 1)
  inside : ∀ call, tokenEnd unicode src call ≤ src.length
  first : Skippable 0 (src.take (tokenStart unicode src 0))
  gaps : ∀ call, Skippable (tokenEnd unicode src call)
    ((src.take (tokenStart unicode src (call + 1))).drop (tokenEnd unicode src call))

theorem skippable_begin (lexer : Lexer) :
    Skippable lexer.pos ((lexer.src.take lexer.begin.pos).drop lexer.pos) := by
  have skipped := skippable_skipWS lexer.pos lexer.rest
  rw [pos_begin, drop_take, Nat.add_sub_cancel_left]
  exact skipped

theorem progresses : Progresses unicode src where
  ends := by
    refine ⟨src.length, le_refl _, ?_⟩
    rw [token, token_of_ended unicode src (ended_of_le unicode src (le_refl _))]
    rfl
  forward := by
    intro call more
    rw [tokenStart, tokenEnd, before]
    rw [token] at more
    rcases next_cases unicode (before unicode src call) with ⟨_, same⟩ | ⟨scanned, proper, same⟩
    · rw [same] at more
      exact absurd rfl more
    · rw [same]
      exact Nat.lt_add_of_pos_right proper.forward
  ordered := by
    intro call
    refine ⟨(steps_next unicode (before unicode src call)).forward, ?_⟩
    rw [tokenStart, before, (steps_next unicode (before unicode src (call + 1))).start]
    exact begin_le _
  inside := fun call => before_inside unicode src (call + 1)
  first := by
    have skipped := skippable_begin (before unicode src 0)
    rw [tokenStart, before, (steps_next unicode (before unicode src 0)).start]
    exact skipped
  gaps := by
    intro call
    have skipped := skippable_begin (before unicode src (call + 1))
    rw [src_before] at skipped
    rw [tokenStart, before, (steps_next unicode (before unicode src (call + 1))).start]
    exact skipped

/-- The line and the column of a position, counted from 1. -/
structure AtPosition (src : Bytes) (position : ℕ) (token : Token) : Prop where
  line : token.line.toNat = 1 + breaks (src.take position)
  col : token.col.toNat = position - (lastBreak (src.take position)).getD 0 + 1

/-- Every token has the line and the column of its first byte. -/
def TruePositions : Prop :=
  ∀ call, AtPosition src (tokenStart unicode src call) (token unicode src call)

/-- No token has a newline in it. -/
def OnOneLine : Prop :=
  ∀ call, newline ∉ (src.take (tokenEnd unicode src call)).drop (tokenStart unicode src call)

/-- The lines and columns have 32 bits. -/
def Fits : Prop :=
  ∀ call, 1 + breaks (src.take (tokenStart unicode src call)) < 2 ^ 32 ∧
    tokenStart unicode src call -
      (lastBreak (src.take (tokenStart unicode src call))).getD 0 + 1 < 2 ^ 32

section

variable {unicode src}

variable {scanned : Scanned}

theorem token_bytes {call : ℕ} (same : (before unicode src call).next unicode =
      (before unicode src call).begin.finish scanned) :
    (src.take (tokenEnd unicode src call)).drop (tokenStart unicode src call) =
      (before unicode src call).begin.rest.take scanned.moved.len := by
  have start : tokenStart unicode src call = (before unicode src call).begin.pos :=
    (steps_next unicode (before unicode src call)).start
  have stop : tokenEnd unicode src call =
      (before unicode src call).begin.pos + scanned.moved.len := by
    rw [tokenEnd, before, same]
    rfl
  rw [start, stop, drop_take, Nat.add_sub_cancel_left]
  change _ = ((before unicode src call).src.drop _).take _
  rw [src_before]

theorem counts_of_single {rest : Bytes} (proper : scanned.Proper rest)
    (single : newline ∉ rest.take scanned.moved.len) :
    scanned.moved.Silent ∧ scanned.moved.Counts rest := by
  have none := lastBreak_eq_none single
  have zero := breaks_eq_zero_iff.mpr single
  rcases proper.moved with silent | counts
  · exact ⟨silent, proper.inside, silent.lines.trans zero.symm, silent.lineStart.trans none.symm⟩
  · exact ⟨⟨counts.lines.trans zero, counts.lineStart.trans none⟩, counts⟩

theorem right_before (single : OnOneLine unicode src) (call : ℕ) :
    (before unicode src call).Right := by
  induction call with
  | zero => exact right_init src
  | succ call ih =>
    have inside : (before unicode src call).pos ≤ (before unicode src call).src.length := by
      rw [src_before]
      exact before_inside unicode src call
    have begun := ih.begin inside
    rcases next_cases unicode (before unicode src call) with ⟨_, same⟩ | ⟨scanned, proper, same⟩
    · rw [before, same]
      exact begun
    · have onOneLine := single call
      rw [token_bytes same] at onOneLine
      have moved := begun.move (begin_inside inside) (counts_of_single proper onOneLine).2
      rw [before, same]
      exact ⟨moved.line, moved.lineStart⟩

theorem atPosition_finish (right : lexer.Right) (start : lexer.start = lexer.pos)
    (silent : scanned.moved.Silent) (fits : 1 + breaks (lexer.src.take lexer.pos) < 2 ^ 32 ∧
      lexer.pos - (lastBreak (lexer.src.take lexer.pos)).getD 0 + 1 < 2 ^ 32) :
    AtPosition lexer.src lexer.pos (lexer.finish scanned).1 := by
  have sameLine : (lexer.move scanned.moved).line = lexer.line := by
    change lexer.line + UInt32.ofNat scanned.moved.lines = lexer.line
    rw [silent.lines]
    exact UInt32.add_zero _
  have sameStart : (lexer.move scanned.moved).lineStart = lexer.lineStart := by
    change (scanned.moved.lineStart.map _).getD _ = _
    rw [silent.lineStart]
    rfl
  have line : lexer.line.toNat = 1 + breaks (lexer.src.take lexer.pos) := by
    rw [right.line, UInt32.toNat_ofNat_of_lt' fits.1]
  have col : (UInt32.ofNat (lexer.pos - lineStartFor lexer.src lexer.pos + 1)).toNat =
      lexer.pos - (lastBreak (lexer.src.take lexer.pos)).getD 0 + 1 := by
    rw [lineStartFor_eq, UInt32.toNat_ofNat_of_lt' fits.2]
  unfold finish
  split
  · constructor
    · change (lexer.move scanned.moved).line.toNat = _
      rw [sameLine, line]
    · change (UInt32.ofNat (lexer.start - lineStartFor lexer.src lexer.start + 1)).toNat = _
      rw [start, col]
  · constructor
    · change (lexer.move scanned.moved).line.toNat = _
      rw [sameLine, line]
    · change (UInt32.ofNat (lexer.start - (lexer.move scanned.moved).lineStart + 1)).toNat = _
      rw [sameStart, right.lineStart, start, col]

theorem atPosition_eof (right : lexer.Right) (start : lexer.start = lexer.pos)
    (fits : 1 + breaks (lexer.src.take lexer.pos) < 2 ^ 32 ∧
      lexer.pos - (lastBreak (lexer.src.take lexer.pos)).getD 0 + 1 < 2 ^ 32) :
    AtPosition lexer.src lexer.pos (lexer.tok .eof) := by
  constructor
  · change lexer.line.toNat = _
    rw [right.line, UInt32.toNat_ofNat_of_lt' fits.1]
  · change (UInt32.ofNat (lexer.start - lexer.lineStart + 1)).toNat = _
    rw [right.lineStart, start, lineStartFor_eq, UInt32.toNat_ofNat_of_lt' fits.2]

theorem truePositions_of_onOneLine (single : OnOneLine unicode src) (fits : Fits unicode src) :
    TruePositions unicode src := by
  intro call
  have inside : (before unicode src call).pos ≤ (before unicode src call).src.length := by
    rw [src_before]
    exact before_inside unicode src call
  have right := (right_before single call).begin inside
  have sameSrc : (before unicode src call).begin.src = src := src_before unicode src call
  have start : tokenStart unicode src call = (before unicode src call).begin.pos :=
    (steps_next unicode (before unicode src call)).start
  have fitsHere : 1 + breaks ((before unicode src call).begin.src.take
      (before unicode src call).begin.pos) < 2 ^ 32 ∧
      (before unicode src call).begin.pos -
        (lastBreak ((before unicode src call).begin.src.take
          (before unicode src call).begin.pos)).getD 0 + 1 < 2 ^ 32 := by
    rw [sameSrc, ← start]
    exact fits call
  rw [start, token]
  rcases next_cases unicode (before unicode src call) with ⟨_, same⟩ | ⟨scanned, proper, same⟩
  · rw [same]
    have atEnd := atPosition_eof right rfl fitsHere
    rw [sameSrc] at atEnd
    exact atEnd
  · have onOneLine := single call
    rw [token_bytes same] at onOneLine
    have found := atPosition_finish right rfl (counts_of_single proper onOneLine).1 fitsHere
    rw [sameSrc] at found
    rw [same]
    exact found

/-- The lexer is so many lines behind. -/
def Behind (lost : ℕ) (lexer : Lexer) : Prop :=
  lexer.line.toNat + lost = 1 + breaks (lexer.src.take lexer.pos)

variable {lost : ℕ}

/-- A move that counts all newlines or none loses no line or all of its lines. -/
theorem Behind.move (moved : Moved) (behind : Behind lost lexer)
    (few : 1 + breaks lexer.src < 2 ^ 32) :
    (moved.Counts lexer.rest → Behind lost (lexer.move moved)) ∧
      (moved.Silent → Behind (lost + breaks (lexer.rest.take moved.len)) (lexer.move moved)) := by
  have total : breaks (lexer.src.take (lexer.pos + moved.len)) ≤ breaks lexer.src :=
    (take_sublist _ _).count_le _
  have split : breaks (lexer.src.take (lexer.pos + moved.len)) =
      breaks (lexer.src.take lexer.pos) + breaks (lexer.rest.take moved.len) := by
    rw [take_move, breaks_append]
  unfold Behind at behind ⊢
  constructor
  · intro counts
    have line : (lexer.move moved).line.toNat =
        lexer.line.toNat + breaks (lexer.rest.take moved.len) := by
      change (lexer.line + UInt32.ofNat moved.lines).toNat = _
      have small : breaks (lexer.rest.take moved.len) < UInt32.size := by
        change _ < 2 ^ 32
        omega
      rw [counts.lines, UInt32.toNat_add, UInt32.toNat_ofNat_of_lt' small]
      exact mod_eq_of_lt (by omega)
    change _ = 1 + breaks (lexer.src.take (lexer.pos + moved.len))
    omega
  · intro silent
    have line : (lexer.move moved).line = lexer.line := by
      change lexer.line + UInt32.ofNat moved.lines = lexer.line
      rw [silent.lines]
      exact UInt32.add_zero _
    rw [line]
    change _ = 1 + breaks (lexer.src.take (lexer.pos + moved.len))
    omega

theorem Behind.begin (behind : Behind lost lexer) (few : 1 + breaks lexer.src < 2 ^ 32) :
    Behind lost lexer.begin :=
  (behind.move _ few).1 lexer.counts_begin

/-- Lines that are lost stay lost, and a token is on another line than the lexer says if a newline
in it has been counted. -/
theorem Behind.next (behind : Behind lost lexer) (few : 1 + breaks lexer.src < 2 ^ 32) :
    ∃ lost', lost ≤ lost' ∧ Behind lost' (lexer.next unicode).2 ∧
      (lost' = 0 →
        (lexer.next unicode).1.line.toNat = 1 + breaks (lexer.src.take lexer.begin.pos) →
          (lexer.next unicode).2 = lexer.begin ∨
            ∃ scanned, lexer.next unicode = lexer.begin.finish scanned ∧
              newline ∉ lexer.begin.rest.take scanned.moved.len) := by
  have begun := behind.begin few
  rcases next_cases unicode lexer with ⟨_, same⟩ | ⟨scanned, proper, same⟩
  · rw [same]
    exact ⟨lost, le_refl _, begun, fun _ _ => .inl rfl⟩
  · have moved := begun.move scanned.moved few
    have reported : (lexer.begin.finish scanned).1.line =
        (lexer.begin.move scanned.moved).line := by
      unfold finish
      split
      · rfl
      · rfl
    rw [same]
    rcases proper.moved with silent | counts
    · refine ⟨_, le_add_right _ _, moved.2 silent, fun none _ => .inr ⟨scanned, rfl, ?_⟩⟩
      apply breaks_eq_zero_iff.mp
      omega
    · refine ⟨lost, le_refl _, moved.1 counts, fun none there => .inr ⟨scanned, rfl, ?_⟩⟩
      apply breaks_eq_zero_iff.mp
      have after := moved.1 counts
      rw [reported] at there
      change _ = 1 + breaks (lexer.begin.src.take (lexer.begin.pos + scanned.moved.len)) at after
      rw [take_move, breaks_append] at after
      change _ = 1 + breaks (lexer.begin.src.take lexer.begin.pos) at there
      omega

theorem few_before (few : 1 + breaks src < 2 ^ 32) (call : ℕ) :
    1 + breaks (before unicode src call).src < 2 ^ 32 := by
  rw [src_before]
  exact few

/-- Lines that have been lost before a call are still lost before a later one. -/
theorem exists_behind (few : 1 + breaks src < 2 ^ 32) {call : ℕ}
    (behind : Behind lost (before unicode src call)) (more : ℕ) :
    ∃ lost', lost ≤ lost' ∧ Behind lost' (before unicode src (call + more)) := by
  induction more with
  | zero => exact ⟨lost, le_refl _, behind⟩
  | succ more ih =>
    rcases ih with ⟨middle, grows, behind⟩
    rcases behind.next (few_before few _) with ⟨lost', grows', behind', _⟩
    exact ⟨lost', grows.trans grows', behind'⟩

section

variable (positions : TruePositions unicode src)
include positions

theorem lost_eq_zero (few : 1 + breaks src < 2 ^ 32) {call : ℕ} (enough : src.length ≤ call)
    (behind : Behind lost (before unicode src call)) : lost = 0 := by
  have ended := ended_of_le unicode src enough
  have line := (positions call).line
  have start : tokenStart unicode src call = (before unicode src call).begin.pos :=
    (steps_next unicode (before unicode src call)).start
  have begun := behind.begin (few_before few call)
  change _ = 1 + breaks ((before unicode src call).src.take _) at begun
  rw [src_before] at begun
  rw [start, token, token_of_ended unicode src ended] at line
  change (before unicode src call).begin.line.toNat = _ at line
  omega

theorem few_of_truePositions : 1 + breaks src < 2 ^ 32 := by
  have ended := ended_of_le unicode src (le_refl _)
  have line := (positions src.length).line
  have start : tokenStart unicode src src.length = (before unicode src src.length).begin.pos :=
    (steps_next unicode (before unicode src src.length)).start
  rw [start, take_of_length_le (le_begin_of_rest unicode src ended)] at line
  rw [← line]
  exact UInt32.toNat_lt _

theorem onOneLine_of_truePositions : OnOneLine unicode src := by
  have few := few_of_truePositions positions
  have atFirst : Behind 0 (before unicode src 0) := rfl
  intro call
  rcases exists_behind few atFirst call with ⟨lost, _, behind⟩
  rw [zero_add] at behind
  rcases behind.next (few_before few call) with ⟨lost', _, behind', onOneLine⟩
  rcases exists_behind few (show Behind lost' (before unicode src (call + 1)) from behind')
    src.length with ⟨last, grows, behindLast⟩
  have none : last = 0 := lost_eq_zero positions few (le_add_left _ _) behindLast
  have line := (positions call).line
  have start : tokenStart unicode src call = (before unicode src call).begin.pos :=
    (steps_next unicode (before unicode src call)).start
  rw [start, token] at line
  have sameSrc := src_before unicode src call
  have there := onOneLine (by omega) (by rw [sameSrc]; exact line)
  rcases there with same | ⟨scanned, same, single⟩
  · have stop : tokenEnd unicode src call = tokenStart unicode src call := by
      rw [start, tokenEnd, before, same]
    rw [stop, drop_take, Nat.sub_self, take_zero]
    exact not_mem_nil
  · rw [token_bytes same]
    exact single

theorem fits_of_truePositions : Fits unicode src := by
  intro call
  have position := positions call
  rw [← position.line, ← position.col]
  exact ⟨UInt32.toNat_lt _, UInt32.toNat_lt _⟩

end

end

/-- The lexer goes on to the end, and the positions are those of the source exactly if no token has
a newline in it. -/
theorem truePositions_iff (src : Bytes) :
    (Progresses unicode src ∧ TruePositions unicode src) ↔
      OnOneLine unicode src ∧ Fits unicode src := by
  constructor
  · rintro ⟨_, positions⟩
    exact ⟨onOneLine_of_truePositions positions, fits_of_truePositions positions⟩
  · rintro ⟨single, fits⟩
    exact ⟨progresses unicode src, truePositions_of_onOneLine single fits⟩

/-- No letters and no digits but those of ASCII. -/
def asciiOnly : Unicode :=
  ⟨fun _ => false, fun _ => false, rfl, rfl⟩

/-- A string of one line, and a word on the next one. -/
def textAndWord : Bytes :=
  [92, 92, 97, 10, 98]

theorem not_truePositions : ¬∀ unicode src, Progresses unicode src ∧ TruePositions unicode src := by
  intro always
  have first := ((always asciiOnly textAndWord).2 0).line
  exact absurd first (by decide)

end Lexer

end Gengo.Lexing
