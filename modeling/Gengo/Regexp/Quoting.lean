import Gengo.Regexp.Matcher
import Mathlib.Data.List.Infix

/-!
# Quoting

A string is quoted by a backslash before each of its bytes that begins something in a pattern. The
parser of an alternative takes an escaped byte for itself, but the scan for bars and parentheses
sees through the backslash. So a quoted string is read back exactly if the scan finds nothing to
cut in the string.
-/

namespace Gengo.Regexp

open List

/-- The byte that begins something other than itself. -/
def Lead.byte : Lead → UInt8
  | backslash => 92
  | dot => 46
  | caret => 94
  | dollar => 36
  | star => 42
  | plus => 43
  | maybe => 63
  | openClass => 91
  | openGroup => 40
  | closeGroup => 41
  | pipe => 124
  | ordinary => 0

theorem lead_spec (b : UInt8) : b = (lead b).byte ∨ lead b = .ordinary := by
  rw [lead]
  split_ifs with is_backslash is_dot is_caret is_dollar is_star is_plus is_maybe is_class is_group
    is_close is_pipe
  · exact .inl is_backslash
  · exact .inl is_dot
  · exact .inl is_caret
  · exact .inl is_dollar
  · exact .inl is_star
  · exact .inl is_plus
  · exact .inl is_maybe
  · exact .inl is_class
  · exact .inl is_group
  · exact .inl is_close
  · exact .inl is_pipe
  · exact .inr rfl

theorem eq_byte_of_lead {b : UInt8} {l : Lead} (lead_eq : lead b = l) (special : l ≠ .ordinary) :
    b = l.byte := by
  rcases lead_spec b with equal | ordinary
  · rwa [lead_eq] at equal
  · exact absurd (lead_eq.symm.trans ordinary) special

theorem scan_text {bytes : List UInt8} {depth : ℕ}
    (scanned : (scan depth bytes).err = none) :
    (scan depth bytes).first ++ (scan depth bytes).others.flatMap (124 :: ·) = bytes := by
  induction bytes generalizing depth with
  | nil => simp [scan]
  | cons b bytes ih =>
    rw [scan] at scanned ⊢
    split_ifs at scanned ⊢ with closes bar
    · have text := ih scanned
      rw [bar.1]
      simpa using text
    · have text := ih scanned
      simpa using text

/-- A byte, with a backslash before it if it begins something other than itself. -/
def quoteByte (b : UInt8) : List UInt8 :=
  if lead b = .ordinary then [b] else [92, b]

def quote (s : List UInt8) : List UInt8 :=
  s.flatMap quoteByte

/-- The parentheses of a string are nested, and no bar is outside of them. -/
def Nested (s : List UInt8) : Prop :=
  (scan 0 s).others = [] ∧ (scan 0 s).err = none

instance (s : List UInt8) : Decidable (Nested s) :=
  inferInstanceAs (Decidable (_ ∧ _))

/-- The pattern of a quoted string is accepted, and finds the string where it is in a text. -/
structure Quotes (s : List UInt8) : Prop where
  accepted : ∃ alts, parsePattern (quote s) = .ok alts
  finds : ∀ alts, parsePattern (quote s) = .ok alts →
    ∀ text, (findMatch alts text).isSome ↔ s <:+: text

@[simp]
theorem quote_cons (b : UInt8) (s : List UInt8) : quote (b :: s) = quoteByte b ++ quote s :=
  rfl

theorem escapedNode_of_special {b : UInt8} (special : lead b ≠ .ordinary) :
    escapedNode b = .literal b := by
  have isByte := eq_byte_of_lead rfl special
  rw [isByte]
  cases isLead : lead b with
  | ordinary => exact absurd isLead special
  | _ => rfl

theorem parseAlt_quoteByte (b : UInt8) (nodes : List Node) (rest : List UInt8) :
    parseAlt nodes (quoteByte b ++ rest) = parseAlt (.literal b :: nodes) rest := by
  have backslash : lead 92 = .backslash := by decide
  unfold quoteByte
  split
  · rename_i ordinary
    rw [singleton_append, parseAlt.eq_def]
    simp only [ordinary]
  · rename_i special
    rw [cons_append, singleton_append, parseAlt.eq_def]
    simp only [backslash, escapedNode_of_special special]

variable (s : List UInt8)

theorem parseAlt_quote (nodes : List Node) (rest : List UInt8) :
    parseAlt nodes (quote s ++ rest) = parseAlt ((s.map Node.literal).reverse ++ nodes) rest := by
  induction s generalizing nodes with
  | nil => rfl
  | cons b s ih =>
    rw [quote_cons, append_assoc, parseAlt_quoteByte, ih]
    simp

theorem parseAlt_backslash (nodes : List Node) : parseAlt nodes [92] = .error .invalidPattern := by
  have backslash : lead 92 = .backslash := by decide
  rw [parseAlt.eq_def]
  simp only [backslash]

theorem scan_cons {depth : ℕ} {b : UInt8} (notClose : ¬(b = 41 ∧ depth = 0))
    (notBar : ¬(b = 124 ∧ depth = 0)) (rest : List UInt8) :
    scan depth (b :: rest) = ⟨b :: (scan (nest depth b) rest).first,
      (scan (nest depth b) rest).others, (scan (nest depth b) rest).err⟩ := by
  rw [scan, if_neg notClose, if_neg notBar]

theorem scan_backslash (depth : ℕ) (rest : List UInt8) :
    scan depth (92 :: rest) =
      ⟨92 :: (scan depth rest).first, (scan depth rest).others, (scan depth rest).err⟩ :=
  scan_cons (by simp) (by simp) rest

/-- The scan of a quoted string fails where the scan of the string does, and cuts it where that
does, behind a backslash. -/
theorem scan_quote (depth : ℕ) :
    (scan depth (quote s)).err = (scan depth s).err ∧
      ((scan depth (quote s)).others = [] ↔ (scan depth s).others = []) ∧
      ((scan depth s).others ≠ [] →
        ∃ front, (scan depth (quote s)).first = quote front ++ [92]) := by
  induction s generalizing depth with
  | nil => exact ⟨rfl, .rfl, fun cut => absurd rfl cut⟩
  | cons b s ih =>
    have passes : ∀ (notClose : ¬(b = 41 ∧ depth = 0)) (notBar : ¬(b = 124 ∧ depth = 0)),
        scan depth (quoteByte b ++ quote s) =
          ⟨quoteByte b ++ (scan (nest depth b) (quote s)).first,
            (scan (nest depth b) (quote s)).others, (scan (nest depth b) (quote s)).err⟩ := by
      intro notClose notBar
      unfold quoteByte
      split
      · exact scan_cons notClose notBar _
      · rw [cons_append, singleton_append, scan_backslash, scan_cons notClose notBar]
        rfl
    have special : ∀ cut : b = 41 ∨ b = 124, quoteByte b = [92, b] := by
      rintro (rfl | rfl)
      · rfl
      · rfl
    rw [quote_cons]
    by_cases closes : b = 41 ∧ depth = 0
    · have isError : scan depth (b :: s) = ⟨[], [], some .unmatchedParen⟩ := by
        rw [scan, if_pos closes]
      have isError' : scan depth (b :: quote s) = ⟨[], [], some .unmatchedParen⟩ := by
        rw [scan, if_pos closes]
      rw [special (.inl closes.1), isError]
      simp only [cons_append, nil_append]
      rw [scan_backslash, isError']
      exact ⟨rfl, ⟨fun _ => trivial, fun _ => rfl⟩, fun cut => absurd rfl cut⟩
    · by_cases bar : b = 124 ∧ depth = 0
      · rw [special (.inr bar.1)]
        simp only [cons_append, nil_append]
        rw [scan_backslash, scan, scan, if_neg closes, if_pos bar, if_neg closes, if_pos bar]
        exact ⟨(ih 0).1, ⟨by simp, by simp⟩, fun _ => ⟨[], rfl⟩⟩
      · rw [passes closes bar, scan_cons closes bar]
        have rest := ih (nest depth b)
        refine ⟨rest.1, rest.2.1, ?_⟩
        intro cut
        rcases rest.2.2 cut with ⟨front, isFront⟩
        refine ⟨b :: front, ?_⟩
        rw [isFront, quote_cons, append_assoc]

/-- A quoted string is parsed as its bytes exactly if its parentheses are nested and no bar is
outside of them. -/
theorem parseAlts_quote :
    (Nested s → parseAlts (quote s) = .ok [s.map Node.literal]) ∧
      (¬Nested s → ∃ err, parseAlts (quote s) = .error err) := by
  have scanned := scan_quote s 0
  constructor
  · rintro ⟨noBar, noError⟩
    have others := scanned.2.1.2 noBar
    have err : (scan 0 (quote s)).err = none := scanned.1.trans noError
    have text := scan_text err
    rw [others, flatMap_nil, append_nil] at text
    have nodes := parseAlt_quote s [] []
    rw [append_nil, append_nil] at nodes
    rw [parseAlts, others, err, text, parseSegments, nodes, parseAlt, reverse_reverse]
  · intro notNested
    rw [parseAlts]
    cases isOthers : (scan 0 (quote s)).others with
    | nil =>
      cases isErr : (scan 0 (quote s)).err with
      | none =>
        exact absurd ⟨scanned.2.1.1 isOthers, scanned.1.symm.trans isErr⟩ notNested
      | some err => exact ⟨err, by rw [parseSegments]⟩
    | cons next others =>
      have cut : (scan 0 s).others ≠ [] := by
        intro none_
        rw [scanned.2.1.2 none_] at isOthers
        exact absurd isOthers (by simp)
      rcases scanned.2.2 cut with ⟨front, isFront⟩
      refine ⟨.invalidPattern, ?_⟩
      rw [isFront, parseSegments, parseAlt_quote, parseAlt_backslash]

theorem walk_literals (next : Alt → ℕ → Option ℕ) (text s : List UInt8) (p : ℕ) :
    walk next text (s.map Node.literal) p =
      if s <+: text.drop p then some (p + s.length) else none := by
  induction s generalizing p with
  | nil => simp [walk]
  | cons b s ih =>
    have kind_eq : (Node.literal b).kind = .literal := rfl
    rcases Nat.lt_or_ge p text.length with inside | behind
    · have isPrefix : b :: s <+: text.drop p ↔ b = text[p] ∧ s <+: text.drop (p + 1) := by
        rw [drop_eq_getElem_cons inside, cons_prefix_cons]
      simp only [isPrefix]
      simp only [map_cons, walk, kind_eq, List.getElem?_eq_getElem inside]
      rw [ih]
      by_cases same : b = text[p]
      · have matched : matchOne text[p] (.literal b) = true := decide_eq_true same
        rw [if_pos matched, length_cons, Nat.add_right_comm, Nat.add_assoc]
        simp only [same, true_and]
      · have unmatched : ¬matchOne text[p] (.literal b) = true := by
          rw [Bool.not_eq_true]
          exact decide_eq_false same
        rw [if_neg unmatched, if_neg fun both => same both.1]
    · simp only [map_cons, walk, kind_eq, List.getElem?_eq_none behind]
      rw [drop_of_length_le behind]
      simp

theorem leadingCaret_literals : leadingCaret [s.map Node.literal] = false := by
  cases s with
  | nil => rfl
  | cons b s => rfl

/-- The literals of a string are found where the string is in the text. -/
theorem findMatch_literals (s text : List UInt8) :
    (findMatch [s.map Node.literal] text).isSome ↔ s <:+: text := by
  have matchAny_eq : ∀ p, matchAny [s.map Node.literal] text p =
      if s <+: text.drop p then some (p + s.length) else none := by
    intro p
    have walked := walk_literals (matchAlt text 199) text s p
    rw [matchAny, List.findSome?_singleton]
    exact walked
  rw [findMatch, leadingCaret_literals, if_neg Bool.false_ne_true, List.findSome?_isSome_iff]
  constructor
  · rintro ⟨p, _, found⟩
    rw [Option.isSome_map, matchAny_eq] at found
    split at found
    · rename_i isPrefix
      exact isPrefix.isInfix.trans (drop_suffix p text).isInfix
    · exact absurd found (by simp)
  · rintro ⟨front, back, rfl⟩
    refine ⟨front.length, ?_, ?_⟩
    · rw [mem_range, length_append, length_append]
      omega
    · have found : s <+: (front ++ s ++ back).drop front.length := by
        rw [append_assoc, drop_left]
        exact prefix_append s back
      rw [Option.isSome_map, matchAny_eq, if_pos found]
      rfl

/-- Quoting works exactly for the strings whose parentheses are nested, that have no bar outside of
them, and that are short enough once they are quoted. -/
theorem quotes_iff : Quotes s ↔ Nested s ∧ (quote s).length ≤ maxPatternLen := by
  have parsed := parseAlts_quote s
  constructor
  · rintro ⟨⟨alts, accepted⟩, _⟩
    unfold parsePattern at accepted
    split at accepted
    · exact absurd accepted (by simp)
    · rename_i short
      refine ⟨?_, Nat.le_of_not_lt short⟩
      by_contra notNested
      rcases parsed.2 notNested with ⟨err, isError⟩
      rw [isError] at accepted
      exact absurd accepted (by simp)
  · rintro ⟨nested, short⟩
    have accepted : parsePattern (quote s) = .ok [s.map Node.literal] := by
      rw [parsePattern, if_neg (Nat.not_lt_of_le short), parsed.1 nested]
    refine ⟨⟨_, accepted⟩, ?_⟩
    intro alts isAlts text
    rw [accepted] at isAlts
    rw [← Except.ok.inj isAlts]
    exact findMatch_literals s text

/-- A parenthesis alone: its pattern is an unterminated group. -/
theorem not_quotes : ¬Quotes [40] := by
  rintro ⟨⟨alts, accepted⟩, _⟩
  have notNested : ¬Nested [40] := by decide
  rcases (parseAlts_quote [40]).2 notNested with ⟨err, isError⟩
  rw [parsePattern, if_neg (by decide), isError] at accepted
  exact absurd accepted (by simp)

end Gengo.Regexp
