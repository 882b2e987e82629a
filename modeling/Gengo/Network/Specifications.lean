import Gengo.Network.Numerals

/-!
# Rules as they are specified

A rule comes from a flag of the command line, whose value is cut into a pattern and a port, or
from a call on an engine. What a specification denotes is said by its written forms, apart from
the functions that read it; the functions fall back to any port where a port cannot be read.
-/

namespace Gengo.Network

open List
open Bits (AgreeOn)
open Bytecode (Bytes literal)
open Rulings (Action Allows)

/-- The port behind a bracket. -/
def portBehind : Bytes → UInt16
  | 58 :: portStr => (parsePort portStr).getD 0
  | _ => 0

/-- The pattern and the port of a flag: what stands in brackets and behind them, or around the
only colon. -/
def splitPatternPort (raw : Bytes) : Bytes × UInt16 :=
  if raw.head? = some 91 ∧ 93 ∈ raw then
    let inner := raw.tail.takeWhile (· ≠ 93)
    (inner, portBehind (raw.drop (inner.length + 2)))
  else if raw.count 58 = 1 then
    let pattern := raw.takeWhile (· ≠ 58)
    match parsePort (raw.drop (pattern.length + 1)) with
    | some port => (pattern, port)
    | none => (raw, 0)
  else (raw, 0)

/-- What a rule is made from: the value of `--net-dial-allow` or `--net-listen-allow`, or the
arguments of `engine_net_policy_add` or `engine_net_listen_policy_add`. -/
inductive Request
  | netAllow (value : Bytes)
  | netPolicyAdd (action : ℤ) (pattern : Bytes) (port : ℤ)

/-- What `addRuleTo` is called with. -/
def Request.asks : Request → Action × Bytes × UInt16
  | .netAllow value => (.allow, splitPatternPort value)
  | .netPolicyAdd action pattern port =>
    (if action = 0 then .deny else .allow, pattern,
      if port ≤ 0 ∨ 65535 < port then 0 else .ofNat port.toNat)

/-- The code that a request ends with, and the policy it leaves. -/
def Request.add (resolver : Resolver IpAddress) (policy : PolicyState) (request : Request) :
    ℤ × PolicyState :=
  let (action, pattern, port) := request.asks
  let (rc, next) := addRuleTo resolver policy action pattern port
  match request with
  | .netAllow _ => (rc, next)
  | .netPolicyAdd _ _ _ => (if rc = 0 then 0 else if rc = -1 then -2 else -3, next)

/-- The text is a part in brackets with something behind it. -/
def Bracketed (text inner behind : Bytes) : Prop :=
  text = 91 :: (inner ++ 93 :: behind) ∧ 93 ∉ inner

/-- The written forms of a pattern with a port, or with none. -/
inductive Written : Bytes → Bytes → UInt16 → Prop
  | plain {pattern : Bytes} (unbracketed : ¬∃ inner behind, Bracketed pattern inner behind)
      (colons : pattern.count 58 ≠ 1) : Written pattern pattern 0
  | port {pattern portStr : Bytes} {port : UInt16}
      (unbracketed : ¬∃ inner behind, Bracketed (pattern ++ 58 :: portStr) inner behind)
      (before : 58 ∉ pattern) (behind : 58 ∉ portStr) (numeral : Numeral portStr port.toNat) :
      Written (pattern ++ 58 :: portStr) pattern port
  | bracketed {text pattern : Bytes} (whole : Bracketed text pattern []) : Written text pattern 0
  | bracketedPort {text pattern portStr : Bytes} {port : UInt16}
      (whole : Bracketed text pattern (58 :: portStr)) (numeral : Numeral portStr port.toNat) :
      Written text pattern port

/-- The pattern and the port that a request gives. -/
def Request.Gives : Request → Bytes → UInt16 → Prop
  | .netAllow value, pattern, port => Written value pattern port
  | .netPolicyAdd _ given number, pattern, port => pattern = given ∧ (port.toNat : ℤ) = number

/-- A request that gives no port as it should is read as this pattern for any port. -/
def Request.Misread (request : Request) (pattern : Bytes) : Prop :=
  (∀ given port, ¬request.Gives given port) ∧
    match request with
    | .netAllow value =>
      (∃ behind, Bracketed value pattern behind) ∨
        (¬∃ inner behind, Bracketed value inner behind) ∧ pattern = value
    | .netPolicyAdd _ given _ => pattern = given

variable (resolver : Resolver IpAddress)

/-- The written forms of patterns. A name is any other text. -/
inductive Spells : Bytes → PatternKind → Prop
  | all : Spells (literal "*") .matchAll
  | suffix {data : Bytes} (fits : (46 :: data).length ≤ 63) :
      Spells (42 :: 46 :: data) (.wildcardSuffix (46 :: data) fits)
  | cidr4 {addr digits : Bytes} {ip : Ip4} {prefixLen : ℕ} (cut : 47 ∉ addr)
      (read : SpellsIp4 addr ip) (length : SignedNumeral 255 digits prefixLen)
      (fits : prefixLen ≤ 32) : Spells (addr ++ 47 :: digits) (.ipv4Cidr ip prefixLen fits)
  | cidr6 {addr digits : Bytes} {ip : Ip6} {prefixLen : ℕ} (cut : 47 ∉ addr)
      (read : resolver.parseIPv6 addr = some ip) (length : SignedNumeral 255 digits prefixLen)
      (fits : prefixLen ≤ 128) : Spells (addr ++ 47 :: digits) (.ipv6Cidr ip prefixLen fits)
  | ip4 {text : Bytes} {ip : Ip4} (read : SpellsIp4 text ip) : Spells text (.ipv4Exact ip)
  | ip6 {text : Bytes} {ip : Ip6} (read : resolver.parseIPv6 text = some ip) :
      Spells text (.ipv6Exact ip)
  | name {text : Bytes} (fits : text.length ≤ 63) (nonempty : text ≠ []) (cut : 47 ∉ text)
      (wild : ¬[42, 46] <+: text ∧ text ≠ literal "*")
      (unread : (¬∃ ip, SpellsIp4 text ip) ∧ resolver.parseIPv6 text = none) :
      Spells text (.hostnameExact text fits)

/-- A host is among those that a pattern is written for. -/
def PatternKind.Holds (reading : HostReading) : PatternKind → Prop
  | .matchAll => True
  | .hostnameExact data _ => reading.host.map toLower = data.map toLower
  | .wildcardSuffix data _ => data.map toLower <:+ reading.host.map toLower
  | .ipv4Exact ip => reading.ip4 = some ip
  | .ipv4Cidr network prefixLen _ =>
    ∃ ip, reading.ip4 = some ip ∧ AgreeOn prefixLen ip.bytes network.bytes
  | .ipv6Exact ip => reading.ip6 = some ip
  | .ipv6Cidr network prefixLen _ =>
    ∃ ip, reading.ip6 = some ip ∧ AgreeOn prefixLen ip.toList network.toList

/-- A request is refused and changes nothing, or its rule decides about the hosts and the port that
it gives, and about nothing else. -/
def Request.Exact (policy : PolicyState) (request : Request) : Prop :=
  (∃ code, code ≠ 0 ∧ request.add resolver policy = (code, policy)) ∨
    ∃ next pattern port kind, request.add resolver policy = (0, next) ∧
      request.Gives pattern port ∧ Spells resolver pattern kind ∧
      ∀ address host portStr asked, splitAddress address = some (host, portStr) →
        parsePort portStr = some asked →
        let applies := (port = 0 ∨ port = asked) ∧
          kind.Holds (readHost resolver (stripBrackets host))
        (matchPolicy resolver next address false = true ↔
          (applies ∧ request.asks.1 = .allow) ∨
            (¬applies ∧ matchPolicy resolver policy address false = true))

variable {resolver} {raw pattern : Bytes}

theorem PatternKind.holds_iff {kind : PatternKind} {reading : HostReading} :
    kind.Holds reading ↔ kind.matchesHost reading = true := by
  cases kind with
  | ipv4Cidr network prefixLen fits =>
    cases ip4 : reading.ip4 <;> simp [Holds, matchesHost, ip4, ipv4InCidr_iff fits]
  | ipv6Cidr network prefixLen fits =>
    cases ip6 : reading.ip6 <;> simp [Holds, matchesHost, ip6, ipv6InCidr_iff fits]
  | wildcardSuffix data fits => simp [Holds, matchesHost, endsWithIgnoreCase_iff]
  | ipv4Exact ip => cases ip4 : reading.ip4 <;> simp [Holds, matchesHost, ip4]
  | ipv6Exact ip => cases ip6 : reading.ip6 <;> simp [Holds, matchesHost, ip6]
  | matchAll | hostnameExact data fits => simp [Holds, matchesHost, eqlIgnoreCase]

theorem takeWhile_of_cut {sep : UInt8} {before behind : Bytes} (cut : sep ∉ before) :
    (before ++ sep :: behind).takeWhile (· ≠ sep) = before := by
  rw [takeWhile_append_of_pos fun c member => by simpa using ne_of_mem_of_not_mem member cut]
  simp

theorem spells_of_patternKind {kind : PatternKind} (nonempty : pattern ≠ [])
    (known : patternKind resolver pattern = some kind) : Spells resolver pattern kind := by
  rw [patternKind] at known
  split at known
  next star =>
    cases known
    exact star ▸ .all
  next notStar =>
    split at known
    next wild =>
      obtain ⟨data, rfl⟩ := isPrefixOf_iff_prefix.mp wild
      change nameKind .wildcardSuffix (46 :: data) = some kind at known
      rw [nameKind] at known
      split at known <;> cases known
      exact .suffix ‹_›
    next notWild =>
      split at known
      next slash =>
        obtain ⟨addr, digits, rfl, cut⟩ := eq_append_cons_of_mem slash
        have behind : (addr ++ 47 :: digits).drop (addr.length + 1) = digits := by simp
        simp only [takeWhile_of_cut cut, behind] at known
        split at known
        · cases known
        next prefixLen length =>
          rw [cidrKind] at known
          split at known
          next ip read =>
            split at known <;> cases known
            exact .cidr4 cut (parseIPv4_eq_some_iff.mp read) (parseInt_eq_some_iff.mp length) ‹_›
          next =>
            split at known
            next ip read =>
              split at known <;> cases known
              exact .cidr6 cut read (parseInt_eq_some_iff.mp length) ‹_›
            · cases known
      next noSlash =>
        split at known
        next ip read =>
          cases known
          exact .ip4 (parseIPv4_eq_some_iff.mp read)
        next no4 =>
          split at known
          next ip read =>
            cases known
            exact .ip6 read
          next no6 =>
            rw [nameKind] at known
            split at known <;> cases known
            refine .name ‹_› nonempty noSlash
              ⟨fun wild => notWild ( isPrefixOf_iff_prefix.mpr wild), notStar⟩ ⟨?_, no6⟩
            rintro ⟨ip, spells⟩
            cases no4.symm.trans (parseIPv4_eq_some_iff.mpr spells)

theorem patternKind_nil (resolver : Resolver IpAddress) :
    patternKind resolver [] = some (.hostnameExact [] (Nat.zero_le _)) := by
  have read4 : parseIPv4 [] = none := by decide
  rw [patternKind, if_neg (by decide +kernel), if_neg (by decide +kernel), if_neg not_mem_nil]
  simp [read4, resolver.parseIPv6_nil, nameKind]

theorem not_spells_nil {kind : PatternKind} : ¬Spells resolver [] kind := by
  have read4 : parseIPv4 [] = none := by decide
  intro spells
  generalize same : ([] : Bytes) = text at spells
  cases spells with
  | all | suffix _ => cases same
  | cidr4 _ _ _ _ | cidr6 _ _ _ _ => simp at same
  | ip4 read => cases read4.symm.trans (same ▸ parseIPv4_eq_some_iff.mpr read)
  | ip6 read => cases resolver.parseIPv6_nil.symm.trans (same ▸ read)
  | name _ nonempty => exact nonempty same.symm

theorem exists_bracketed_iff :
    (∃ inner behind, Bracketed raw inner behind) ↔ raw.head? = some 91 ∧ 93 ∈ raw := by
  constructor
  · rintro ⟨inner, behind, rfl, -⟩
    simp
  · rintro ⟨first, closed⟩
    obtain ⟨text, rfl⟩ := head?_eq_some_iff.mp first
    obtain ⟨inner, behind, rfl, cut⟩ :=
      eq_append_cons_of_mem ((mem_cons.mp closed).resolve_left (by decide))
    exact ⟨inner, behind, rfl, cut⟩

theorem splitPatternPort_bracketed {inner behind : Bytes} (whole : Bracketed raw inner behind) :
    splitPatternPort raw = (inner, portBehind behind) := by
  rw [splitPatternPort, if_pos (exists_bracketed_iff.mp ⟨inner, behind, whole⟩)]
  obtain ⟨rfl, cut⟩ := whole
  have cutBehind : (91 :: (inner ++ 93 :: behind)).drop (inner.length + 2) = behind := by simp
  simp only [tail_cons, takeWhile_of_cut cut, cutBehind]

theorem splitPatternPort_of_written {port : UInt16} (written : Written raw pattern port) :
    splitPatternPort raw = (pattern, port) := by
  cases written with
  | plain unbracketed colons =>
    rw [splitPatternPort, if_neg (exists_bracketed_iff.not.mp unbracketed), if_neg colons]
  | @port _ portStr _ unbracketed before behind numeral =>
    have colons : (pattern ++ 58 :: portStr).count 58 = 1 := by
      simp [count_eq_zero_of_not_mem before, count_eq_zero_of_not_mem behind]
    have cutBehind : (pattern ++ 58 :: portStr).drop (pattern.length + 1) = portStr := by simp
    rw [splitPatternPort, if_neg (exists_bracketed_iff.not.mp unbracketed), if_pos colons]
    simp only [takeWhile_of_cut before, cutBehind, parsePort_eq_some_iff.mpr numeral]
  | bracketed whole => exact splitPatternPort_bracketed whole
  | bracketedPort whole numeral =>
    rw [splitPatternPort_bracketed whole, portBehind, parsePort_eq_some_iff.mpr numeral]
    rfl

/-- A flag has a written form, or its pattern is what stands in brackets or everything. -/
theorem written_or_misread (raw : Bytes) :
    Written raw (splitPatternPort raw).1 (splitPatternPort raw).2 ∨
      (Request.netAllow raw).Misread (splitPatternPort raw).1 := by
  by_cases form : ∃ pattern port, Written raw pattern port
  · obtain ⟨pattern, port, written⟩ := form
    left
    rwa [splitPatternPort_of_written written]
  · right
    refine ⟨fun pattern port written => form ⟨pattern, port, written⟩, ?_⟩
    by_cases bracketed : ∃ inner behind, Bracketed raw inner behind
    · obtain ⟨inner, behind, whole⟩ := bracketed
      exact .inl ⟨behind, splitPatternPort_bracketed whole ▸ whole⟩
    · refine .inr ⟨bracketed, ?_⟩
      rw [splitPatternPort, if_neg (exists_bracketed_iff.not.mp bracketed)]
      split
      next colons =>
        obtain ⟨before, portStr, rfl, cut⟩ := eq_append_cons_of_mem
          (count_pos_iff.mp (colons ▸ Nat.one_pos : 0 < raw.count 58))
        have cutBehind : (before ++ 58 :: portStr).drop (before.length + 1) = portStr := by simp
        simp only [takeWhile_of_cut cut, cutBehind]
        split
        next port read =>
          have alone : 58 ∉ portStr := by
            simpa [count_eq_zero_of_not_mem cut, count_eq_zero] using colons
          exact absurd ⟨_, _, .port bracketed cut alone (parsePort_eq_some_iff.mp read)⟩ form
        · rfl
      · rfl

variable {policy : PolicyState} {request : Request}

/-- A request is refused for the number of rules or for its pattern, or adds its rule. -/
theorem add_cases (resolver : Resolver IpAddress) (policy : PolicyState) (request : Request) :
    ((maxPolicyRules ≤ policy.rules.length ∨ patternKind resolver request.asks.2.1 = none) ∧
      ∃ code, code ≠ 0 ∧ request.add resolver policy = (code, policy)) ∨
    ∃ kind next, policy.rules.length < maxPolicyRules ∧
      patternKind resolver request.asks.2.1 = some kind ∧
      request.add resolver policy = (0, next) ∧
      next.rules = ⟨request.asks.1, ⟨kind, request.asks.2.2⟩⟩ :: policy.rules := by
  by_cases full : maxPolicyRules ≤ policy.rules.length
  · refine .inl ⟨.inl full, ?_⟩
    cases request <;> simp [Request.add, addRuleTo, full]
  · cases known : patternKind resolver request.asks.2.1 with
    | none =>
      refine .inl ⟨.inr rfl, ?_⟩
      cases request <;> simp [Request.add, addRuleTo, full, buildPolicyRule, known]
    | some kind =>
      have room := Nat.lt_of_not_le full
      refine .inr ⟨kind, ⟨⟨request.asks.1, kind, request.asks.2.2⟩ :: policy.rules, room⟩, room,
        rfl, ?_⟩
      cases request <;> simp [Request.add, addRuleTo, full, buildPolicyRule, known]

theorem asks_of_gives {port : UInt16} (gives : request.Gives pattern port) :
    request.asks.2 = (pattern, port) := by
  cases request with
  | netAllow value => exact splitPatternPort_of_written gives
  | netPolicyAdd action given number =>
    obtain ⟨rfl, rfl⟩ := gives
    have small := port.toNat_lt
    refine congrArg (pattern, ·) ?_
    split
    next outside =>
      have isZero : port.toNat = 0 := by omega
      exact (UInt16.toNat_inj.mp isZero).symm
    next => simp

theorem gives_or_misread (request : Request) :
    request.Gives request.asks.2.1 request.asks.2.2 ∨ request.Misread request.asks.2.1 := by
  cases request with
  | netAllow value => exact written_or_misread value
  | netPolicyAdd action given number =>
    by_cases inside : 0 ≤ number ∧ number ≤ 65535
    · left
      refine ⟨rfl, ?_⟩
      simp only [Request.asks]
      split
      next zero =>
        change (0 : ℤ) = number
        omega
      next =>
        rw [UInt16.toNat_ofNat_of_lt' (by simp [UInt16.size]; omega)]
        omega
    · refine .inr ⟨fun pattern port gives => inside ?_, rfl⟩
      have small := port.toNat_lt
      have same : (port.toNat : ℤ) = number := gives.2
      omega

theorem asks_of_misread (misread : request.Misread pattern) : request.asks.2.1 = pattern := by
  cases request with
  | netPolicyAdd action given number => exact misread.2.symm
  | netAllow value =>
    obtain ⟨unwritten, ⟨behind, whole⟩ | ⟨unbracketed, rfl⟩⟩ := misread
    · exact congrArg Prod.fst (splitPatternPort_bracketed whole)
    · rcases written_or_misread pattern with written | ⟨-, ⟨behind, whole⟩ | ⟨-, same⟩⟩
      · exact absurd written (unwritten _ _)
      · exact absurd ⟨_, _, whole⟩ unbracketed
      · exact same

/-- A rule is never wider than its specification when the list of rules is full, or when a request
without a readable port is refused for its pattern and no request gives the empty pattern. -/
theorem exactlySpecified_iff (resolver : Resolver IpAddress) (policy : PolicyState)
    (request : Request) :
    request.Exact resolver policy ↔
      maxPolicyRules ≤ policy.rules.length ∨
        (∀ pattern, request.Misread pattern → patternKind resolver pattern = none) ∧
          ∀ port, ¬request.Gives [] port := by
  rcases add_cases resolver policy request with
    ⟨refuses, refused⟩ | ⟨kind, next, room, known, added, rules⟩
  · refine iff_of_true (.inl refused) (refuses.imp_right fun unread => ?_)
    constructor
    · intro pattern misread
      rwa [asks_of_misread misread] at unread
    · intro port gives
      rw [asks_of_gives gives] at unread
      cases (patternKind_nil resolver).symm.trans unread
  · have unfilled := Nat.not_le_of_lt room
    constructor
    · rintro (⟨code, failed, same⟩ | ⟨_, pattern, port, kind', _, gives, spells, _⟩)
      · exact absurd (Prod.mk.inj (added.symm.trans same)).1.symm failed
      · refine .inr ⟨fun _ misread => absurd gives (misread.1 pattern port), fun _ empty => ?_⟩
        have same := (asks_of_gives gives).symm.trans (asks_of_gives empty)
        obtain rfl := (Prod.mk.inj same).1
        exact not_spells_nil spells
    · rintro (full | ⟨unread, nonempty⟩)
      · exact absurd full unfilled
      · rcases gives_or_misread request with gives | misread
        · refine .inr ⟨next, _, _, kind, added, gives, spells_of_patternKind ?_ known, ?_⟩
          · intro empty
            exact nonempty _ (empty ▸ gives)
          · intro address host portStr asked split parsed
            simp only
            rw [matchPolicy_iff resolver split parsed, matchPolicy_iff resolver split parsed, rules,
              Rulings.allows_cons_iff, Pattern.Reads, PatternKind.holds_iff]
        · cases (unread _ misread).symm.trans known

/-- The policy that requests leave, one after another. -/
def addAll (resolver : Resolver IpAddress) (policy : PolicyState) (requests : List Request) :
    PolicyState :=
  requests.foldl (fun policy request => (request.add resolver policy).2) policy

theorem matchPolicy_add (resolver : Resolver IpAddress) (policy : PolicyState) (request : Request)
    (address : Bytes) :
    let decision := matchPolicy resolver (request.add resolver policy).2 address false
    decision = matchPolicy resolver policy address false ∨
      decision = decide (request.asks.1 = .allow) := by
  dsimp only
  rcases add_cases resolver policy request with
    ⟨-, code, -, refused⟩ | ⟨kind, next, -, -, added, rules⟩
  · rw [refused]
    exact .inl rfl
  · rw [added]
    cases split : splitAddress address with
    | none => exact .inl (by simp [matchPolicy, split])
    | some parts =>
      cases parsed : parsePort parts.2 with
      | none => exact .inl (by simp [matchPolicy, split, parsed])
      | some port =>
        have decides : matchPolicy resolver next address false = true ↔ _ :=
          matchPolicy_iff resolver split parsed
        rw [rules, Rulings.allows_cons_iff, ← matchPolicy_iff resolver split parsed] at decides
        by_cases applies : Pattern.Reads (readHost resolver (stripBrackets parts.1)) port
          ⟨kind, request.asks.2.2⟩
        · right
          rw [Bool.eq_iff_iff, decides, decide_eq_true_iff]
          tauto
        · left
          rw [Bool.eq_iff_iff, decides]
          tauto

/-- In whatever order and number requests are made, the decision about an address is the one from
before or the action of one of them: where all deny nothing more is allowed, and where all allow
nothing less. -/
theorem matchPolicy_addAll (resolver : Resolver IpAddress) (policy : PolicyState)
    (requests : List Request) (address : Bytes) :
    let decision := matchPolicy resolver (addAll resolver policy requests) address false
    decision = matchPolicy resolver policy address false ∨
      ∃ request ∈ requests, decision = decide (request.asks.1 = .allow) := by
  induction requests generalizing policy with
  | nil => exact .inl rfl
  | cons request requests ih =>
    rcases ih (request.add resolver policy).2 with same | ⟨later, isLater, decided⟩
    · rcases matchPolicy_add resolver policy request address with kept | decided
      · exact .inl (same.trans kept)
      · exact .inr ⟨request, mem_cons_self, same.trans decided⟩
    · exact .inr ⟨later, mem_cons_of_mem _ isLater, decided⟩

/-- The port 70000 stands for any port. -/
theorem not_exactlySpecified :
    ¬∀ resolver policy request, Request.Exact resolver policy request := by
  intro always
  rcases always ⟨fun _ => none, fun _ => false, fun _ _ => none, rfl, rfl⟩ .empty
    (.netPolicyAdd 1 (literal "*") 70000) with
    ⟨code, failed, same⟩ | ⟨_, _, port, _, _, gives, _, _⟩
  · exact failed (Prod.mk.inj same).1.symm
  · have small := port.toNat_lt
    have large : (port.toNat : ℤ) = 70000 := gives.2
    omega

end Gengo.Network
