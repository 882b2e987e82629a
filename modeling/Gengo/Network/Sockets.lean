import Gengo.Bits.Prefixes
import Gengo.Bytecode.Value
import Gengo.Fallible.Sequencing
import Gengo.Rulings.LatestMatch

/-!
# Network addresses

How the text of an address is read: the port behind the last colon, the brackets around the host,
and the four numbers of an IPv4 literal. The sixteen bytes of an IPv6 literal are read by the
standard library.
-/

namespace Gengo.Network

open Bits (AgreeOn prefixMask)
open Bytecode (Bytes literal)

/-- `std.fmt.charToDigit` in base ten. -/
def charToDigit (c : UInt8) : Option ℕ :=
  if 48 ≤ c ∧ c ≤ 57 then some (c.toNat - 48) else none

/-- The digits of an unsigned number up to `limit`, below what has been read. Underscores between
digits are passed over, and the digits behind a minus are all zero. -/
def accumulate (limit : ℕ) (negative : Bool) (read : ℕ) : Bytes → Option ℕ
  | [] => some read
  | c :: rest =>
    if c = 95 then accumulate limit negative read rest
    else
      match charToDigit c with
      | none => none
      | some digit =>
        if negative ∧ digit ≠ 0 then none
        else if limit < read * 10 + digit then none
        else accumulate limit negative (read * 10 + digit) rest

/-- `parseIntWithSign` for the unsigned numbers up to `limit`, in base ten. -/
def parseIntWithSign (limit : ℕ) (negative : Bool) (buf : Bytes) : Option ℕ :=
  if buf = [] then none
  else if buf.head? = some 95 ∨ buf.getLast? = some 95 then none
  else accumulate limit negative 0 buf

def parseUnsigned (limit : ℕ) (buf : Bytes) : Option ℕ :=
  parseIntWithSign limit false buf

/-- `parseInt` takes a sign even where the number is unsigned. -/
def parseInt (limit : ℕ) : Bytes → Option ℕ
  | 43 :: digits => parseIntWithSign limit false digits
  | 45 :: digits => parseIntWithSign limit true digits
  | digits => parseIntWithSign limit false digits

structure Ip4 where
  a : UInt8
  b : UInt8
  c : UInt8
  d : UInt8
  deriving DecidableEq, Repr

abbrev Ip6 :=
  Vector UInt8 16

def Ip4.bytes (ip : Ip4) : Bytes :=
  [ip.a, ip.b, ip.c, ip.d]

/-- The IPv4-mapped IPv6 address of an IPv4 address. -/
def Ip4.mapped (ip : Ip4) : Ip6 :=
  #v[0, 0, 0, 0, 0, 0, 0, 0, 0, 0, 255, 255, ip.a, ip.b, ip.c, ip.d]

def Ip4.any : Ip4 :=
  ⟨0, 0, 0, 0⟩

def Ip6.any : Ip6 :=
  Vector.replicate 16 0

def parseIPv4 (s : Bytes) : Option Ip4 :=
  match (s.splitOn 46).mapM (parseInt 255) with
  | some [a, b, c, d] => some ⟨.ofNat a, .ofNat b, .ofNat c, .ofNat d⟩
  | _ => none

/-- What stands before and behind the last colon. -/
def splitAddress (address : Bytes) : Option (Bytes × Bytes) :=
  match address.reverse.dropWhile (· ≠ 58) with
  | [] => none
  | _ :: before => some (before.reverse, (address.reverse.takeWhile (· ≠ 58)).reverse)

def parsePort (portStr : Bytes) : Option UInt16 :=
  (parseUnsigned 65535 portStr).map .ofNat

/-- Strip IPv6 brackets. -/
def stripBrackets (host : Bytes) : Bytes :=
  if 2 ≤ host.length ∧ host.head? = some 91 ∧ host.getLast? = some 93 then host.tail.dropLast
  else host

example : splitAddress (literal "[::1]:8_0") = some (literal "[::1]", literal "8_0") := by
  decide +kernel

/-- `std.ascii.toLower`. -/
def toLower (c : UInt8) : UInt8 :=
  if 65 ≤ c ∧ c ≤ 90 then c + 32 else c

def eqlIgnoreCase (a b : Bytes) : Bool :=
  a.map toLower == b.map toLower

def endsWithIgnoreCase (haystack suffix : Bytes) : Bool :=
  if haystack.length < suffix.length then false
  else eqlIgnoreCase (haystack.drop (haystack.length - suffix.length)) suffix

theorem endsWithIgnoreCase_iff {haystack suffix : Bytes} :
    endsWithIgnoreCase haystack suffix = true ↔ suffix.map toLower <:+ haystack.map toLower := by
  rw [List.suffix_iff_eq_drop, List.length_map, List.length_map, ← List.map_drop]
  by_cases short : haystack.length < suffix.length
  · rw [endsWithIgnoreCase, if_pos short]
    refine iff_of_false (by simp) fun same => ?_
    have sameLength := congrArg List.length same
    simp only [List.length_map, List.length_drop] at sameLength
    omega
  · rw [endsWithIgnoreCase, if_neg short, eqlIgnoreCase, beq_iff_eq, eq_comm]

/-- `std.mem.readInt` of the four bytes, the highest first. -/
def Ip4.readInt (ip : Ip4) : BitVec 32 :=
  Bits.ofBytes ip.bytes

def ipv4InCidr (ip network : Ip4) (prefixLen : ℕ) : Bool :=
  if prefixLen = 0 then true
  else
    let mask := prefixMask 32 prefixLen
    ip.readInt &&& mask == network.readInt &&& mask

/-- The loop of `ipv6InCidr` over the bytes that are left. -/
def bytesInCidr (remaining : ℕ) : Bytes → Bytes → Bool
  | x :: ip, y :: network =>
    if remaining = 0 then true
    else
      let bits := min remaining 8
      let mask := prefixMask 8 bits
      if x.toBitVec &&& mask ≠ y.toBitVec &&& mask then false
      else bytesInCidr (remaining - bits) ip network
  | _, _ => true

def ipv6InCidr (ip network : Ip6) (prefixLen : ℕ) : Bool :=
  if prefixLen = 0 then true else bytesInCidr prefixLen ip.toList network.toList

/-- An IPv4 range holds the addresses whose first bits are those of its own. -/
theorem ipv4InCidr_iff {ip network : Ip4} {prefixLen : ℕ} (fits : prefixLen ≤ 32) :
    ipv4InCidr ip network prefixLen = true ↔ AgreeOn prefixLen ip.bytes network.bytes := by
  by_cases whole : prefixLen = 0
  · simp [ipv4InCidr, whole]
  · rw [ipv4InCidr, if_neg whole, beq_iff_eq]
    refine (Bits.and_prefixMask_eq_iff fits).trans ?_
    exact forall₂_congr fun i _ => by
      rw [← Bits.getMsbD_ofBytes ip.bytes, ← Bits.getMsbD_ofBytes network.bytes]
      rfl

theorem bytesInCidr_iff {remaining : ℕ} {ip network : Bytes} (length : ip.length = network.length)
    (fits : remaining ≤ 8 * ip.length) :
    bytesInCidr remaining ip network = true ↔ AgreeOn remaining ip network := by
  induction ip generalizing remaining network with
  | nil =>
    obtain rfl : remaining = 0 := by simpa using fits
    simp [bytesInCidr]
  | cons x ip ih =>
    cases network with
    | nil => exact absurd length (by simp)
    | cons y network =>
      have sameLength : ip.length = network.length := by simpa using length
      rw [bytesInCidr, Bits.agreeOn_cons_iff,
        ← Bits.and_prefixMask_eq_iff (Nat.min_le_right remaining 8)]
      by_cases done : remaining = 0
      · simp [done, prefixMask]
      · have left : remaining - min remaining 8 = remaining - 8 := by omega
        have rest : bytesInCidr (remaining - 8) ip network = true ↔
            AgreeOn (remaining - 8) ip network :=
          ih sameLength (by rw [List.length_cons] at fits; omega)
        rw [if_neg done, ← rest, ← left]
        by_cases here : x.toBitVec &&& prefixMask 8 (min remaining 8) =
            y.toBitVec &&& prefixMask 8 (min remaining 8)
        · simp [here]
        · simp [here]

/-- An IPv6 range holds the addresses whose first bits are those of its own. -/
theorem ipv6InCidr_iff {ip network : Ip6} {prefixLen : ℕ} (fits : prefixLen ≤ 128) :
    ipv6InCidr ip network prefixLen = true ↔ AgreeOn prefixLen ip.toList network.toList := by
  by_cases whole : prefixLen = 0
  · simp [ipv6InCidr, whole]
  · rw [ipv6InCidr, if_neg whole, bytesInCidr_iff (by simp) (by simpa using fits)]

/-!
# Network policies

A policy is a stack of rules, and the latest rule that matches an address decides about it. What a
rule matches is read from the text of its pattern, and the host of an address from the text of the
address.
-/

open Rulings (Action Allows Rule)

/-- `MaxPolicyRules`. -/
def maxPolicyRules : ℕ :=
  32

/-- What the pattern of a rule matches. Names fit into the buffer of a rule, and the length of a
prefix into its address. -/
inductive PatternKind
  | matchAll
  | hostnameExact (data : Bytes) (fits : data.length ≤ 63)
  | wildcardSuffix (data : Bytes) (fits : data.length ≤ 63)
  | ipv4Exact (ip : Ip4)
  | ipv4Cidr (network : Ip4) (prefixLen : ℕ) (fits : prefixLen ≤ 32)
  | ipv6Exact (ip : Ip6)
  | ipv6Cidr (network : Ip6) (prefixLen : ℕ) (fits : prefixLen ≤ 128)
  deriving DecidableEq

/-- The port zero stands for any port. -/
structure Pattern where
  kind : PatternKind
  port : UInt16
  deriving DecidableEq

abbrev NetPolicyRule :=
  Rule Pattern

/-- The rules of a policy, the latest one first. -/
structure PolicyState where
  rules : List NetPolicyRule
  fits : rules.length ≤ maxPolicyRules

def PolicyState.empty : PolicyState :=
  ⟨[], Nat.zero_le _⟩

/-- What the standard library makes of a text: the bytes of an IPv6 literal, whether a name is
well formed, and the addresses that a name has at some port. The empty text is neither a literal
nor a name. -/
structure Resolver (Address : Type) where
  parseIPv6 : Bytes → Option Ip6
  validate : Bytes → Bool
  lookup : Bytes → UInt16 → Option (List Address)
  parseIPv6_nil : parseIPv6 [] = none
  validate_nil : validate [] = false

variable {Address : Type} (resolver : Resolver Address)

/-- The pattern of a name or of a suffix has to fit into the buffer of a rule. -/
def nameKind (kind : (data : Bytes) → data.length ≤ 63 → PatternKind) (data : Bytes) :
    Option PatternKind :=
  if fits : data.length ≤ 63 then some (kind data fits) else none

def cidrKind (addrPart : Bytes) (prefixLen : ℕ) : Option PatternKind :=
  match parseIPv4 addrPart with
  | some ip4 => if fits : prefixLen ≤ 32 then some (.ipv4Cidr ip4 prefixLen fits) else none
  | none =>
    match resolver.parseIPv6 addrPart with
    | some ip6 => if fits : prefixLen ≤ 128 then some (.ipv6Cidr ip6 prefixLen fits) else none
    | none => none

def patternKind (pattern : Bytes) : Option PatternKind :=
  if pattern = literal "*" then some .matchAll
  else if (literal "*.").isPrefixOf pattern then nameKind .wildcardSuffix (pattern.drop 1)
  else if 47 ∈ pattern then
    let addrPart := pattern.takeWhile (· ≠ 47)
    match parseInt 255 (pattern.drop (addrPart.length + 1)) with
    | none => none
    | some prefixLen => cidrKind resolver addrPart prefixLen
  else
    match parseIPv4 pattern with
    | some ip4 => some (.ipv4Exact ip4)
    | none =>
      match resolver.parseIPv6 pattern with
      | some ip6 => some (.ipv6Exact ip6)
      | none => nameKind .hostnameExact pattern

def buildPolicyRule (action : Action) (pattern : Bytes) (port : UInt16) : Except ℤ NetPolicyRule :=
  match patternKind resolver pattern with
  | none => .error (-2)
  | some kind => .ok ⟨action, ⟨kind, port⟩⟩

/-- The code that a call returns, and the policy it leaves. -/
def addRuleTo (policy : PolicyState) (action : Action) (pattern : Bytes) (port : UInt16) :
    ℤ × PolicyState :=
  if full : maxPolicyRules ≤ policy.rules.length then (-1, policy)
  else
    match buildPolicyRule resolver action pattern port with
    | .error code => (code, policy)
    | .ok rule => (0, ⟨rule :: policy.rules, Nat.lt_of_not_le full⟩)

/-- The host of an address, with the IP addresses that the rules are compared with. -/
structure HostReading where
  host : Bytes
  ip4 : Option Ip4
  ip6 : Option Ip6
  deriving DecidableEq

/-- An empty host is matched as both spellings of any interface. -/
def readHost (host : Bytes) : HostReading :=
  if host = [] then ⟨host, some .any, some .any⟩
  else
    match parseIPv4 host with
    | some ip4 => ⟨host, some ip4, none⟩
    | none => ⟨host, none, resolver.parseIPv6 host⟩

def PatternKind.matchesHost (reading : HostReading) : PatternKind → Bool
  | .matchAll => true
  | .hostnameExact data _ => eqlIgnoreCase reading.host data
  | .wildcardSuffix data _ => endsWithIgnoreCase reading.host data
  | .ipv4Exact ip => reading.ip4.any (· == ip)
  | .ipv4Cidr network prefixLen _ => reading.ip4.any (ipv4InCidr · network prefixLen)
  | .ipv6Exact ip => reading.ip6.any (· == ip)
  | .ipv6Cidr network prefixLen _ => reading.ip6.any (ipv6InCidr · network prefixLen)

def matchRules (reading : HostReading) (port : UInt16) (defaultAllow : Bool) :
    List NetPolicyRule → Bool
  | [] => defaultAllow
  | rule :: rules =>
    if rule.pattern.port ≠ 0 ∧ rule.pattern.port ≠ port then
      matchRules reading port defaultAllow rules
    else if rule.pattern.kind.matchesHost reading then rule.action == .allow
    else matchRules reading port defaultAllow rules

def matchPolicy (policy : PolicyState) (address : Bytes) (defaultAllow : Bool) : Bool :=
  if policy.rules = [] then defaultAllow
  else
    match splitAddress address with
    | none => defaultAllow
    | some (host, portStr) =>
      match parsePort portStr with
      | none => defaultAllow
      | some port =>
        matchRules (readHost resolver (stripBrackets host)) port defaultAllow policy.rules

/-- A pattern applies to a port and matches what is read of a host. -/
def Pattern.Reads (reading : HostReading) (port : UInt16) (pattern : Pattern) : Prop :=
  (pattern.port = 0 ∨ pattern.port = port) ∧ pattern.kind.matchesHost reading = true

theorem matchRules_iff {reading : HostReading} {port : UInt16} {rules : List NetPolicyRule} :
    matchRules reading port false rules = true ↔ Allows (Pattern.Reads reading port) rules := by
  induction rules with
  | nil => simp [matchRules]
  | cons rule rules ih =>
    rw [matchRules, Rulings.allows_cons_iff, ← ih]
    by_cases elsewhere : rule.pattern.port ≠ 0 ∧ rule.pattern.port ≠ port
    · rw [if_pos elsewhere]
      simp [Pattern.Reads, elsewhere]
    · have applies : rule.pattern.port = 0 ∨ rule.pattern.port = port := by
        by_contra neither
        exact elsewhere (not_or.mp neither)
      rw [if_neg elsewhere]
      by_cases hit : rule.pattern.kind.matchesHost reading = true
      · simp [Pattern.Reads, applies, hit]
      · simp [Pattern.Reads, hit]

/-- The rulings of a policy on an address whose host and port can be read. -/
theorem matchPolicy_iff {policy : PolicyState} {address host portStr : Bytes} {port : UInt16}
    (split : splitAddress address = some (host, portStr)) (parsed : parsePort portStr = some port) :
    matchPolicy resolver policy address false = true ↔
      Allows (Pattern.Reads (readHost resolver (stripBrackets host)) port) policy.rules := by
  rw [matchPolicy, split]
  simp only [parsed]
  by_cases empty : policy.rules = []
  · simp [empty]
  · rw [if_neg empty, matchRules_iff]

/-!
# Opening sockets

Dialing and listening parse the address again once the policy has let it through, and end with the
socket address that is connected or bound. A script reaches them through the capability, which
asks for its scope and for the policy first.
-/

open Fallible (bind_eq_ok mapError_eq_ok refuse refuse_eq_ok)

/-- `MaxConns`. -/
def maxConns : ℕ :=
  16

/-- `MaxListeners`. -/
def maxListeners : ℕ :=
  8

/-- A socket address, without its port. -/
inductive IpAddress
  | ip4 (bytes : Ip4)
  | ip6 (bytes : Ip6)
  deriving DecidableEq

structure SocketAddress where
  ip : IpAddress
  port : UInt16
  deriving DecidableEq

/-- The two ways in which a script opens sockets. -/
inductive Operation
  | dial
  | listen
  deriving DecidableEq, Repr

/-- The errors that stand before the opening of a socket. -/
inductive NetError
  | tooManyConnections
  | tooManyListeners
  | unsupportedNetwork (network : Bytes)
  | invalidAddress (address : Bytes)
  | invalidPort (portStr address : Bytes)
  | ip4NotValid (host : Bytes)
  | ip6NotValid (host : Bytes)
  | invalidHostname (host : Bytes)
  | resolutionFailed (host : Bytes)
  | noAddresses (host : Bytes)
  | notLiteral (host : Bytes)
  deriving DecidableEq

def supportsNetwork (network : Bytes) : Bool :=
  network == literal "tcp" || network == literal "tcp4" || network == literal "tcp6"

/-- The address is split, its port read, and the brackets of its host stripped. -/
def parseAddress (address : Bytes) : Except NetError (Bytes × UInt16) :=
  match splitAddress address with
  | none => .error (.invalidAddress address)
  | some (host, portStr) =>
    match parsePort portStr with
    | none => .error (.invalidPort portStr address)
    | some port => .ok (stripBrackets host, port)

variable (resolver : Resolver IpAddress)

/-- The first of the addresses that a name has. -/
def resolveName (host : Bytes) (port : UInt16) : Except NetError IpAddress :=
  if ¬resolver.validate host then .error (.invalidHostname host)
  else
    match resolver.lookup host port with
    | none => .error (.resolutionFailed host)
    | some [] => .error (.noAddresses host)
    | some (ip :: _) => .ok ip

def dialIp (network host : Bytes) (port : UInt16) : Except NetError IpAddress :=
  match parseIPv4 host with
  | some v4 => if network = literal "tcp6" then .error (.ip4NotValid host) else .ok (.ip4 v4)
  | none =>
    match resolver.parseIPv6 host with
    | some v6 => if network = literal "tcp4" then .error (.ip6NotValid host) else .ok (.ip6 v6)
    | none => resolveName resolver host port

def listenIp (network host : Bytes) : Except NetError IpAddress :=
  if host = [] then .ok (if network = literal "tcp6" then .ip6 .any else .ip4 .any)
  else
    match parseIPv4 host with
    | some ip4 => if network = literal "tcp6" then .error (.ip4NotValid host) else .ok (.ip4 ip4)
    | none =>
      match resolver.parseIPv6 host with
      | some ip6 =>
        if network = literal "tcp4" then .error (.ip6NotValid host) else .ok (.ip6 ip6)
      | none => .error (.notLiteral host)

/-- The IP address that an operation makes of a host. -/
def Operation.ip (network host : Bytes) (port : UInt16) : Operation → Except NetError IpAddress
  | .dial => dialIp resolver network host port
  | .listen => listenIp resolver network host

/-- What dialing and listening do with their arguments before they open a socket. -/
def socketAddress (operation : Operation) (network address : Bytes) :
    Except NetError SocketAddress := do
  refuse (¬supportsNetwork network) (.unsupportedNetwork network)
  let (host, port) ← parseAddress address
  let ip ← operation.ip resolver network host port
  return ⟨ip, port⟩

/-- The state of an engine that has no host handlers. -/
structure NetEngineState where
  policy : PolicyState
  listenPolicy : PolicyState
  connCount : ℕ
  listenerCount : ℕ

def netDial (state : NetEngineState) (network address : Bytes) :
    Except NetError SocketAddress := do
  refuse (maxConns ≤ state.connCount) .tooManyConnections
  socketAddress resolver .dial network address

def netListen (state : NetEngineState) (network address : Bytes) :
    Except NetError SocketAddress := do
  refuse (maxListeners ≤ state.listenerCount) .tooManyListeners
  socketAddress resolver .listen network address

def checkDialPolicy (state : NetEngineState) (address : Bytes) : Bool :=
  matchPolicy resolver state.policy address false

def checkListenPolicy (state : NetEngineState) (address : Bytes) : Bool :=
  matchPolicy resolver state.listenPolicy address false

/-- Why a call of the capability opens no socket. -/
inductive Refusal
  | scopeNotGranted
  | refusedByPolicy
  | failed (err : NetError)
  deriving DecidableEq

/-- The scopes of the capability that a script has been granted. -/
structure NetScopes where
  dial : Bool
  listen : Bool

def capDial (scopes : NetScopes) (state : NetEngineState) (network address : Bytes) :
    Except Refusal SocketAddress := do
  refuse (¬scopes.dial) .scopeNotGranted
  refuse (¬checkDialPolicy resolver state address) .refusedByPolicy
  (netDial resolver state network address).mapError .failed

def capListen (scopes : NetScopes) (state : NetEngineState) (network address : Bytes) :
    Except Refusal SocketAddress := do
  refuse (¬scopes.listen) .scopeNotGranted
  refuse (¬checkListenPolicy resolver state address) .refusedByPolicy
  (netListen resolver state network address).mapError .failed

/-- The policy that an operation asks. -/
def Operation.policy (state : NetEngineState) : Operation → PolicyState
  | .dial => state.policy
  | .listen => state.listenPolicy

/-- The socket that a call of the capability goes on to open. -/
def Operation.opens (scopes : NetScopes) (state : NetEngineState) (network address : Bytes) :
    Operation → Except Refusal SocketAddress
  | .dial => capDial resolver scopes state network address
  | .listen => capListen resolver scopes state network address

variable {resolver}

theorem parseAddress_eq_ok {address host : Bytes} {port : UInt16}
    (parsed : parseAddress address = .ok (host, port)) :
    ∃ whole portStr, splitAddress address = some (whole, portStr) ∧
      parsePort portStr = some port ∧ host = stripBrackets whole := by
  unfold parseAddress at parsed
  split at parsed
  · cases parsed
  next whole portStr split =>
    split at parsed
    · cases parsed
    next port' read =>
      cases parsed
      exact ⟨whole, portStr, split, read, rfl⟩

variable {operation : Operation} {network : Bytes} {socket : SocketAddress}

theorem socketAddress_eq_ok {address : Bytes}
    (made : socketAddress resolver operation network address = .ok socket) :
    ∃ host, parseAddress address = .ok (host, socket.port) ∧
      operation.ip resolver network host socket.port = .ok socket.ip := by
  rcases bind_eq_ok.mp made with ⟨_, _, parsing⟩
  rcases bind_eq_ok.mp parsing with ⟨⟨host, port⟩, parsed, rest⟩
  rcases bind_eq_ok.mp rest with ⟨ip, resolved, same⟩
  cases same
  exact ⟨host, parsed, resolved⟩

variable {scopes : NetScopes} {state : NetEngineState}

theorem capDial_eq_ok {address : Bytes} :
    capDial resolver scopes state network address = .ok socket ↔
      scopes.dial = true ∧ matchPolicy resolver state.policy address false = true ∧
        state.connCount < maxConns ∧ socketAddress resolver .dial network address = .ok socket := by
  simp only [capDial, netDial, bind_eq_ok, mapError_eq_ok, refuse_eq_ok, not_not, not_le,
    exists_const]
  rfl

theorem capListen_eq_ok {address : Bytes} :
    capListen resolver scopes state network address = .ok socket ↔
      scopes.listen = true ∧ matchPolicy resolver state.listenPolicy address false = true ∧
        state.listenerCount < maxListeners ∧
          socketAddress resolver .listen network address = .ok socket := by
  simp only [capListen, netListen, bind_eq_ok, mapError_eq_ok, refuse_eq_ok, not_not, not_le,
    exists_const]
  rfl

theorem opens_eq_ok {address : Bytes}
    (opened : operation.opens resolver scopes state network address = .ok socket) :
    matchPolicy resolver (operation.policy state) address false = true ∧
      socketAddress resolver operation network address = .ok socket := by
  cases operation with
  | dial =>
    rcases capDial_eq_ok.mp opened with ⟨_, allowed, _, made⟩
    exact ⟨allowed, made⟩
  | listen =>
    rcases capListen_eq_ok.mp opened with ⟨_, allowed, _, made⟩
    exact ⟨allowed, made⟩

/-- An engine with the scopes and a free place opens what its policy allows. -/
theorem exists_opens {policy : PolicyState} {address : Bytes}
    (allowed : matchPolicy resolver policy address false = true)
    (made : socketAddress resolver operation network address = .ok socket) :
    ∃ scopes state, operation.policy state = policy ∧
      operation.opens resolver scopes state network address = .ok socket := by
  refine ⟨⟨true, true⟩, ⟨policy, policy, 0, 0⟩, ?_⟩
  cases operation with
  | dial => exact ⟨rfl, capDial_eq_ok.mpr ⟨rfl, allowed, Nat.succ_pos _, made⟩⟩
  | listen => exact ⟨rfl, capListen_eq_ok.mpr ⟨rfl, allowed, Nat.succ_pos _, made⟩⟩

end Gengo.Network
