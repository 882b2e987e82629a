import Gengo.Network.Sockets

/-!
# Decisions by endpoint

A policy is meant to decide about endpoints: an IP address or a name, and a port. An IPv4-mapped
IPv6 literal reaches the IPv4 host, letter case makes no difference to a name, and a range holds
the addresses whose first bits are those of its own. The text of an address decides instead where
a name rule spells a literal, where an address is matched under the other family, and where the
empty host stands for both.
-/

namespace Gengo.Network

open Option Except
open Bits (AgreeOn)
open Bytecode (Bytes literal)
open Rulings (Action Allows)

/-- A host that sockets reach. A name stands in lower case. -/
inductive Host
  | ip4 (ip : Ip4)
  | ip6 (ip : Ip6)
  | name (lowered : Bytes)
  deriving DecidableEq

structure Endpoint where
  host : Host
  port : UInt16
  deriving DecidableEq

/-- The IPv4 address that an IPv4-mapped IPv6 address stands for. -/
def Ip6.unmapped (ip : Ip6) : Option Ip4 :=
  let carried : Ip4 := ⟨ip[12], ip[13], ip[14], ip[15]⟩
  if ip = carried.mapped then some carried else none

theorem Ip6.unmapped_eq_some {ip : Ip6} {carried : Ip4} :
    ip.unmapped = some carried ↔ ip = carried.mapped := by
  constructor
  · intro found
    simp only [Ip6.unmapped] at found
    split at found
    next same =>
      cases found
      exact same
    · cases found
  · rintro rfl
    simp [Ip6.unmapped, Ip4.mapped]

/-- The host that a socket address reaches. -/
def IpAddress.host : IpAddress → Host
  | .ip4 ip => .ip4 ip
  | .ip6 ip =>
    match ip.unmapped with
    | some carried => .ip4 carried
    | none => .ip6 ip

/-- How an address spells its host. -/
inductive Spelling
  | name
  | literal4 (ip : Ip4)
  | literal6 (ip : Ip6)
  | empty4
  | empty6
  deriving DecidableEq

variable (resolver : Resolver IpAddress)

/-- An empty host is of the family that the network asks for. -/
def spelling (network host : Bytes) : Spelling :=
  if host = [] then if network = literal "tcp6" then .empty6 else .empty4
  else
    match parseIPv4 host with
    | some ip => .literal4 ip
    | none =>
      match resolver.parseIPv6 host with
      | some ip => .literal6 ip
      | none => .name

/-- The host that an address denotes: its name up to letter case, or what its socket reaches. -/
def denotedHost (network host : Bytes) (ip : IpAddress) : Host :=
  match spelling resolver network host with
  | .name => .name (host.map toLower)
  | _ => ip.host

/-- The endpoint that an operation opens a socket for. -/
def endpoint (operation : Operation) (network address : Bytes) : Option Endpoint :=
  match parseAddress address, socketAddress resolver operation network address with
  | .ok (host, _), .ok socket => some ⟨denotedHost resolver network host socket.ip, socket.port⟩
  | _, _ => none

/-- The hosts that a pattern is about. An IPv6 pattern is about IPv4 hosts when it fixes all of
what their mapped addresses have in common. -/
def PatternKind.Denotes : PatternKind → Host → Prop
  | .matchAll, _ => True
  | .hostnameExact data _, .name lowered => lowered = data.map toLower
  | .wildcardSuffix data _, .name lowered => data.map toLower <:+ lowered
  | .ipv4Exact ip, .ip4 reached => reached = ip
  | .ipv4Cidr network prefixLen _, .ip4 reached =>
    AgreeOn prefixLen reached.bytes network.bytes
  | .ipv6Exact ip, .ip4 reached => reached.mapped = ip
  | .ipv6Exact ip, .ip6 reached => reached = ip
  | .ipv6Cidr network prefixLen _, .ip4 reached =>
    96 ≤ prefixLen ∧ AgreeOn prefixLen reached.mapped.toList network.toList
  | .ipv6Cidr network prefixLen _, .ip6 reached =>
    AgreeOn prefixLen reached.toList network.toList
  | _, _ => False

def Pattern.Denotes (target : Endpoint) (pattern : Pattern) : Prop :=
  (pattern.port = 0 ∨ pattern.port = target.port) ∧ pattern.kind.Denotes target.host

/-- The policies that calls of `addRuleTo` build of some patterns and ports. -/
inductive Built (stock : Set (Bytes × UInt16)) : PolicyState → Prop
  | empty : Built stock .empty
  | add {policy : PolicyState} {pattern : Bytes} {port : UInt16} (built : Built stock policy)
      (action : Action) (mem : (pattern, port) ∈ stock) :
      Built stock (addRuleTo resolver policy action pattern port).2

/-- The policies built of some patterns decide by endpoint about some networks and addresses, and
ranges hold the addresses that agree with them on the bits of their prefix. -/
structure DecidesByEndpoint (operation : Operation) (stock : Set (Bytes × UInt16))
    (requests : Set (Bytes × Bytes)) : Prop where
  allowed : ∀ scopes state network address socket, Built resolver stock (operation.policy state) →
    (network, address) ∈ requests →
    operation.opens resolver scopes state network address = .ok socket →
    ∃ target, endpoint resolver operation network address = some target ∧
      Allows (Pattern.Denotes target) (operation.policy state).rules
  alike : ∀ policy network address network' address' target, Built resolver stock policy →
    (network, address) ∈ requests → (network', address') ∈ requests →
    endpoint resolver operation network address = some target →
    endpoint resolver operation network' address' = some target →
    matchPolicy resolver policy address false = matchPolicy resolver policy address' false
  ranges4 : ∀ ip network prefixLen, prefixLen ≤ 32 →
    (ipv4InCidr ip network prefixLen = true ↔ AgreeOn prefixLen ip.bytes network.bytes)
  ranges6 : ∀ ip network prefixLen, prefixLen ≤ 128 →
    (ipv6InCidr ip network prefixLen = true ↔ AgreeOn prefixLen ip.toList network.toList)

/-- A pattern reads a host as what it denotes: a name pattern does not spell a literal or an empty
host, an IPv4 pattern does not hold the address behind an IPv4-mapped literal, nor the IPv4 address
of any interface where the IPv6 one is bound, and an IPv6 pattern does not hold an address whose
host is IPv4, unless the host is spelled as an IPv6 literal and the prefix is long enough. -/
def PatternKind.Faithful (host : Bytes) : PatternKind → Spelling → Prop
  | .matchAll, _ => True
  | _, .name => True
  | .hostnameExact data _, _ => ¬eqlIgnoreCase host data
  | .wildcardSuffix data _, _ => ¬endsWithIgnoreCase host data
  | .ipv4Exact ip, .literal6 spelled => spelled ≠ ip.mapped
  | .ipv4Exact ip, .empty6 => .any ≠ ip
  | .ipv4Cidr network prefixLen _, .literal6 spelled =>
    ∀ carried : Ip4, spelled = carried.mapped → ¬ipv4InCidr carried network prefixLen
  | .ipv4Cidr network prefixLen _, .empty6 => ¬ipv4InCidr .any network prefixLen
  | .ipv6Exact ip, .literal4 spelled => spelled.mapped ≠ ip
  | .ipv6Exact ip, .empty4 => .any ≠ ip ∧ Ip4.any.mapped ≠ ip
  | .ipv6Cidr network prefixLen _, .literal4 spelled =>
    96 ≤ prefixLen → ¬ipv6InCidr spelled.mapped network prefixLen
  | .ipv6Cidr network prefixLen _, .literal6 spelled =>
    prefixLen < 96 → ipv6InCidr spelled network prefixLen →
      ∀ carried : Ip4, spelled ≠ carried.mapped
  | .ipv6Cidr network prefixLen _, .empty4 =>
    ¬ipv6InCidr .any network prefixLen ∧
      (96 ≤ prefixLen → ¬ipv6InCidr Ip4.any.mapped network prefixLen)
  | _, _ => True

/-- The socket address of a host that is no name. -/
def Spelling.ip : Spelling → Option IpAddress
  | .name => none
  | .literal4 spelled => some (.ip4 spelled)
  | .literal6 spelled => some (.ip6 spelled)
  | .empty4 => some (.ip4 .any)
  | .empty6 => some (.ip6 .any)

/-- What the policy reads of a host. -/
def Spelling.reading (host : Bytes) : Spelling → HostReading
  | .name => ⟨host, none, none⟩
  | .literal4 spelled => ⟨host, some spelled, none⟩
  | .literal6 spelled => ⟨host, none, some spelled⟩
  | .empty4 | .empty6 => ⟨host, some .any, some .any⟩

def Spelling.host (host : Bytes) (spelled : Spelling) : Host :=
  match spelled.ip with
  | none => .name (host.map toLower)
  | some ip => ip.host

variable {resolver}

theorem readHost_eq (network host : Bytes) :
    readHost resolver host = (spelling resolver network host).reading host := by
  unfold readHost spelling
  by_cases empty : host = []
  · rw [if_pos empty, if_pos empty]
    split <;> rfl
  · rw [if_neg empty, if_neg empty]
    cases read4 : parseIPv4 host with
    | some ip => rfl
    | none =>
      cases read6 : resolver.parseIPv6 host with
      | some _ | none => simp only [Spelling.reading]

theorem ip_of_spelling {operation : Operation} {network host : Bytes} {port : UInt16}
    {ip : IpAddress} (expected : IpAddress)
    (made : operation.ip resolver network host port = .ok ip)
    (spells : (spelling resolver network host).ip = some expected) : ip = expected := by
  unfold spelling at spells
  by_cases empty : host = []
  · rw [if_pos empty] at spells
    subst empty
    cases operation with
    | dial =>
      have unread : parseIPv4 [] = none := by decide
      simp [Operation.ip, dialIp, unread, resolver.parseIPv6_nil, resolveName,
        resolver.validate_nil] at made
    | listen =>
      simp only [Operation.ip, listenIp, if_true, ok.injEq] at made
      rw [← made]
      split at spells
      next asked =>
        rw [if_pos asked]
        exact some.inj spells
      next asked =>
        rw [if_neg asked]
        exact some.inj spells
  · rw [if_neg empty] at spells
    cases read4 : parseIPv4 host with
    | some read =>
      simp only [read4, Spelling.ip, some.injEq] at spells
      cases operation with
      | dial =>
        simp only [Operation.ip, dialIp, read4] at made
        split at made
        · cases made
        · exact (ok.inj made).symm.trans spells
      | listen =>
        simp only [Operation.ip, listenIp, if_neg empty, read4] at made
        split at made
        · cases made
        · exact (ok.inj made).symm.trans spells
    | none =>
      cases read6 : resolver.parseIPv6 host with
      | none => simp [read4, read6, Spelling.ip] at spells
      | some read =>
        simp only [read4, read6, Spelling.ip, some.injEq] at spells
        cases operation with
        | dial =>
          simp only [Operation.ip, dialIp, read4, read6] at made
          split at made
          · cases made
          · exact (ok.inj made).symm.trans spells
        | listen =>
          simp only [Operation.ip, listenIp, if_neg empty, read4, read6] at made
          split at made
          · cases made
          · exact (ok.inj made).symm.trans spells

theorem denotedHost_eq {operation : Operation} {network host : Bytes} {port : UInt16}
    {ip : IpAddress} (made : operation.ip resolver network host port = .ok ip) :
    denotedHost resolver network host ip = (spelling resolver network host).host host := by
  have leads := fun expected => ip_of_spelling expected made
  unfold denotedHost Spelling.host
  cases spells : spelling resolver network host with
  | name => rfl
  | _ => rw [spells] at leads; rw [leads _ rfl]; rfl

theorem Ip4.mapped_inj {ip ip' : Ip4} : ip.mapped = ip'.mapped ↔ ip = ip' := by
  rw [← Ip6.unmapped_eq_some, Ip6.unmapped_eq_some.mpr rfl, some.injEq]

/-- The IPv6 address of any interface is not the mapped IPv4 one, and their first bits differ. -/
theorem not_agreeOn_any (prefixLen : ℕ) (network : Bytes) (long : 96 ≤ prefixLen)
    (holdsAny : AgreeOn prefixLen Ip6.any.toList network) :
    ¬AgreeOn prefixLen Ip4.any.mapped.toList network := by
  intro holdsMapped
  have differ : ¬AgreeOn 96 Ip6.any.toList Ip4.any.mapped.toList := by decide +kernel
  exact differ fun i inside =>
    (holdsAny.mono long i inside).trans (holdsMapped.mono long i inside).symm

theorem host_literal6 (host : Bytes) (spelled : Ip6) :
    (∃ carried : Ip4, spelled = carried.mapped ∧
        (Spelling.literal6 spelled).host host = .ip4 carried) ∨
      (∀ carried : Ip4, spelled ≠ carried.mapped) ∧
        (Spelling.literal6 spelled).host host = .ip6 spelled := by
  cases carries : spelled.unmapped with
  | some carried =>
    left
    refine ⟨carried, Ip6.unmapped_eq_some.mp carries, ?_⟩
    simp [Spelling.host, Spelling.ip, IpAddress.host, carries]
  | none =>
    right
    constructor
    · intro carried same
      rw [Ip6.unmapped_eq_some.mpr same] at carries
      cases carries
    · simp [Spelling.host, Spelling.ip, IpAddress.host, carries]

theorem host_empty6 (host : Bytes) : Spelling.empty6.host host = .ip6 .any := by
  have unmapped : Ip6.any.unmapped = none := by decide +kernel
  simp [Spelling.host, Spelling.ip, IpAddress.host, unmapped]

/-- Whether a pattern reads a host as what it denotes can be told from how the host is spelled. -/
theorem PatternKind.faithful_iff_matchesHost (kind : PatternKind) (host : Bytes)
    (spelled : Spelling) :
    kind.Faithful host spelled ↔
      (kind.matchesHost (spelled.reading host) = true ↔ kind.Denotes (spelled.host host)) := by
  cases spelled with
  | name =>
    have leads : Spelling.name.host host = .name (host.map toLower) := rfl
    cases kind with
    | wildcardSuffix data fits =>
      simp only [Faithful, matchesHost, Spelling.reading, Denotes, leads, endsWithIgnoreCase_iff]
    | _ => simp [Faithful, matchesHost, Spelling.reading, Denotes, leads, eqlIgnoreCase]
  | literal4 spelled =>
    have leads : (Spelling.literal4 spelled).host host = .ip4 spelled := rfl
    cases kind with
    | ipv4Cidr network prefixLen fits =>
      simp [Faithful, matchesHost, Spelling.reading, Denotes, leads, ipv4InCidr_iff fits]
    | ipv6Cidr network prefixLen fits =>
      simp [Faithful, matchesHost, Spelling.reading, Denotes, leads, ← ipv6InCidr_iff fits]
    | _ => simp [Faithful, matchesHost, Spelling.reading, Denotes, leads]
  | literal6 spelled =>
    rcases host_literal6 host spelled with ⟨carried, rfl, leads⟩ | ⟨plain, leads⟩
    · cases kind with
      | ipv4Cidr network prefixLen fits =>
        simp [Faithful, matchesHost, Spelling.reading, Denotes, leads, Ip4.mapped_inj,
          ← ipv4InCidr_iff fits]
      | ipv6Cidr network prefixLen fits =>
        have carries : ¬∀ other : Ip4, carried.mapped ≠ other.mapped :=
          fun never => never carried rfl
        simp only [Faithful, matchesHost, Spelling.reading, Denotes, leads, carries,
          any_some, ← ipv6InCidr_iff fits, ← not_le]
        tauto
      | _ => simp [Faithful, matchesHost, Spelling.reading, Denotes, leads, Ip4.mapped_inj]
    · cases kind with
      | ipv6Cidr network prefixLen fits =>
        simp [Faithful, matchesHost, Spelling.reading, Denotes, leads, plain, ipv6InCidr_iff fits]
      | _ => simp [Faithful, matchesHost, Spelling.reading, Denotes, leads, plain]
  | empty4 =>
    have leads : Spelling.empty4.host host = .ip4 .any := rfl
    cases kind with
    | ipv4Cidr network prefixLen fits =>
      simp [Faithful, matchesHost, Spelling.reading, Denotes, leads, ipv4InCidr_iff fits]
    | ipv6Exact ip =>
      have differ : Ip6.any = ip → Ip4.any.mapped ≠ ip := by
        rintro rfl
        decide
      simp only [Faithful, matchesHost, Spelling.reading, Denotes, leads, any_some, beq_iff_eq]
      tauto
    | ipv6Cidr network prefixLen fits =>
      have differ := not_agreeOn_any prefixLen network.toList
      simp only [Faithful, matchesHost, Spelling.reading, Denotes, leads, any_some,
        ipv6InCidr_iff fits]
      tauto
    | _ => simp [Faithful, matchesHost, Spelling.reading, Denotes, leads]
  | empty6 =>
    have leads := host_empty6 host
    cases kind with
    | ipv6Cidr network prefixLen fits =>
      simp [Faithful, matchesHost, Spelling.reading, Denotes, leads, ipv6InCidr_iff fits]
    | _ => simp [Faithful, matchesHost, Spelling.reading, Denotes, leads]

theorem endpoint_eq {operation : Operation} {network address : Bytes} {socket : SocketAddress}
    (made : socketAddress resolver operation network address = .ok socket) :
    ∃ host, parseAddress address = .ok (host, socket.port) ∧
      endpoint resolver operation network address =
        some ⟨(spelling resolver network host).host host, socket.port⟩ := by
  rcases socketAddress_eq_ok made with ⟨host, parsed, resolved⟩
  refine ⟨host, parsed, ?_⟩
  simp only [endpoint, parsed, made, denotedHost_eq resolved]

theorem socketAddress_of_endpoint {operation : Operation} {network address : Bytes}
    {target : Endpoint} (denoted : endpoint resolver operation network address = some target) :
    ∃ socket, socketAddress resolver operation network address = .ok socket := by
  unfold endpoint at denoted
  split at denoted
  next socket _ made => exact ⟨socket, made⟩
  · cases denoted

theorem matchPolicy_iff_reads {policy : PolicyState} (network : Bytes) {address host : Bytes}
    {port : UInt16} (parsed : parseAddress address = .ok (host, port)) :
    matchPolicy resolver policy address false = true ↔
      Allows (Pattern.Reads ((spelling resolver network host).reading host) port)
        policy.rules := by
  rcases parseAddress_eq_ok parsed with ⟨whole, portStr, split, read, rfl⟩
  rw [matchPolicy_iff resolver split read, readHost_eq network]

theorem Built.exists_add {stock : Set (Bytes × UInt16)} {policy : PolicyState}
    (built : Built resolver stock policy) (room : policy.rules.length < maxPolicyRules)
    (action : Action) {pattern : Bytes} {port : UInt16} {kind : PatternKind}
    (mem : (pattern, port) ∈ stock) (known : patternKind resolver pattern = some kind) :
    ∃ next, Built resolver stock next ∧ next.rules = ⟨action, ⟨kind, port⟩⟩ :: policy.rules := by
  refine ⟨_, built.add action mem, ?_⟩
  rw [addRuleTo, dif_neg (Nat.not_le_of_lt room)]
  simp only [buildPolicyRule, known]

theorem patternKind_star : patternKind resolver (literal "*") = some .matchAll :=
  if_pos rfl

/-- Every rule of a policy comes from a pattern and a port that a call has given. -/
theorem Built.rules {stock : Set (Bytes × UInt16)} {policy : PolicyState}
    (built : Built resolver stock policy) :
    ∀ rule ∈ policy.rules, ∃ pattern, (pattern, rule.pattern.port) ∈ stock ∧
      patternKind resolver pattern = some rule.pattern.kind := by
  induction built with
  | empty => exact fun rule mem => absurd mem List.not_mem_nil
  | @add policy pattern port built action mem ih =>
    unfold addRuleTo
    split
    · exact ih
    · cases known : patternKind resolver pattern with
      | none => simpa only [buildPolicyRule, known] using ih
      | some kind =>
        simp only [buildPolicyRule, known]
        intro rule ruleMem
        rcases List.mem_cons.mp ruleMem with rfl | earlier
        · exact ⟨pattern, mem, known⟩
        · exact ih rule earlier

/-- The patterns read the addresses as what they denote, wherever a socket can be opened and the
port of the pattern applies. -/
def ReadsFaithfully (resolver : Resolver IpAddress) (operation : Operation)
    (stock : Set (Bytes × UInt16)) (requests : Set (Bytes × Bytes)) : Prop :=
  ∀ pattern port kind network address host socket, (pattern, port) ∈ stock →
    patternKind resolver pattern = some kind → (network, address) ∈ requests →
    socketAddress resolver operation network address = .ok socket →
    parseAddress address = .ok (host, socket.port) → port = 0 ∨ port = socket.port →
    kind.Faithful host (spelling resolver network host)

section Faithful

variable {operation : Operation} {stock : Set (Bytes × UInt16)} {requests : Set (Bytes × Bytes)}
  {network address host : Bytes} {socket : SocketAddress}

theorem ReadsFaithfully.matchPolicy_iff
    (faithful : ReadsFaithfully resolver operation stock requests) {policy : PolicyState}
    (built : Built resolver (insert (literal "*", 0) stock) policy)
    (mem : (network, address) ∈ requests)
    (made : socketAddress resolver operation network address = .ok socket) {target : Endpoint}
    (denoted : endpoint resolver operation network address = some target) :
    matchPolicy resolver policy address false = true ↔
      Allows (Pattern.Denotes target) policy.rules := by
  rcases endpoint_eq made with ⟨host, parsed, same⟩
  obtain rfl : _ = target := some.inj (same.symm.trans denoted)
  rw [matchPolicy_iff_reads network parsed]
  refine Rulings.allows_congr fun rule ruleMem => and_congr_right fun applies => ?_
  rw [← rule.pattern.kind.faithful_iff_matchesHost]
  rcases built.rules rule ruleMem with ⟨pattern, given | given, known⟩
  · rw [(Prod.mk.inj given).1, patternKind_star] at known
    rw [← some.inj known]
    exact trivial
  · exact faithful _ _ _ _ _ _ _ given known mem made parsed applies

/-- One pattern, and that pattern over the one that matches everything, tell how it reads. -/
theorem DecidesByEndpoint.reads_iff
    (decides : DecidesByEndpoint resolver operation (insert (literal "*", 0) stock) requests)
    {pattern : Bytes} {port : UInt16} {kind : PatternKind} (given : (pattern, port) ∈ stock)
    (known : patternKind resolver pattern = some kind) (mem : (network, address) ∈ requests)
    (made : socketAddress resolver operation network address = .ok socket)
    (parsed : parseAddress address = .ok (host, socket.port)) :
    Pattern.Reads ((spelling resolver network host).reading host) socket.port ⟨kind, port⟩ ↔
      Pattern.Denotes ⟨(spelling resolver network host).host host, socket.port⟩ ⟨kind, port⟩ := by
  have narrows : ∀ policy, Built resolver (insert (literal "*", 0) stock) policy →
      Allows (Pattern.Reads ((spelling resolver network host).reading host) socket.port)
        policy.rules →
      Allows (Pattern.Denotes ⟨(spelling resolver network host).host host, socket.port⟩)
        policy.rules := by
    intro policy built reads
    have passed := (matchPolicy_iff_reads network parsed).mpr reads
    rcases exists_opens passed made with ⟨scopes, state, rfl, opened⟩
    rcases decides.allowed scopes state network address socket built mem opened with
      ⟨target, denoted, allowed⟩
    rcases endpoint_eq made with ⟨host', parsed', same⟩
    cases parsed.symm.trans parsed'
    cases same.symm.trans denoted
    exact allowed
  have star : (literal "*", 0) ∈ insert (literal "*", 0) stock := Set.mem_insert _ _
  have added : (pattern, port) ∈ insert (literal "*", 0) stock := Set.mem_insert_of_mem _ given
  have catchAll : Pattern.Reads ((spelling resolver network host).reading host) socket.port
      ⟨.matchAll, 0⟩ := ⟨.inl rfl, rfl⟩
  apply Rulings.agree_of_allows catchAll
  · rcases Built.empty.exists_add (Nat.succ_pos _) .allow added known with ⟨alone, built, rules⟩
    have allowed := narrows alone built
    rwa [rules] at allowed
  · rcases Built.empty.exists_add (Nat.succ_pos _) .allow star patternKind_star with
      ⟨opener, builtOpener, rulesOpener⟩
    have room : opener.rules.length < maxPolicyRules := by
      rw [rulesOpener]
      decide
    rcases builtOpener.exists_add room .deny added known with ⟨denier, built, rules⟩
    have allowed := narrows denier built
    rwa [rules, rulesOpener] at allowed

/-- Together with the pattern that matches everything, patterns give policies that decide by
endpoint exactly when each of them reads the addresses as what they denote. -/
theorem decidesByEndpoint_iff (resolver : Resolver IpAddress) (operation : Operation)
    (stock : Set (Bytes × UInt16)) (requests : Set (Bytes × Bytes)) :
    DecidesByEndpoint resolver operation (insert (literal "*", 0) stock) requests ↔
      ReadsFaithfully resolver operation stock requests := by
  constructor
  · intro decides pattern port kind network address host socket given known mem made parsed applies
    have reads := decides.reads_iff given known mem made parsed
    rw [kind.faithful_iff_matchesHost]
    exact (and_congr_right_iff.mp reads) applies
  · intro faithful
    constructor
    · intro scopes state network address socket built mem opened
      rcases opens_eq_ok opened with ⟨passed, made⟩
      rcases endpoint_eq made with ⟨host, _, denoted⟩
      exact ⟨_, denoted, (faithful.matchPolicy_iff built mem made denoted).mp passed⟩
    · intro policy network address network' address' target built mem mem' denoted denoted'
      rcases socketAddress_of_endpoint denoted with ⟨socket, made⟩
      rcases socketAddress_of_endpoint denoted' with ⟨socket', made'⟩
      rw [Bool.eq_iff_iff, faithful.matchPolicy_iff built mem made denoted,
        faithful.matchPolicy_iff built mem' made' denoted']
    · exact fun ip network prefixLen fits => ipv4InCidr_iff fits
    · exact fun ip network prefixLen fits => ipv6InCidr_iff fits

end Faithful

/-- A resolver that knows one IPv6 literal, the mapped spelling of 10.0.0.1. -/
def mappedResolver : Resolver IpAddress where
  parseIPv6 s := if s = literal "::ffff:a00:1" then some (Ip4.mapped ⟨10, 0, 0, 1⟩) else none
  validate _ := false
  lookup _ _ := none
  parseIPv6_nil := by decide +kernel
  validate_nil := rfl

/-- Everything is allowed but 10.0.0.1. -/
def guardedPolicy : PolicyState :=
  let allowing := (addRuleTo mappedResolver .empty .allow (literal "*") 0).2
  (addRuleTo mappedResolver allowing .deny (literal "10.0.0.1") 0).2

/-- The policy lets the mapped spelling of the address that it denies pass. -/
theorem not_decidesByEndpoint :
    ¬∀ operation, DecidesByEndpoint mappedResolver operation Set.univ Set.univ := by
  intro decides
  have built : Built mappedResolver Set.univ guardedPolicy :=
    (Built.empty.add .allow (Set.mem_univ _)).add .deny (Set.mem_univ _)
  have rules : guardedPolicy.rules =
      [⟨.deny, ⟨.ipv4Exact ⟨10, 0, 0, 1⟩, 0⟩⟩, ⟨.allow, ⟨.matchAll, 0⟩⟩] := by decide +kernel
  have opened : Operation.dial.opens mappedResolver ⟨true, true⟩
      ⟨guardedPolicy, guardedPolicy, 0, 0⟩ (literal "tcp") (literal "[::ffff:a00:1]:80") =
        .ok ⟨.ip6 (Ip4.mapped ⟨10, 0, 0, 1⟩), 80⟩ := by decide +kernel
  have denoted : endpoint mappedResolver .dial (literal "tcp") (literal "[::ffff:a00:1]:80") =
      some ⟨.ip4 ⟨10, 0, 0, 1⟩, 80⟩ := by decide +kernel
  rcases (decides .dial).allowed _ ⟨guardedPolicy, guardedPolicy, 0, 0⟩ _ _ _ built trivial opened
    with ⟨target, found, allowed⟩
  cases denoted.symm.trans found
  simp only [Operation.policy, rules] at allowed
  simp [Rulings.allows_cons_iff, Pattern.Denotes, PatternKind.Denotes] at allowed

end Gengo.Network
