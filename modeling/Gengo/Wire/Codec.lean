import Gengo.Fallible.Sequencing

/-!
# Writers, readers, and what is read back

A writer produces bytes or stops with an error; a reader takes bytes off the
front of its input or stops with an error. `ReadsBack` says what a reader makes
of the bytes of a writer, whatever follows them: the value it returns, or the
error it stops with. The rules below follow the shape of the two programs, so
that a format written and read field by field is related field by field.
-/

namespace Gengo.Wire

open Fallible List

/-- What a writer appends to its buffer, or why it stops. -/
abbrev Writer (ε : Type) := Except ε (List UInt8)

/-- A reader takes bytes off the front of its input. -/
abbrev Reader (δ : Type) := StateT (List UInt8) (Except δ)

variable {ε δ α β γ : Type}

instance : Append (Writer ε) where
  append first second := first.bind fun front => second.map (front ++ ·)

/-- The bytes themselves. -/
def Writer.raw (bytes : List UInt8) : Writer ε :=
  .ok bytes

/-- One item after another. -/
def Writer.all (write : α → Writer ε) : List α → Writer ε
  | [] => .raw []
  | item :: items => write item ++ all write items

/-- Run a reader a number of times. -/
def Reader.times : ℕ → Reader δ α → Reader δ (List α)
  | 0, _ => pure []
  | count + 1, read => do
    let item ← read
    let items ← times count read
    return item :: items

/-- The next `count` bytes. -/
def Reader.take (short : δ) (count : ℕ) : Reader δ (List UInt8) := fun input =>
  if input.length < count then .error short else .ok (input.take count, input.drop count)

/-- Go on only if the condition holds. -/
def Reader.ensure (condition : Bool) (failure : δ) : Reader δ Unit :=
  if condition then pure () else throw failure

/-- The `count` low bytes of a number, lowest first. -/
def leBytes : ℕ → ℕ → List UInt8
  | 0, _ => []
  | count + 1, value => UInt8.ofNat value :: leBytes count (value / 256)

def ofLeBytes : List UInt8 → ℕ
  | [] => 0
  | byte :: bytes => byte.toNat + 256 * ofLeBytes bytes

@[simp]
theorem length_leBytes (count value : ℕ) : (leBytes count value).length = count := by
  induction count generalizing value with
  | zero => rfl
  | succ count ih => simp [leBytes, ih]

theorem ofLeBytes_leBytes {count value : ℕ} (fits : value < 256 ^ count) :
    ofLeBytes (leBytes count value) = value := by
  induction count generalizing value with
  | zero => exact (Nat.lt_one_iff.mp fits).symm
  | succ count ih =>
    have smaller : value / 256 < 256 ^ count :=
      Nat.div_lt_of_lt_mul (by rwa [← Nat.pow_succ'])
    rw [leBytes, ofLeBytes, ih smaller, UInt8.toNat_ofNat']
    exact Nat.mod_add_div value 256

/-- A number of `count` bytes; one that does not fit is a failed integer cast. -/
def Writer.le (overflow : ε) (count value : ℕ) : Writer ε :=
  if value < 256 ^ count then .raw (leBytes count value) else .error overflow

def Reader.le (short : δ) (count : ℕ) : Reader δ ℕ :=
  ofLeBytes <$> Reader.take short count

/-- A byte string behind its length. -/
def Writer.str (overflow : ε) (bytes : List UInt8) : Writer ε :=
  .le overflow 4 bytes.length ++ .raw bytes

def Reader.str (short : δ) : Reader δ (List UInt8) := do
  let length ← Reader.le short 4
  Reader.take short length

def Writer.bool (flag : Bool) : Writer ε :=
  .raw [if flag then 1 else 0]

def Reader.byte (short : δ) : Reader δ UInt8
  | [] => .error short
  | byte :: rest => .ok (byte, rest)

def Reader.bool (short malformed : δ) : Reader δ Bool := do
  let byte ← Reader.byte short
  Reader.ensure (byte == 0 || byte == 1) malformed
  return byte == 1

/-- A value that may be absent, behind a flag. -/
def Writer.option (write : α → Writer ε) : Option α → Writer ε
  | none => .bool false ++ .raw []
  | some item => .bool true ++ write item

def Reader.option (short malformed : δ) (read : Reader δ α) : Reader δ (Option α) := do
  let present ← Reader.bool short malformed
  if present then return some (← read) else return none

/-- A list behind its length, which takes `width` bytes. -/
def Writer.counted (overflow : ε) (width : ℕ) (write : α → Writer ε) (items : List α) : Writer ε :=
  .le overflow width items.length ++ .all write items

def Reader.counted (short : δ) (width : ℕ) (read : Reader δ α) : Reader δ (List α) := do
  let count ← Reader.le short width
  Reader.times count read

/-- On the bytes of the writer, with anything behind them, the reader ends with
`result` and has taken exactly those bytes. -/
def ReadsBack (write : Writer ε) (read : Reader δ α) (result : Except δ α) : Prop :=
  ∀ bytes, write = .ok bytes → ∀ rest, read (bytes ++ rest) = result.map (·, rest)

variable {bytes : List UInt8}

theorem append_eq_ok {first second : Writer ε} :
    first ++ second = .ok bytes ↔
      ∃ front back, first = .ok front ∧ second = .ok back ∧ front ++ back = bytes := by
  constructor
  · intro whole
    cases first with
    | error _ => cases whole
    | ok front =>
      cases second with
      | error _ => cases whole
      | ok back => exact ⟨front, back, rfl, rfl, Except.ok.inj whole⟩
  · rintro ⟨front, back, rfl, rfl, rfl⟩
    rfl

theorem append_assoc (first second third : Writer ε) :
    first ++ second ++ third = first ++ (second ++ third) := by
  cases first with
  | error _ => rfl
  | ok front =>
    cases second with
    | error _ => rfl
    | ok middle =>
      cases third with
      | error _ => rfl
      | ok back => exact congrArg Except.ok (List.append_assoc front middle back)

/-- The writer does not refuse what it is given. -/
def Writable (write : Writer ε) : Prop :=
  ∃ bytes, write = .ok bytes

theorem writable_append {first second : Writer ε} :
    Writable (first ++ second) ↔ Writable first ∧ Writable second := by
  constructor
  · rintro ⟨_, whole⟩
    obtain ⟨front, back, firstOk, secondOk, -⟩ := append_eq_ok.mp whole
    exact ⟨⟨front, firstOk⟩, back, secondOk⟩
  · rintro ⟨⟨front, firstOk⟩, back, secondOk⟩
    exact ⟨_, append_eq_ok.mpr ⟨front, back, firstOk, secondOk, rfl⟩⟩

namespace Writable

variable {write : α → Writer ε} {items : List α}

theorem all (written : Writable (Writer.all write items)) :
    ∀ item ∈ items, Writable (write item) := by
  induction items with
  | nil => exact forall_mem_nil _
  | cons item items ih =>
    obtain ⟨first, others⟩ := writable_append.mp written
    exact forall_mem_cons.mpr ⟨first, ih others⟩

theorem counted {overflow : ε} {width : ℕ}
    (written : Writable (Writer.counted overflow width write items)) :
    ∀ item ∈ items, Writable (write item) :=
  (writable_append.mp written).2.all

theorem option {item : Option α} (written : Writable (Writer.option write item)) :
    ∀ inner ∈ item, Writable (write inner) := by
  rintro inner rfl
  exact (writable_append.mp written).2

end Writable

/-- Whatever is written takes this many bytes. -/
def Sized (write : Writer ε) (size : ℕ) : Prop :=
  ∀ bytes, write = .ok bytes → bytes.length = size

namespace Sized

open List

theorem raw {size : ℕ} (length : bytes.length = size) :
    Sized (Writer.raw bytes : Writer ε) size := by
  intro _ written
  obtain rfl := Except.ok.inj written
  exact length

theorem le (overflow : ε) (count value : ℕ) : Sized (Writer.le overflow count value) count := by
  rw [Writer.le]
  split
  case isTrue => exact raw (length_leBytes count value)
  case isFalse => exact fun _ written => nomatch written

theorem append {first second : Writer ε} {front back : ℕ} (firstSized : Sized first front)
    (secondSized : Sized second back) : Sized (first ++ second) (front + back) := by
  intro bytes written
  obtain ⟨firstBytes, secondBytes, firstOk, secondOk, rfl⟩ := append_eq_ok.mp written
  rw [length_append, firstSized _ firstOk, secondSized _ secondOk]

end Sized

namespace ReadsBack

open List

variable {first second write : Writer ε} {read : Reader δ α}

theorem value (result : Except δ α) : ReadsBack (Writer.raw [] : Writer ε)
    (liftM result) result := by
  intro bytes written rest
  obtain rfl : [] = bytes := Except.ok.inj written
  cases result <;> rfl

theorem raw (bytes : List UInt8) (short : δ) :
    ReadsBack (Writer.raw bytes : Writer ε) (Reader.take short bytes.length) (.ok bytes) := by
  intro _ written rest
  obtain rfl := Except.ok.inj written
  rw [Reader.take, if_neg (by simp), take_left', drop_left'] <;> rfl

variable {result : Except δ α}

theorem assoc {third : Writer ε} (back : ReadsBack (first ++ (second ++ third)) read result) :
    ReadsBack (first ++ second ++ third) read result := by
  rw [append_assoc]
  exact back

theorem stopped {error : ε} : ReadsBack (.error error) read result :=
  fun _ written => nomatch written

variable {next : α → Reader δ β}

theorem bind {after : α → Except δ β} (front : ReadsBack first read result)
    (back : ∀ item, result = .ok item → ReadsBack second (next item) (after item)) :
    ReadsBack (first ++ second) (read >>= next) (result >>= after) := by
  intro bytes written rest
  obtain ⟨firstBytes, secondBytes, firstOk, secondOk, rfl⟩ := append_eq_ok.mp written
  have taken : (read >>= next) (firstBytes ++ secondBytes ++ rest) =
      (result.map (·, secondBytes ++ rest)).bind fun item => next item.1 item.2 := by
    rw [List.append_assoc, ← front firstBytes firstOk]
    rfl
  rw [taken]
  cases result with
  | error _ => rfl
  | ok item => exact back item rfl secondBytes secondOk rest

variable {item : α} {after : Except δ β}

/-- The case of `bind` where the first value always comes back. -/
theorem andThen (front : ReadsBack first read (.ok item))
    (back : ReadsBack second (next item) after) :
    ReadsBack (first ++ second) (read >>= next) after :=
  @bind _ _ _ _ _ _ _ _ _ (fun _ => after) front fun _ same => Except.ok.inj same ▸ back

theorem map (back : ReadsBack write read result) (f : α → β) :
    ReadsBack write (f <$> read) (f <$> result) := by
  intro bytes written rest
  have taken : (f <$> read) (bytes ++ rest) =
      (result.map (·, rest)).map fun item => (f item.1, item.2) := by
    rw [← back bytes written]
    rfl
  rw [taken]
  cases result <;> rfl

theorem ensure {next : Unit → Reader δ β} {condition : Bool} {failure : δ}
    (back : condition = true → ReadsBack write (next ()) after) :
    ReadsBack write (Reader.ensure condition failure >>= next)
      (if condition then after else .error failure) := by
  intro bytes written rest
  cases condition with
  | false => rfl
  | true => exact back rfl bytes written rest

/-- The case of `ensure` where the check passes. -/
theorem ensured {next : Unit → Reader δ β} {condition : Bool} {failure : δ}
    (holds : condition = true) (back : ReadsBack write (next ()) after) :
    ReadsBack write (Reader.ensure condition failure >>= next) after := by
  subst holds
  exact back

theorem apply {out : β} (back : ReadsBack write read (.ok item)) {f : α → β} (same : f item = out) :
    ReadsBack write (f <$> read) (.ok out) :=
  same ▸ back.map f

theorem settle {result : Except δ β} (front : ReadsBack write read (.ok item))
    (last : next item = liftM result) : ReadsBack write (read >>= next) result := by
  intro bytes written rest
  have taken : (read >>= next) (bytes ++ rest) = next item rest := by
    change (read (bytes ++ rest)).bind (fun item => next item.1 item.2) = _
    rw [front bytes written rest]
    rfl
  rw [taken, last]
  cases result <;> rfl

/-- The last field, when the reader only looks at it to return a value. -/
theorem finish {out : β} (front : ReadsBack write read (.ok item)) (last : next item = pure out) :
    ReadsBack write (read >>= next) (.ok out) :=
  front.settle last

theorem bind_pure (back : ReadsBack write read result) (f : α → β) :
    ReadsBack write (read >>= fun item => pure (f item)) (result >>= fun item => pure (f item)) :=
  back.map f

variable {wire : β → Except δ α}

/-- A list, item by item, when the reader knows how many there are. -/
theorem all {write : β → Writer ε} {items : List β}
    (each : ∀ item ∈ items, ReadsBack (write item) read (wire item)) :
    ReadsBack (Writer.all write items) (Reader.times items.length read) (items.mapM wire) := by
  induction items with
  | nil => exact value (.ok [])
  | cons item items ih =>
    rw [mapM_cons]
    exact (each item mem_cons_self).bind fun _ _ =>
      (ih fun other member => each other (mem_cons_of_mem _ member)).bind_pure _

theorem byte (value : UInt8) (short : δ) :
    ReadsBack (Writer.raw [value] : Writer ε) (Reader.byte short) (.ok value) := by
  intro _ written rest
  obtain rfl := Except.ok.inj written
  rfl

theorem bool (flag : Bool) (short malformed : δ) :
    ReadsBack (Writer.bool flag : Writer ε) (Reader.bool short malformed) (.ok flag) := by
  intro _ written rest
  obtain rfl := Except.ok.inj written
  cases flag <;> rfl

theorem le (overflow : ε) (short : δ) (count value : ℕ) :
    ReadsBack (Writer.le overflow count value) (Reader.le short count) (.ok value) := by
  rw [Writer.le]
  split
  case isFalse => exact stopped
  case isTrue fits =>
    have back := (raw (leBytes count value) short (ε := ε)).map ofLeBytes
    rw [length_leBytes] at back
    simpa [Reader.le, ofLeBytes_leBytes fits] using back

theorem str (overflow : ε) (short : δ) (bytes : List UInt8) :
    ReadsBack (Writer.str overflow bytes) (Reader.str short) (.ok bytes) :=
  (le overflow short 4 bytes.length).andThen (raw bytes short)

theorem option {write : β → Writer ε} (short malformed : δ)
    (each : ∀ item, ReadsBack (write item) read (wire item)) (item : Option β) :
    ReadsBack (Writer.option write item) (Reader.option short malformed read) (item.mapM wire) := by
  cases item with
  | none => exact (bool false short malformed).andThen (value (.ok none))
  | some item => exact (bool true short malformed).andThen ((each item).bind_pure some)

/-- The case of `option` where the value always comes back. -/
theorem option_ok {f : β → α} {write : β → Writer ε} (short malformed : δ)
    (each : ∀ item, ReadsBack (write item) read (.ok (f item))) (item : Option β) :
    ReadsBack (Writer.option write item) (Reader.option short malformed read)
      (.ok (item.map f)) := by
  have back := option short malformed each item
  cases item <;> exact back

theorem counted {write : β → Writer ε} (overflow : ε) (short : δ) (width : ℕ) {items : List β}
    (each : ∀ item ∈ items, ReadsBack (write item) read (wire item)) :
    ReadsBack (Writer.counted overflow width write items) (Reader.counted short width read)
      (items.mapM wire) :=
  (le overflow short width items.length).andThen (all each)

/-- The case of `all` where every item comes back. -/
theorem all_ok {write : α → Writer ε} (each : ∀ item, ReadsBack (write item) read (.ok item))
    (items : List α) :
    ReadsBack (Writer.all write items) (Reader.times items.length read) (.ok items) := by
  have same : items.mapM (fun item => (pure item : Except δ α)) = pure (items.map id) :=
    mapM_pure
  have back := all fun item (_ : item ∈ items) => each item
  rw [map_id] at same
  rwa [show items.mapM Except.ok = Except.ok items from same] at back

/-- The case of `counted` where every item comes back. -/
theorem counted_ok {write : α → Writer ε} (overflow : ε) (short : δ) (width : ℕ)
    (each : ∀ item, ReadsBack (write item) read (.ok item)) (items : List α) :
    ReadsBack (Writer.counted overflow width write items) (Reader.counted short width read)
      (.ok items) :=
  (le overflow short width items.length).andThen (all_ok each items)

end ReadsBack

/-!
# SHA-256 and XXH64

The two hash functions of the artifact header, on byte lists. Nothing is proved
about them beyond the length of a digest: writer and reader compute the same
ones.
-/

/-- Cut a list into pieces of `width` elements; the last may be shorter. -/
def pieces (width : ℕ) : ℕ → List UInt8 → List (List UInt8)
  | 0, _ => []
  | fuel + 1, bytes =>
    if bytes.isEmpty then [] else bytes.take width :: pieces width fuel (bytes.drop width)

def be32 (word : UInt32) : List UInt8 :=
  [(word >>> 24).toUInt8, (word >>> 16).toUInt8, (word >>> 8).toUInt8, word.toUInt8]

def ofBe32 (bytes : List UInt8) : UInt32 :=
  bytes.foldl (fun word byte => (word <<< 8) ||| byte.toUInt32) 0

def rotr32 (word : UInt32) (count : UInt32) : UInt32 :=
  (word >>> count) ||| (word <<< (32 - count))

structure Sha256State where
  a : UInt32
  b : UInt32
  c : UInt32
  d : UInt32
  e : UInt32
  f : UInt32
  g : UInt32
  h : UInt32

namespace Sha256State

def initial : Sha256State :=
  ⟨0x6a09e667, 0xbb67ae85, 0x3c6ef372, 0xa54ff53a, 0x510e527f, 0x9b05688c, 0x1f83d9ab, 0x5be0cd19⟩

def add (s t : Sha256State) : Sha256State :=
  ⟨s.a + t.a, s.b + t.b, s.c + t.c, s.d + t.d, s.e + t.e, s.f + t.f, s.g + t.g, s.h + t.h⟩

def digest (s : Sha256State) : List UInt8 :=
  be32 s.a ++ be32 s.b ++ be32 s.c ++ be32 s.d ++ be32 s.e ++ be32 s.f ++ be32 s.g ++ be32 s.h

def round (s : Sha256State) (k w : UInt32) : Sha256State :=
  let s1 := rotr32 s.e 6 ^^^ rotr32 s.e 11 ^^^ rotr32 s.e 25
  let ch := (s.e &&& s.f) ^^^ (~~~s.e &&& s.g)
  let t1 := s.h + s1 + ch + k + w
  let s0 := rotr32 s.a 2 ^^^ rotr32 s.a 13 ^^^ rotr32 s.a 22
  let maj := (s.a &&& s.b) ^^^ (s.a &&& s.c) ^^^ (s.b &&& s.c)
  ⟨t1 + (s0 + maj), s.a, s.b, s.c, s.d + t1, s.e, s.f, s.g⟩

end Sha256State

def sha256Constants : List UInt32 :=
  [0x428a2f98, 0x71374491, 0xb5c0fbcf, 0xe9b5dba5, 0x3956c25b, 0x59f111f1, 0x923f82a4, 0xab1c5ed5,
   0xd807aa98, 0x12835b01, 0x243185be, 0x550c7dc3, 0x72be5d74, 0x80deb1fe, 0x9bdc06a7, 0xc19bf174,
   0xe49b69c1, 0xefbe4786, 0x0fc19dc6, 0x240ca1cc, 0x2de92c6f, 0x4a7484aa, 0x5cb0a9dc, 0x76f988da,
   0x983e5152, 0xa831c66d, 0xb00327c8, 0xbf597fc7, 0xc6e00bf3, 0xd5a79147, 0x06ca6351, 0x14292967,
   0x27b70a85, 0x2e1b2138, 0x4d2c6dfc, 0x53380d13, 0x650a7354, 0x766a0abb, 0x81c2c92e, 0x92722c85,
   0xa2bfe8a1, 0xa81a664b, 0xc24b8b70, 0xc76c51a3, 0xd192e819, 0xd6990624, 0xf40e3585, 0x106aa070,
   0x19a4c116, 0x1e376c08, 0x2748774c, 0x34b0bcb5, 0x391c0cb3, 0x4ed8aa4a, 0x5b9cca4f, 0x682e6ff3,
   0x748f82ee, 0x78a5636f, 0x84c87814, 0x8cc70208, 0x90befffa, 0xa4506ceb, 0xbef9a3f7, 0xc67178f2]

/-- The message schedule, latest word first. -/
def sha256Schedule : ℕ → List UInt32 → List UInt32
  | 0, words => words
  | count + 1, words =>
    let w15 := words.getD 14 0
    let w2 := words.getD 1 0
    let s0 := rotr32 w15 7 ^^^ rotr32 w15 18 ^^^ (w15 >>> 3)
    let s1 := rotr32 w2 17 ^^^ rotr32 w2 19 ^^^ (w2 >>> 10)
    sha256Schedule count ((words.getD 15 0 + s0 + words.getD 6 0 + s1) :: words)

def sha256Block (state : Sha256State) (block : List UInt8) : Sha256State :=
  let words := (sha256Schedule 48 ((pieces 4 16 block).map ofBe32).reverse).reverse
  state.add ((sha256Constants.zip words).foldl (fun s kw => s.round kw.1 kw.2) state)

def sha256Pad (message : List UInt8) : List UInt8 :=
  let bits := UInt64.ofNat (8 * message.length)
  message ++ [(0x80 : UInt8)] ++ List.replicate ((119 - message.length % 64) % 64) (0 : UInt8) ++
    be32 (bits >>> 32).toUInt32 ++ be32 bits.toUInt32

def sha256 (message : List UInt8) : List UInt8 :=
  let padded := sha256Pad message
  ((pieces 64 padded.length padded).foldl sha256Block .initial).digest

theorem length_sha256 (message : List UInt8) : (sha256 message).length = 32 :=
  rfl

def xxPrime1 : UInt64 := 0x9E3779B185EBCA87
def xxPrime2 : UInt64 := 0xC2B2AE3D27D4EB4F
def xxPrime3 : UInt64 := 0x165667B19E3779F9
def xxPrime4 : UInt64 := 0x85EBCA77C2B2AE63
def xxPrime5 : UInt64 := 0x27D4EB2F165667C5

def rotl64 (word count : UInt64) : UInt64 :=
  (word <<< count) ||| (word >>> (64 - count))

def ofLe64 (bytes : List UInt8) : UInt64 :=
  bytes.foldr (fun byte word => (word <<< 8) ||| byte.toUInt64) 0

def xxRound (acc input : UInt64) : UInt64 :=
  rotl64 (acc + input * xxPrime2) 31 * xxPrime1

def xxMerge (acc lane : UInt64) : UInt64 :=
  (acc ^^^ xxRound 0 lane) * xxPrime1 + xxPrime4

/-- The four lanes after every whole stripe of 32 bytes. -/
def xxStripe (lanes : List UInt64) (stripe : List UInt8) : List UInt64 :=
  List.zipWith xxRound lanes ((pieces 8 4 stripe).map ofLe64)

def xxStart (seed : UInt64) (bytes : List UInt8) : UInt64 :=
  if bytes.length < 32 then seed + xxPrime5
  else
    let stripes := (pieces 32 bytes.length bytes).filter (·.length == 32)
    let lanes := stripes.foldl xxStripe
      [seed + xxPrime1 + xxPrime2, seed + xxPrime2, seed, seed - xxPrime1]
    let mixed := (List.zipWith rotl64 lanes [1, 7, 12, 18]).foldl (· + ·) 0
    lanes.foldl xxMerge mixed

/-- The bytes behind the last whole stripe. -/
def xxTail (acc : UInt64) (tail : List UInt8) : UInt64 :=
  let words := (pieces 8 tail.length tail).filter (·.length == 8)
  let acc := words.foldl
    (fun acc word => rotl64 (acc ^^^ xxRound 0 (ofLe64 word)) 27 * xxPrime1 + xxPrime4) acc
  let rest := tail.drop (8 * words.length)
  let (acc, rest) :=
    if 4 ≤ rest.length then
      (rotl64 (acc ^^^ (ofLe64 (rest.take 4) * xxPrime1)) 23 * xxPrime2 + xxPrime3, rest.drop 4)
    else (acc, rest)
  rest.foldl (fun acc byte => rotl64 (acc ^^^ (byte.toUInt64 * xxPrime5)) 11 * xxPrime1) acc

def xxHash64 (seed : UInt64) (bytes : List UInt8) : UInt64 :=
  let acc := xxStart seed bytes + UInt64.ofNat bytes.length
  let acc := xxTail acc (bytes.drop (32 * (bytes.length / 32)))
  let acc := (acc ^^^ (acc >>> 33)) * xxPrime2
  let acc := (acc ^^^ (acc >>> 29)) * xxPrime3
  acc ^^^ (acc >>> 32)

end Gengo.Wire
