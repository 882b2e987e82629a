import Gengo.Blocks.Relocation
import Gengo.Runs.Along
import Gengo.Strings.Runes

/-!
# The cache of rune positions

The machine keeps the rune positions of the string that it scanned last, under the address and
the length of its bytes. The key is set before the scan, and a scan that fails leaves the cache as
valid as it was. Nothing else changes the cache, whatever becomes of the bytes.
-/

namespace Gengo.Strings

open Blocks
open Bytecode (Bytes)
open Heap (Slice)
open Runs List

/-- `RuneCacheMax`. -/
def runeCacheMax : ℕ :=
  512

/-- The `rune_cache` fields of the machine. -/
structure RuneCache where
  ptr : ℕ
  byteLen : ℕ
  runeLen : ℕ
  valid : Bool
  overflow : Bool
  offsets : ℕ → ℕ

/-- After `reset`. -/
def RuneCache.empty : RuneCache :=
  ⟨0, 0, 0, false, false, fun _ => 0⟩

/-- The loop of `ensureRuneCache`, for so many rounds at most. -/
def fillFrom (bytes : Bytes) : ℕ → ℕ → RuneCache → Except Failure Unit × RuneCache
  | 0, _, cache => (.ok (), cache)
  | rounds + 1, index, cache =>
    if index < bytes.length then
      let noted :=
        if cache.runeLen < runeCacheMax then
          { cache with offsets := Function.update cache.offsets cache.runeLen index }
        else { cache with overflow := true }
      match utf8NextRuneByteLen bytes index with
      | .error failure => (.error failure, noted)
      | .ok width =>
        fillFrom bytes rounds (index + width) { noted with runeLen := noted.runeLen + 1 }
    else (.ok (), cache)

/-- The bytes in memory and the cache. Beside them stand the bytes that the last scan read, which
the machine does not keep. -/
structure World where
  memory : ℕ → UInt8
  cache : RuneCache
  scanned : Bytes

namespace World

/-- The bytes of a string. -/
def bytes (world : World) (string : Slice) : Bytes :=
  elements (fun index => world.memory (string.ptr + index)) string.len

/-- The cache is valid and has the key of the string. -/
def Hit (world : World) (string : Slice) : Prop :=
  world.cache.valid = true ∧ world.cache.ptr = string.ptr ∧ world.cache.byteLen = string.len

instance (world : World) (string : Slice) : Decidable (world.Hit string) :=
  inferInstanceAs (Decidable (_ ∧ _))

/-- `ensureRuneCache`. -/
def ensureRuneCache (world : World) (string : Slice) : Except Failure Unit × World :=
  if world.Hit string then (.ok (), world)
  else
    let bytes := world.bytes string
    let begun := { world.cache with
      ptr := string.ptr, byteLen := string.len, runeLen := 0, overflow := false }
    match fillFrom bytes (bytes.length + 1) 0 begun with
    | (.error failure, cache) => (.error failure, { world with cache, scanned := bytes })
    | (.ok (), cache) =>
      (.ok (), { world with cache := { cache with valid := true }, scanned := bytes })

/-- `utf8RuneCountCached`. -/
def utf8RuneCountCached (world : World) (string : Slice) : Except Failure ℕ × World :=
  match world.ensureRuneCache string with
  | (.error failure, after) => (.error failure, after)
  | (.ok (), after) => (.ok after.cache.runeLen, after)

/-- `utf8ByteOffsetForRuneIndexCached`. -/
def utf8ByteOffsetCached (world : World) (string : Slice) (runeIndex : ℕ) :
    Except Failure ℕ × World :=
  match world.ensureRuneCache string with
  | (.error failure, after) => (.error failure, after)
  | (.ok (), after) =>
    if runeIndex = after.cache.runeLen then (.ok string.len, after)
    else if after.cache.runeLen < runeIndex then (.error .indexOutOfBounds, after)
    else if runeIndex < runeCacheMax then (.ok (after.cache.offsets runeIndex), after)
    else (utf8ByteOffsetForRuneIndex (after.bytes string) runeIndex, after)

end World

/-- What a string operation asks about the runes: how many there are, and where one begins. -/
structure Access (σ : Type) where
  count : σ → Except Failure ℕ × σ
  offset : ℕ → σ → Except Failure ℕ × σ

/-- The runes as a scan from the first byte gives them. -/
def plain (bytes : Bytes) : Access Unit where
  count _ := (utf8RuneCount bytes, ())
  offset runeIndex _ :=
    match utf8RuneCount bytes with
    | .error failure => (.error failure, ())
    | .ok _ => (utf8ByteOffsetForRuneIndex bytes runeIndex, ())

/-- The runes as the cache gives them. -/
def cached (string : Slice) : Access World where
  count world := world.utf8RuneCountCached string
  offset runeIndex world := world.utf8ByteOffsetCached string runeIndex

/-- The operations on the runes of a string. `next` is one round of a loop over them. -/
inductive Operation
  | length
  | index (runeIndex : ℕ)
  | slice (start? end? : Option ℕ)
  | next (runeIndex : ℕ)

/-- A number of runes, or the first byte and the one behind the last. -/
inductive Result
  | runes (count : ℕ)
  | range (start stop : ℕ)
  deriving DecidableEq, Repr

section

variable {σ : Type} (access : Access σ) (bytes : Bytes)

/-- The positions of two runes. -/
def offsets (first second : ℕ) (state : σ) : Except Failure Result × σ :=
  match access.offset first state with
  | (.error failure, after) => (.error failure, after)
  | (.ok start, after) =>
    match access.offset second after with
    | (.error failure, last) => (.error failure, last)
    | (.ok stop, last) => (.ok (.range start stop), last)

/-- `nativeLen`, `stringIndex`, `stringSliceRange` and the string loop of `iterNext1`. -/
def Operation.run (state : σ) : Operation → Except Failure Result × σ
  | .length =>
    match access.count state with
    | (.error failure, after) => (.error failure, after)
    | (.ok count, after) => (.ok (.runes count), after)
  | .index runeIndex =>
    match access.offset runeIndex state with
    | (.error failure, after) => (.error failure, after)
    | (.ok start, after) =>
      match utf8NextRuneByteLen bytes start with
      | .error failure => (.error failure, after)
      | .ok width => (.ok (.range start (start + width)), after)
  | .slice start? end? =>
    match access.count state with
    | (.error failure, after) => (.error failure, after)
    | (.ok runeLen, after) =>
      let start := start?.getD 0
      let stop := end?.getD runeLen
      if runeLen < start ∨ runeLen < stop ∨ stop < start then
        (.error .indexOutOfBounds, after)
      else offsets access start stop after
  | .next runeIndex => offsets access runeIndex (runeIndex + 1) state

end

/-- What happens to the machine: a string operation, anything that changes the memory and leaves
the cache alone (a collection, a compaction, an allocation that is filled), or `reset`. -/
inductive Event
  | operation (string : Slice) (operation : Operation)
  | memory (memory : ℕ → UInt8)
  | reset

/-- The world after an event. -/
def step (world : World) : Event → World
  | .operation string operation =>
    (operation.run (cached string) (world.bytes string) world).2
  | .memory memory => { world with memory }
  | .reset => { world with cache := .empty }

/-- The operation gives what a scan of the string gives, or the same error. -/
def Agrees (world : World) : Event → Prop
  | .operation string operation =>
    (operation.run (cached string) (world.bytes string) world).1 =
      (operation.run (plain (world.bytes string)) (world.bytes string) ()).1
  | _ => True

/-- Where an operation finds the cache valid and with the key of its string, the string has the
bytes that the last scan read, and they are UTF-8. -/
def Trusted (world : World) : Event → Prop
  | .operation string _ => world.Hit string →
      world.bytes string = world.scanned ∧ ∃ count, utf8RuneCount world.scanned = .ok count
  | _ => True

/-- The cache holds the runes that begin at these positions. -/
structure Filled (cache : RuneCache) (starts : List ℕ) : Prop where
  runeLen : cache.runeLen = starts.length
  offsets : ∀ rune, ∀ inRange : rune < starts.length, rune < runeCacheMax →
    cache.offsets rune = starts[rune]

/-- The cache with a position noted for the next rune. -/
def RuneCache.note (cache : RuneCache) (index : ℕ) : RuneCache :=
  if cache.runeLen < runeCacheMax then
    { cache with offsets := Function.update cache.offsets cache.runeLen index }
  else { cache with overflow := true }

variable {bytes : Bytes} {index : ℕ} {starts before : List ℕ} {failure : Failure}
  {cache : RuneCache}

theorem Filled.note (filled : Filled cache before) (index : ℕ) :
    Filled { cache.note index with runeLen := (cache.note index).runeLen + 1 }
      (before ++ [index]) := by
  have runeLen : (cache.note index).runeLen = before.length := by
    rw [← filled.runeLen, RuneCache.note]
    split
    · rfl
    · rfl
  refine ⟨by simp [runeLen], ?_⟩
  intro rune inRange noted
  rw [length_append, length_singleton] at inRange
  have offsets : ∀ rune < before.length, (cache.note index).offsets rune = cache.offsets rune := by
    intro rune earlier
    rw [RuneCache.note]
    split
    · exact Function.update_of_ne (filled.runeLen ▸ Nat.ne_of_lt earlier) _ _
    · rfl
  rcases Nat.lt_or_ge rune before.length with earlier | last
  · rw [getElem_append_left earlier, ← filled.offsets rune earlier noted]
    exact offsets rune earlier
  · have isLast : rune = cache.runeLen := by
      rw [filled.runeLen]
      omega
    subst isLast
    rw [RuneCache.note, if_pos noted]
    simp [filled.runeLen]

/-- The fields that a scan does not set. -/
structure SameKey (first second : RuneCache) : Prop where
  ptr : first.ptr = second.ptr
  byteLen : first.byteLen = second.byteLen
  valid : first.valid = second.valid

theorem SameKey.trans {third : RuneCache} {first second : RuneCache}
    (same : SameKey first second) (same' : SameKey second third) : SameKey first third :=
  ⟨same.ptr.trans same'.ptr, same.byteLen.trans same'.byteLen, same.valid.trans same'.valid⟩

theorem sameKey_note (cache : RuneCache) (index : ℕ) :
    SameKey { cache.note index with runeLen := (cache.note index).runeLen + 1 } cache := by
  unfold RuneCache.note
  split
  · exact ⟨rfl, rfl, rfl⟩
  · exact ⟨rfl, rfl, rfl⟩

/-- A scan that gets to the end fills the cache with what it went through. -/
theorem Walk.fillFrom (walk : Walk bytes index starts) {rounds : ℕ}
    (enough : starts.length < rounds) (filled : Filled cache before) :
    ∃ after, fillFrom bytes rounds index cache = (.ok (), after) ∧
      Filled after (before ++ starts) ∧ SameKey after cache := by
  induction walk generalizing rounds cache before with
  | done =>
    cases rounds with
    | zero => exact absurd enough (Nat.not_lt_zero _)
    | succ rounds =>
      refine ⟨cache, ?_, by rwa [append_nil], ⟨rfl, rfl, rfl⟩⟩
      rw [Strings.fillFrom, if_neg (Nat.lt_irrefl _)]
  | rune inside isRune rest ih =>
    rename_i index width starts
    cases rounds with
    | zero => exact absurd enough (Nat.not_lt_zero _)
    | succ rounds =>
      rcases ih (Nat.lt_of_succ_lt_succ enough) (filled.note index) with
        ⟨after, ends, isFilled, same⟩
      refine ⟨after, ?_, ?_, same.trans (sameKey_note cache index)⟩
      · rw [Strings.fillFrom, if_pos inside, isRune]
        exact ends
      · rwa [append_assoc, singleton_append] at isFilled

theorem Stumble.fillFrom (stumble : Stumble bytes index failure) {rounds : ℕ}
    (enough : bytes.length < index + rounds) (cache : RuneCache) :
    ∃ after, fillFrom bytes rounds index cache = (.error failure, after) := by
  induction stumble generalizing rounds cache with
  | here inside noRune =>
    cases rounds with
    | zero => omega
    | succ rounds =>
      rw [Strings.fillFrom, if_pos inside, noRune]
      exact ⟨_, rfl⟩
  | later inside isRune rest ih =>
    have forward := width_pos isRune
    cases rounds with
    | zero => omega
    | succ rounds =>
      rw [Strings.fillFrom, if_pos inside, isRune]
      exact ih (by omega) _

/-- A valid cache holds the runes of the bytes that were scanned last, if they are UTF-8. -/
def World.Sound (world : World) : Prop :=
  world.cache.valid = true → ∀ starts, Walk world.scanned 0 starts → Filled world.cache starts

/-- The cache holds the runes of the string. -/
structure Ready (world : World) (string : Slice) (starts : List ℕ) : Prop where
  hit : world.Hit string
  walk : Walk (world.bytes string) 0 starts
  filled : Filled world.cache starts

variable {world : World} {string : Slice}

/-- What `ensureRuneCache` ends with: the cache holds the runes of the string, or the string is no
UTF-8. -/
theorem ensureRuneCache_cases (sound : world.Sound)
    (trusted : world.Hit string →
      world.bytes string = world.scanned ∧ ∃ count, utf8RuneCount world.scanned = .ok count) :
    (∃ starts after, world.ensureRuneCache string = (.ok (), after) ∧
      Ready after string starts ∧ after.memory = world.memory ∧ after.Sound) ∨
    ∃ failure after, world.ensureRuneCache string = (.error failure, after) ∧
      Stumble (world.bytes string) 0 failure ∧ after.Sound := by
  rcases walk_or_stumble (world.bytes string) (Nat.zero_le _) with
    ⟨starts, walk⟩ | ⟨failure, stumble⟩
  · refine .inl ⟨starts, ?_⟩
    by_cases hit : world.Hit string
    · refine ⟨world, if_pos hit, ⟨hit, walk, ?_⟩, rfl, sound⟩
      exact sound hit.1 starts ((trusted hit).1 ▸ walk)
    · have none : Filled { world.cache with
          ptr := string.ptr, byteLen := string.len, runeLen := 0, overflow := false } [] :=
        ⟨rfl, by simp⟩
      have length := walk.length_le
      rcases walk.fillFrom (Nat.lt_succ_of_le length) none with ⟨cache, fills, filled, same⟩
      rw [nil_append] at filled
      refine ⟨{ world with cache := { cache with valid := true }, scanned := world.bytes string },
        ?_, ⟨⟨rfl, same.ptr, same.byteLen⟩, walk, filled.runeLen, filled.offsets⟩, rfl, ?_⟩
      · rw [World.ensureRuneCache, if_neg hit]
        simp only [fills]
      · intro _ others walk'
        rw [← walk.unique walk']
        exact ⟨filled.runeLen, filled.offsets⟩
  · refine .inr ⟨failure, ?_⟩
    have noHit : ¬world.Hit string := by
      intro hit
      rcases trusted hit with ⟨same, count, isCount⟩
      rw [← same, stumble.utf8RuneCount] at isCount
      exact absurd isCount (by simp)
    have enough : (world.bytes string).length < 0 + ((world.bytes string).length + 1) := by
      omega
    rcases stumble.fillFrom enough { world.cache with
      ptr := string.ptr, byteLen := string.len, runeLen := 0, overflow := false } with
      ⟨cache, fails⟩
    refine ⟨{ world with cache, scanned := world.bytes string }, ?_, stumble, ?_⟩
    · rw [World.ensureRuneCache, if_neg noHit]
      simp only [fails]
    · intro _ starts walk
      exact absurd (walk.utf8RuneCount.symm.trans stumble.utf8RuneCount) (by simp)

theorem length_bytes (world : World) (string : Slice) : (world.bytes string).length = string.len :=
  length_elements _ _

section

variable (ready : Ready world string starts)
include ready

theorem Ready.ensureRuneCache : world.ensureRuneCache string = (.ok (), world) :=
  if_pos ready.hit

theorem Ready.count :
    (cached string).count world = (((plain (world.bytes string)).count ()).1, world) := by
  simp only [cached, plain, World.utf8RuneCountCached, ready.ensureRuneCache,
    ready.walk.utf8RuneCount, ready.filled.runeLen]

theorem Ready.offset (runeIndex : ℕ) :
    (cached string).offset runeIndex world =
      (((plain (world.bytes string)).offset runeIndex ()).1, world) := by
  simp only [cached, plain, World.utf8ByteOffsetCached, ready.ensureRuneCache,
    ready.walk.utf8RuneCount, ready.filled.runeLen]
  rcases Nat.lt_trichotomy runeIndex starts.length with inRange | atEnd | beyond
  · rw [if_neg (Nat.ne_of_lt inRange), if_neg (Nat.not_lt_of_gt inRange)]
    split
    · rename_i noted
      have found : (starts ++ [(world.bytes string).length])[runeIndex]? =
          some starts[runeIndex] := by
        rw [List.getElem?_append_left inRange, List.getElem?_eq_getElem inRange]
      rw [ready.walk.utf8ByteOffset found, ready.filled.offsets runeIndex inRange noted]
    · rfl
  · have found : (starts ++ [(world.bytes string).length])[runeIndex]? = some string.len := by
      rw [atEnd, List.getElem?_append_right (Nat.le_refl _), Nat.sub_self,
        List.getElem?_cons_zero, length_bytes]
    rw [if_pos atEnd, ready.walk.utf8ByteOffset found]
  · rw [if_neg (Nat.ne_of_gt beyond), if_pos beyond, ready.walk.utf8ByteOffset_of_lt beyond]

end

section

variable {σ : Type} {access : Access σ} {state state' : σ}

theorem Operation.run_congr (operation : Operation)
    (count : access.count state = access.count state')
    (offset : ∀ runeIndex, access.offset runeIndex state = access.offset runeIndex state') :
    operation.run access bytes state = operation.run access bytes state' := by
  cases operation with
  | length | slice _ _ => simp only [run, count]
  | index runeIndex => simp only [run, offset]
  | next runeIndex => simp only [run, offsets, offset]

/-- Two accesses that tell the same runes, and of which one leaves its state alone. -/
theorem Operation.run_of_same {reference : Access Unit} (operation : Operation)
    (count : access.count state = ((reference.count ()).1, state))
    (offset : ∀ runeIndex,
      access.offset runeIndex state = ((reference.offset runeIndex ()).1, state)) :
    operation.run access bytes state = ((operation.run reference bytes ()).1, state) := by
  have both : ∀ first second, offsets access first second state =
      ((offsets reference first second ()).1, state) := by
    intro first second
    simp only [offsets, offset]
    cases reference.offset first () with
    | mk result _ =>
      cases result with
      | error failure => rfl
      | ok start =>
        simp only [offset]
        cases reference.offset second () with
        | mk result _ =>
          cases result with
          | error failure => rfl
          | ok stop => rfl
  cases operation with
  | length =>
    simp only [run, count]
    cases reference.count () with
    | mk result _ =>
      cases result with
      | error failure => rfl
      | ok runeLen => rfl
  | index runeIndex =>
    simp only [run, offset]
    cases reference.offset runeIndex () with
    | mk result _ =>
      cases result with
      | error failure => rfl
      | ok start =>
        dsimp only
        cases utf8NextRuneByteLen bytes start with
        | error failure => rfl
        | ok width => rfl
  | slice start? end? =>
    simp only [run, count]
    cases reference.count () with
    | mk result _ =>
      cases result with
      | error failure => rfl
      | ok runeLen =>
        dsimp only
        split
        · rfl
        · exact both _ _
  | next runeIndex => exact both _ _

theorem Operation.run_error (operation : Operation)
    (count : access.count state = (.error failure, state'))
    (offset : ∀ runeIndex, access.offset runeIndex state = (.error failure, state')) :
    operation.run access bytes state = (.error failure, state') := by
  cases operation with
  | length | slice _ _ => simp only [run, count]
  | index runeIndex => simp only [run, offset]
  | next runeIndex => simp only [run, offsets, offset]

end

/-- A string operation on a trusted cache gives what a scan gives, and leaves a cache that is
right about the bytes it was filled with. -/
theorem operation_of_trusted (sound : world.Sound) (operation : Operation)
    (trusted : Trusted world (.operation string operation)) :
    Agrees world (.operation string operation) ∧
      (step world (.operation string operation)).Sound := by
  rcases ensureRuneCache_cases sound trusted with
    ⟨starts, after, ensures, ready, same, isSound⟩ | ⟨failure, after, ensures, stumble, isSound⟩
  · have bytes : after.bytes string = world.bytes string := by
      rw [World.bytes, World.bytes, same]
    have count : (cached string).count world = (cached string).count after := by
      simp only [cached, World.utf8RuneCountCached, ensures, ready.ensureRuneCache]
    have offset : ∀ runeIndex,
        (cached string).offset runeIndex world = (cached string).offset runeIndex after := by
      intro runeIndex
      simp only [cached, World.utf8ByteOffsetCached, ensures, ready.ensureRuneCache]
    have gives : operation.run (cached string) (world.bytes string) world =
        ((operation.run (plain (world.bytes string)) (world.bytes string) ()).1, after) := by
      rw [operation.run_congr count offset]
      apply operation.run_of_same
      · rw [ready.count, bytes]
      · intro runeIndex
        rw [ready.offset, bytes]
    constructor
    · rw [Agrees, gives]
    · rw [step, gives]
      exact isSound
  · have gives : operation.run (cached string) (world.bytes string) world =
        (.error failure, after) := by
      apply operation.run_error
      · simp only [cached, World.utf8RuneCountCached, ensures]
      · intro runeIndex
        simp only [cached, World.utf8ByteOffsetCached, ensures]
    have fails : operation.run (plain (world.bytes string)) (world.bytes string) () =
        (.error failure, ()) := by
      apply operation.run_error
      · simp only [plain, stumble.utf8RuneCount]
      · intro runeIndex
        simp only [plain, stumble.utf8RuneCount]
    constructor
    · rw [Agrees, gives, fails]
    · rw [step, gives]
      exact isSound

/-- In every run in which no operation finds a valid cache under its string's key while other bytes
were scanned, or bytes that are no UTF-8, every operation gives what a scan of its string gives. -/
theorem agrees_along {memory : ℕ → UInt8} {events : List Event}
    (trusted : Along step Trusted ⟨memory, .empty, []⟩ events) :
    Along step Agrees ⟨memory, .empty, []⟩ events := by
  have start : World.Sound ⟨memory, .empty, []⟩ := by
    intro valid
    exact absurd valid (by simp [RuneCache.empty])
  refine trusted.imp start ?_
  intro world event sound isTrusted
  cases event with
  | operation string operation => exact operation_of_trusted sound operation isTrusted
  | memory memory => exact ⟨trivial, sound⟩
  | reset =>
    refine ⟨trivial, ?_⟩
    intro valid
    exact absurd valid (by simp [step, RuneCache.empty])

/-- `ab` at the beginning of the memory, and behind it `a` and a byte that begins no rune. -/
def letters : ℕ → UInt8
  | 0 => 97
  | 1 => 98
  | 2 => 97
  | _ => 255

/-- The length of `ab`, and then twice the length of what is behind it. -/
def lengths : List Event :=
  [.operation ⟨0, 2⟩ .length, .operation ⟨2, 2⟩ .length, .operation ⟨2, 2⟩ .length]

/-- The second length of a string that is no UTF-8 is no error but the number of runes before the
scan failed. -/
theorem not_agrees_along : ¬Along step Agrees ⟨letters, .empty, []⟩ lengths := by
  intro along
  exact absurd along.2.2.1 (by simp only [Agrees]; decide)

/-- The length of `ab`, twice. -/
theorem agrees_along_twice :
    Along step Agrees ⟨letters, .empty, []⟩
      [.operation ⟨0, 2⟩ .length, .operation ⟨0, 2⟩ .length] :=
  agrees_along ⟨by intro hit; exact absurd hit (by decide),
    by intro _; exact ⟨by decide, 2, by decide⟩, along_nil⟩

end Gengo.Strings
