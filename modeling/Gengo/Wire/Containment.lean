import Gengo.Wire.Codec

/-!
# Readers that stay inside their input

One way for a reader to stop is no answer: it went past the end of its input, or an integer
did not fit. Such a `fault` is told apart from the errors a reader means to give. A reader is
contained if it never stops with the fault and leaves an end of its input; the instances
below follow the shape of the reader.
-/

namespace Gengo.Wire

open Fallible List Except

variable {δ α β : Type} {fault short failure : δ} {count : ℕ}

/-- The program does not end with `fault`. -/
class Calm (fault : δ) (program : Except δ α) : Prop where
  ne : program ≠ .error fault

/-- On every input, the reader leaves an end of it and does not stop with `fault`. -/
class Reader.Contained (fault : δ) (read : Reader δ α) : Prop where
  meets : ∀ input, Meets read input (fun _ rest => rest <:+ input) (· ≠ fault)

/-- What every value the reader returns is like. -/
def Reader.Returns (read : Reader δ α) (post : α → Prop) : Prop :=
  ∀ input item rest, read input = .ok (item, rest) → post item

section

variable {program : Except δ α} {next : α → Except δ β}

instance (item : α) : Calm fault (pure item : Except δ α) :=
  ⟨nofun⟩

instance (item : α) : Calm fault (.ok item : Except δ α) :=
  ⟨nofun⟩

instance [other : Fact (failure ≠ fault)] : Calm fault (.error failure : Except δ α) :=
  ⟨fun same => other.out (Except.error.inj same)⟩

theorem bind_eq_fault [calm : Calm fault program] :
    program >>= next = .error fault ↔ ∃ item, program = .ok item ∧ next item = .error fault := by
  cases program with
  | error failure =>
    refine ⟨fun same => ?_, fun ⟨_, wrong, _⟩ => nomatch wrong⟩
    cases same
    exact absurd rfl calm.ne
  | ok item => exact ⟨fun same => ⟨item, rfl, same⟩, fun ⟨_, same, ends⟩ => ok.inj same ▸ ends⟩

theorem bind_eq_fault_iff_left (later : ∀ item, Calm fault (next item)) :
    program >>= next = .error fault ↔ program = .error fault := by
  cases program with
  | error failure => exact ⟨fun same => by cases same; rfl, fun same => by cases same; rfl⟩
  | ok item => exact ⟨fun same => absurd same (later item).ne, nofun⟩

theorem Calm.bind (first : Calm fault program)
    (later : ∀ item, program = .ok item → Calm fault (next item)) :
    Calm fault (program >>= next) where
  ne ends := by
    obtain ⟨item, runs, nextEnds⟩ := bind_eq_fault.mp ends
    exact (later item runs).ne nextEnds

instance [first : Calm fault program] [later : ∀ item, Calm fault (next item)] :
    Calm fault (program >>= next) :=
  first.bind fun item _ => later item

end

namespace Reader

variable {read : Reader δ α} {next : α → Reader δ β} {input rest : List UInt8}

theorem bind_eq_ok {result : β × List UInt8} :
    (read >>= next) input = .ok result ↔
      ∃ item rest, read input = .ok (item, rest) ∧ next item rest = .ok result := by
  rw [show (read >>= next) input = read input >>= fun pair => next pair.1 pair.2 from rfl,
    Fallible.bind_eq_ok, Prod.exists]

theorem take_eq_ok {bytes : List UInt8} :
    take short count input = .ok (bytes, rest) ↔
      count ≤ input.length ∧ input.take count = bytes ∧ input.drop count = rest := by
  rw [take, ← Nat.not_lt]
  split <;> simp [*]

theorem le_eq_ok {value : ℕ} :
    le short count input = .ok (value, rest) ↔
      count ≤ input.length ∧ ofLeBytes (input.take count) = value ∧ input.drop count = rest := by
  rw [le, map_eq_pure_bind, bind_eq_ok]
  constructor
  · rintro ⟨bytes, left, taken, same⟩
    obtain ⟨enough, rfl, rfl⟩ := take_eq_ok.mp taken
    exact ⟨enough, Prod.mk.inj (ok.inj same)⟩
  · rintro ⟨enough, rfl, rfl⟩
    exact ⟨_, _, take_eq_ok.mpr ⟨enough, rfl, rfl⟩, rfl⟩

theorem ensure_eq_ok {condition : Bool} {done : Unit} :
    ensure condition failure input = .ok (done, rest) ↔ condition = true ∧ input = rest := by
  cases condition with
  | false => exact ⟨nofun, nofun⟩
  | true => exact ⟨fun runs => ⟨rfl, (Prod.mk.inj (ok.inj runs)).2⟩, fun ⟨_, same⟩ => same ▸ rfl⟩

section

variable {post : α → Prop} {post' : β → Prop}

theorem Returns.of_pure {item : α} (holds : post item) : Returns (pure item : Reader δ α) post :=
  fun _ _ _ runs => (Prod.mk.inj (ok.inj runs)).1 ▸ holds

theorem Returns.bind (first : Returns read post)
    (later : ∀ item, post item → Returns (next item) post') : Returns (read >>= next) post' := by
  intro input result rest runs
  obtain ⟨item, left, isItem, isResult⟩ := bind_eq_ok.mp runs
  exact later item (first input item left isItem) left result rest isResult

theorem Returns.skip (later : ∀ item, Returns (next item) post') : Returns (read >>= next) post' :=
  Returns.bind (fun _ _ _ _ => trivial : Returns read fun _ => True) fun item _ => later item

theorem ofLeBytes_lt (bytes : List UInt8) : ofLeBytes bytes < 256 ^ bytes.length := by
  induction bytes with
  | nil => exact Nat.one_pos
  | cons byte bytes ih =>
    rw [ofLeBytes, length_cons, Nat.pow_succ']
    have := byte.toNat_lt
    omega

theorem returns_le : Returns (le short count) (· < 256 ^ count) := by
  intro input value rest runs
  obtain ⟨enough, rfl, -⟩ := le_eq_ok.mp runs
  have small := ofLeBytes_lt (input.take count)
  rwa [length_take_of_le enough] at small

theorem returns_ensure (condition : Bool) :
    Returns (ensure condition failure) fun _ => condition = true :=
  fun _ _ _ runs => (ensure_eq_ok.mp runs).1

theorem Returns.option (each : Returns read post) :
    Returns (option short failure read) fun item => ∀ found, item = some found → post found := by
  refine .skip fun present => ?_
  split
  · exact each.bind fun item holds => .of_pure fun found same => Option.some.inj same ▸ holds
  · exact .of_pure nofun

theorem Returns.times (each : Returns read post) :
    Returns (times count read) fun items => items.length = count ∧ ∀ item ∈ items, post item := by
  induction count with
  | zero => exact .of_pure ⟨rfl, forall_mem_nil _⟩
  | succ count ih =>
    refine each.bind fun item holds => ih.bind fun items later => .of_pure ?_
    exact ⟨congrArg (· + 1) later.1, forall_mem_cons.mpr ⟨holds, later.2⟩⟩

end

theorem Contained.calm (contained : Contained fault read) (input : List UInt8) :
    Calm fault (read input) :=
  ⟨fun ends => (contained.meets input).failure_of_error ends rfl⟩

instance [contained : Contained fault read] (input : List UInt8) : Calm fault (read.run input) :=
  contained.calm input

theorem bind_eq_fault [contained : Contained fault read] :
    (read >>= next) input = .error fault ↔
      ∃ item rest, read input = .ok (item, rest) ∧ next item rest = .error fault := by
  have := contained.calm input
  rw [show (read >>= next) input = read input >>= fun pair => next pair.1 pair.2 from rfl,
    Wire.bind_eq_fault, Prod.exists]

/-- A read that nothing checks goes wrong when the input is too short for it. -/
theorem take_bind_eq_fault {next : List UInt8 → Reader δ β}
    [later : ∀ item, Contained fault (next item)] :
    (take fault count >>= next) input = .error fault ↔ input.length < count := by
  change (take fault count input >>= fun pair => next pair.1 pair.2) = .error fault ↔ _
  rw [take]
  split
  case isTrue few => exact iff_of_true rfl few
  case isFalse enough => exact iff_of_false ((later _).calm _).ne enough

instance (item : α) : Contained fault (pure item : Reader δ α) :=
  ⟨fun input => .of_pure (suffix_refl input)⟩

instance [other : Fact (failure ≠ fault)] : Contained fault (throw failure : Reader δ α) :=
  ⟨fun _ => .of_error rfl other.out⟩

instance {program : Except δ α} [calm : Calm fault program] :
    Contained fault (liftM program : Reader δ α) where
  meets input := by
    cases runs : program with
    | error failure => exact .of_error rfl fun same => calm.ne (runs.trans (congrArg _ same))
    | ok item => exact .of_ok rfl (suffix_refl input)

theorem Contained.bind {post : α → Prop} (first : Contained fault read)
    (returns : Returns read post) (later : ∀ item, post item → Contained fault (next item)) :
    Contained fault (read >>= next) where
  meets input := by
    have both : Meets read input (fun item rest => rest <:+ input ∧ post item) (· ≠ fault) := by
      cases runs : read input with
      | error failure => exact .of_error runs ((first.meets input).failure_of_error runs)
      | ok pair =>
        exact .of_ok runs ⟨(first.meets input).post_of_ok runs, returns input _ _ runs⟩
    exact both.bind fun item rest ⟨shorter, holds⟩ =>
      ((later item holds).meets rest).mono fun _ _ left => left.trans shorter

theorem Contained.skip (first : Contained fault read)
    (later : ∀ item, Contained fault (next item)) : Contained fault (read >>= next) :=
  first.bind (fun _ _ _ _ => trivial : Returns read fun _ => True) fun item _ => later item

instance [first : Contained fault read] [later : ∀ item, Contained fault (next item)] :
    Contained fault (read >>= next) :=
  first.skip later

instance (f : α → β) [Contained fault read] : Contained fault (f <$> read) := by
  rw [map_eq_pure_bind]
  infer_instance

instance {condition : Prop} [Decidable condition] {then_ : condition → Reader δ α}
    {else_ : ¬ condition → Reader δ α} [∀ holds, Contained fault (then_ holds)]
    [∀ fails, Contained fault (else_ fails)] : Contained fault (dite condition then_ else_) := by
  split <;> infer_instance

instance {condition : Prop} [Decidable condition] {other : Reader δ α} [Contained fault read]
    [Contained fault other] : Contained fault (if condition then read else other) := by
  split <;> infer_instance

section

variable [other : Fact (short ≠ fault)] [Fact (failure ≠ fault)] [contained : Contained fault read]

instance : Contained fault (take short count) where
  meets input := by
    rw [Meets, take]
    split <;> rename_i outcome <;> split at outcome <;> cases outcome
    · exact drop_suffix count input
    · exact other.out

instance : Contained fault (byte short) where
  meets
  | [] => .of_error rfl other.out
  | item :: rest => .of_ok rfl (suffix_cons item rest)

instance (condition : Bool) : Contained fault (ensure condition failure) := by
  unfold ensure
  infer_instance

instance : Contained fault (le short count) := by
  unfold le
  infer_instance

instance : Contained fault (str short) := by
  unfold str
  infer_instance

instance : Contained fault (bool short failure) := by
  unfold bool
  infer_instance

instance : Contained fault (option short failure read) := by
  unfold option
  infer_instance

instance : Contained fault (times count read) := by
  induction count with
  | zero => exact inferInstanceAs (Contained fault (pure []))
  | succ count ih =>
    rw [times]
    infer_instance

instance : Contained fault (counted short count read) := by
  unfold counted
  infer_instance

end

end Reader

end Gengo.Wire
