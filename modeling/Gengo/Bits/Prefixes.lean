import Mathlib.Data.List.Forall2

/-!
# Bit prefixes

Two byte strings agree on their first bits when a mask keeps the same of both. The bits of a byte
are counted from its highest one.
-/

namespace Gengo.Bits

/-- The ones that keep the first `kept` bits of a word. -/
def prefixMask (w kept : ℕ) : BitVec w :=
  BitVec.allOnes w <<< (w - kept)

theorem getMsbD_prefixMask {w kept i : ℕ} (fits : kept ≤ w) :
    (prefixMask w kept).getMsbD i = decide (i < kept) := by
  rw [prefixMask, BitVec.getMsbD_shiftLeft, BitVec.getMsbD_allOnes, decide_eq_decide]
  omega

theorem and_prefixMask_eq_iff {w kept : ℕ} (fits : kept ≤ w) {x y : BitVec w} :
    x &&& prefixMask w kept = y &&& prefixMask w kept ↔ ∀ i < kept, x.getMsbD i = y.getMsbD i := by
  constructor
  · intro same i inside
    have sameBit := congrArg (fun word => word.getMsbD i) same
    simpa [getMsbD_prefixMask fits, inside] using sameBit
  · intro agree
    apply BitVec.eq_of_getMsbD_eq
    intro i _
    by_cases inside : i < kept
    · simp [agree i inside]
    · simp [getMsbD_prefixMask fits, inside]

/-- A bit of a byte string. Past its end all bits are zero. -/
def bit (bytes : List UInt8) (i : ℕ) : Bool :=
  (bytes.getD (i / 8) 0).toBitVec.getMsbD (i % 8)

/-- The first `count` bits of two byte strings are the same. -/
def AgreeOn (count : ℕ) (xs ys : List UInt8) : Prop :=
  ∀ i < count, bit xs i = bit ys i

instance (count : ℕ) (xs ys : List UInt8) : Decidable (AgreeOn count xs ys) :=
  inferInstanceAs (Decidable (∀ i < count, _))

variable {x y : UInt8} {xs ys : List UInt8}

theorem bit_cons_of_lt (x : UInt8) (xs : List UInt8) {i : ℕ} (inside : i < 8) :
    bit (x :: xs) i = x.toBitVec.getMsbD i := by
  rw [bit, Nat.div_eq_of_lt inside, Nat.mod_eq_of_lt inside, List.getD_cons_zero]

theorem bit_cons_add (x : UInt8) (xs : List UInt8) (i : ℕ) : bit (x :: xs) (i + 8) = bit xs i := by
  rw [bit, Nat.add_div_right i (by decide), Nat.add_mod_right, List.getD_cons_succ, bit]

@[simp]
theorem agreeOn_zero : AgreeOn 0 xs ys :=
  fun _ inside => absurd inside (Nat.not_lt_zero _)

theorem AgreeOn.mono {few many : ℕ} (le : few ≤ many) (agree : AgreeOn many xs ys) :
    AgreeOn few xs ys :=
  fun i inside => agree i (Nat.lt_of_lt_of_le inside le)

/-- Up to a byte the first bytes decide, and after it what follows them. -/
theorem agreeOn_cons_iff (count : ℕ) :
    AgreeOn count (x :: xs) (y :: ys) ↔
      (∀ i < min count 8, x.toBitVec.getMsbD i = y.toBitVec.getMsbD i) ∧
        AgreeOn (count - 8) xs ys := by
  constructor
  · intro agree
    constructor
    · intro i inside
      rw [← bit_cons_of_lt x xs (by omega), ← bit_cons_of_lt y ys (by omega)]
      exact agree i (by omega)
    · intro i inside
      rw [← bit_cons_add x xs, ← bit_cons_add y ys]
      exact agree (i + 8) (by omega)
  · rintro ⟨here, behind⟩ i inside
    by_cases first : i < 8
    · rw [bit_cons_of_lt x xs first, bit_cons_of_lt y ys first]
      exact here i (by omega)
    · obtain ⟨k, rfl⟩ : ∃ k, i = k + 8 := ⟨i - 8, by omega⟩
      rw [bit_cons_add, bit_cons_add]
      exact behind k (by omega)

/-- The bytes of a word, the highest first. -/
def ofBytes : (bytes : List UInt8) → BitVec (8 * bytes.length)
  | [] => 0
  | byte :: bytes => (byte.toBitVec ++ ofBytes bytes).cast (by rw [List.length_cons]; omega)

theorem getMsbD_ofBytes (bytes : List UInt8) (i : ℕ) : (ofBytes bytes).getMsbD i = bit bytes i := by
  induction bytes generalizing i with
  | nil => simp [ofBytes, bit]
  | cons byte bytes ih =>
    rw [ofBytes, BitVec.getMsbD_cast, BitVec.getMsbD_append]
    by_cases first : i < 8
    · rw [if_neg (by omega), bit_cons_of_lt _ _ first]
    · obtain ⟨k, rfl⟩ : ∃ k, i = k + 8 := ⟨i - 8, by omega⟩
      rw [if_pos (by omega), Nat.add_sub_cancel, ih, bit_cons_add]

end Gengo.Bits
