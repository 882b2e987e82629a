import Gengo.Network.Sockets
import Mathlib.Data.Nat.Digits.Defs

/-!
# Written numbers

The numbers of ports, prefix lengths and IPv4 addresses as they are written, apart from the
functions that read them: digits in base ten with underscores between them, as the standard
library documents it, and a sign where it takes one.
-/

namespace Gengo.Network

open List
open Bytecode (Bytes)

/-- The digits of a text without its underscores. -/
def IsDigits (text : Bytes) (digits : List ℕ) : Prop :=
  (∀ digit ∈ digits, digit < 10) ∧
    text.filter (· ≠ 95) = digits.map fun digit => UInt8.ofNat (48 + digit)

/-- A number in base ten: digits, and underscores between them. -/
def Numeral (text : Bytes) (n : ℕ) : Prop :=
  ∃ digits, IsDigits text digits ∧ digits ≠ [] ∧ text.head? ≠ some 95 ∧ text.getLast? ≠ some 95 ∧
    n = Nat.ofDigits 10 digits.reverse

/-- A number up to `limit`, behind a sign or none. -/
inductive SignedNumeral (limit : ℕ) : Bytes → ℕ → Prop
  | plain {text : Bytes} {n : ℕ} (numeral : Numeral text n) (fits : n ≤ limit) :
      SignedNumeral limit text n
  | plus {text : Bytes} {n : ℕ} (numeral : Numeral text n) (fits : n ≤ limit) :
      SignedNumeral limit (43 :: text) n
  | minus {text : Bytes} (numeral : Numeral text 0) : SignedNumeral limit (45 :: text) 0

/-- Four numbers up to 255 with points between them. -/
def SpellsIp4 (text : Bytes) (ip : Ip4) : Prop :=
  ∃ a b c d : Bytes, text = [46].intercalate [a, b, c, d] ∧
    SignedNumeral 255 a ip.a.toNat ∧ SignedNumeral 255 b ip.b.toNat ∧
    SignedNumeral 255 c ip.c.toNat ∧ SignedNumeral 255 d ip.d.toNat

theorem charToDigit_eq_some_iff {c : UInt8} {digit : ℕ} :
    charToDigit c = some digit ↔ digit < 10 ∧ c = UInt8.ofNat (48 + digit) := by
  rw [charToDigit]
  constructor
  · intro found
    split at found
    next inside =>
      cases found
      have lower : 48 ≤ c.toNat := UInt8.le_iff_toNat_le.mp inside.1
      have upper : c.toNat ≤ 57 := UInt8.le_iff_toNat_le.mp inside.2
      refine ⟨by omega, ?_⟩
      rw [Nat.add_sub_cancel' lower, UInt8.ofNat_toNat]
    next => cases found
  · rintro ⟨small, rfl⟩
    revert digit
    decide

/-- A number read so far, and digits behind it. -/
theorem ofDigits_reverse_cons (read digit : ℕ) (digits : List ℕ) :
    Nat.ofDigits 10 ((digit :: digits).reverse ++ [read]) =
      Nat.ofDigits 10 (digits.reverse ++ [read * 10 + digit]) := by
  simp only [reverse_cons, List.append_assoc, singleton_append, Nat.ofDigits_append,
    Nat.ofDigits_cons, Nat.ofDigits_nil]
  ring

theorem le_ofDigits_append (read : ℕ) (digits : List ℕ) :
    read ≤ Nat.ofDigits 10 (digits ++ [read]) := by
  rw [Nat.ofDigits_append, Nat.ofDigits_singleton]
  exact (Nat.le_mul_of_pos_left read (by positivity)).trans (Nat.le_add_left _ _)

theorem filter_cons_of_ne {c : UInt8} (other : c ≠ 95) (text : Bytes) :
    (c :: text).filter (· ≠ 95) = c :: text.filter (· ≠ 95) :=
  filter_cons_of_pos (decide_eq_true other)

theorem isDigits_cons_iff {text : Bytes} {digit : ℕ} {digits : List ℕ} (small : digit < 10) :
    IsDigits (UInt8.ofNat (48 + digit) :: text) digits ↔
      ∃ others, digits = digit :: others ∧ IsDigits text others := by
  have other : UInt8.ofNat (48 + digit) ≠ 95 := by
    revert digit
    decide
  rw [IsDigits, filter_cons_of_ne other]
  constructor
  · rintro ⟨allSmall, same⟩
    cases digits with
    | nil => cases same
    | cons first others =>
      rw [map_cons, cons_eq_cons] at same
      have found := charToDigit_eq_some_iff.mpr ⟨allSmall first mem_cons_self, same.1⟩
      cases (charToDigit_eq_some_iff.mpr ⟨small, rfl⟩).symm.trans found
      exact ⟨others, rfl, fun digit member => allSmall digit (mem_cons_of_mem _ member), same.2⟩
  · rintro ⟨others, rfl, allSmall, same⟩
    exact ⟨forall_mem_cons.mpr ⟨small, allSmall⟩, congrArg _ same⟩

theorem accumulate_eq_some_iff {limit n : ℕ} {negative : Bool} {text : Bytes} {read : ℕ}
    (fits : read ≤ limit) (zero : negative → read = 0) :
    accumulate limit negative read text = some n ↔
      (∃ digits, IsDigits text digits ∧ n = Nat.ofDigits 10 (digits.reverse ++ [read])) ∧
        n ≤ limit ∧ (negative → n = 0) := by
  induction text generalizing read with
  | nil =>
    constructor
    · intro same
      cases same
      exact ⟨⟨[], ⟨by simp, rfl⟩, (Nat.ofDigits_singleton).symm⟩, fits, zero⟩
    · rintro ⟨⟨digits, ⟨-, empty⟩, rfl⟩, -⟩
      obtain rfl := map_eq_nil_iff.mp empty.symm
      exact congrArg some (Nat.ofDigits_singleton).symm
  | cons c text ih =>
    rw [accumulate]
    split
    next underscore =>
      subst underscore
      simpa [IsDigits] using ih fits zero
    next other =>
      cases isDigit : charToDigit c with
      | none =>
        refine iff_of_false (by simp) ?_
        rintro ⟨⟨digits, ⟨small, same⟩, -⟩, -⟩
        rw [filter_cons_of_ne other] at same
        cases digits with
        | nil => cases same
        | cons digit digits =>
          have found := charToDigit_eq_some_iff.mpr
            ⟨small digit mem_cons_self, (cons_eq_cons.mp same).1⟩
          cases isDigit.symm.trans found
      | some digit =>
        obtain ⟨small, rfl⟩ := charToDigit_eq_some_iff.mp isDigit
        have goesOn : (∃ digits, IsDigits (UInt8.ofNat (48 + digit) :: text) digits ∧
              n = Nat.ofDigits 10 (digits.reverse ++ [read])) ↔
            ∃ digits, IsDigits text digits ∧
              n = Nat.ofDigits 10 (digits.reverse ++ [read * 10 + digit]) := by
          simp only [isDigits_cons_iff small]
          constructor
          · rintro ⟨_, ⟨others, rfl, isDigits⟩, same⟩
            exact ⟨others, isDigits, same.trans (ofDigits_reverse_cons read digit others)⟩
          · rintro ⟨others, isDigits, same⟩
            exact ⟨_, ⟨others, rfl, isDigits⟩,
              same.trans (ofDigits_reverse_cons read digit others).symm⟩
        rw [goesOn]
        have least : (∃ digits, IsDigits text digits ∧
            n = Nat.ofDigits 10 (digits.reverse ++ [read * 10 + digit])) →
              read * 10 + digit ≤ n := by
          rintro ⟨digits, -, rfl⟩
          exact le_ofDigits_append _ _
        dsimp only
        split
        next refused =>
          refine iff_of_false (by simp) fun both => refused.2 ?_
          have isZero := both.2.2 refused.1
          have atLeast := least both.1
          omega
        next allowed =>
          split
          next tooLarge =>
            refine iff_of_false (by simp) fun both => ?_
            exact absurd (tooLarge.trans_le (least both.1)) (Nat.not_lt.mpr both.2.1)
          next small =>
            refine ih (Nat.not_lt.mp small) fun isNegative => ?_
            have isZero : digit = 0 := by
              by_contra nonzero
              exact allowed ⟨isNegative, nonzero⟩
            rw [zero isNegative, isZero]

theorem parseIntWithSign_eq_some_iff {limit n : ℕ} {negative : Bool} {text : Bytes} :
    parseIntWithSign limit negative text = some n ↔
      Numeral text n ∧ n ≤ limit ∧ (negative → n = 0) := by
  have sum (digits : List ℕ) :
      Nat.ofDigits 10 (digits.reverse ++ [0]) = Nat.ofDigits 10 digits.reverse :=
    Nat.ofDigits_append_zero _
  rw [parseIntWithSign]
  split
  next empty =>
    subst empty
    refine iff_of_false (by simp) ?_
    rintro ⟨⟨digits, ⟨-, none_⟩, nonempty, -⟩, -⟩
    exact nonempty (map_eq_nil_iff.mp none_.symm)
  next nonempty =>
    split
    next underscore =>
      refine iff_of_false (by simp) ?_
      rintro ⟨⟨digits, -, -, first, last, -⟩, -⟩
      exact underscore.elim first last
    next inside =>
      rw [accumulate_eq_some_iff (Nat.zero_le _) fun _ => rfl]
      refine and_congr_left fun _ => ?_
      obtain ⟨first, last⟩ := not_or.mp inside
      constructor
      · rintro ⟨digits, isDigits, rfl⟩
        refine ⟨digits, isDigits, ?_, first, last, sum digits⟩
        rintro rfl
        cases text with
        | nil => exact nonempty rfl
        | cons c text =>
          have isFirst : c ≠ 95 := fun same => first (congrArg some same)
          have kept := isDigits.2
          rw [filter_cons_of_ne isFirst] at kept
          cases kept
      · rintro ⟨digits, isDigits, -, -, -, rfl⟩
        exact ⟨digits, isDigits, (sum digits).symm⟩

/-- `parsePort` reads the numbers up to 65535. -/
theorem parsePort_eq_some_iff {text : Bytes} {port : UInt16} :
    parsePort text = some port ↔ Numeral text port.toNat := by
  rw [parsePort, parseUnsigned, Option.map_eq_some_iff]
  constructor
  · rintro ⟨n, read, rfl⟩
    obtain ⟨numeral, fits, -⟩ := parseIntWithSign_eq_some_iff.mp read
    rwa [UInt16.toNat_ofNat_of_lt' (Nat.lt_succ_of_le fits)]
  · intro numeral
    have fits := Nat.le_of_lt_succ port.toNat_lt
    exact ⟨_, parseIntWithSign_eq_some_iff.mpr ⟨numeral, fits, nofun⟩, UInt16.ofNat_toNat⟩

theorem Numeral.not_mem {text : Bytes} {n : ℕ} (numeral : Numeral text n) {c : UInt8}
    (noDigit : charToDigit c = none) (other : c ≠ 95) : c ∉ text := by
  obtain ⟨digits, ⟨small, same⟩, -⟩ := numeral
  intro member
  have kept : c ∈ text.filter (· ≠ 95) := mem_filter.mpr ⟨member, decide_eq_true other⟩
  rw [same] at kept
  obtain ⟨digit, isDigit, rfl⟩ := mem_map.mp kept
  cases noDigit.symm.trans (charToDigit_eq_some_iff.mpr ⟨small digit isDigit, rfl⟩)

theorem parseInt_eq_some_iff {limit n : ℕ} {text : Bytes} :
    parseInt limit text = some n ↔ SignedNumeral limit text n := by
  constructor
  · intro read
    unfold parseInt at read
    split at read
    · obtain ⟨numeral, fits, -⟩ := parseIntWithSign_eq_some_iff.mp read
      exact .plus numeral fits
    · obtain ⟨numeral, -, zero⟩ := parseIntWithSign_eq_some_iff.mp read
      obtain rfl := zero rfl
      exact .minus numeral
    · obtain ⟨numeral, fits, -⟩ := parseIntWithSign_eq_some_iff.mp read
      exact .plain numeral fits
  · rintro (⟨numeral, fits⟩ | ⟨numeral, fits⟩ | numeral)
    · have noPlus := numeral.not_mem (c := 43) (by decide) (by decide)
      have noMinus := numeral.not_mem (c := 45) (by decide) (by decide)
      rw [parseInt]
      · exact parseIntWithSign_eq_some_iff.mpr ⟨numeral, fits, nofun⟩
      · rintro digits rfl
        exact noPlus mem_cons_self
      · rintro digits rfl
        exact noMinus mem_cons_self
    · exact parseIntWithSign_eq_some_iff.mpr ⟨numeral, fits, nofun⟩
    · exact parseIntWithSign_eq_some_iff.mpr ⟨numeral, Nat.zero_le _, fun _ => rfl⟩

theorem SignedNumeral.point_not_mem {limit n : ℕ} {text : Bytes}
    (numeral : SignedNumeral limit text n) : 46 ∉ text := by
  have noPoint {text : Bytes} {n : ℕ} (numeral : Numeral text n) : 46 ∉ text :=
    numeral.not_mem (by decide) (by decide)
  rcases numeral with ⟨numeral, -⟩ | ⟨numeral, -⟩ | numeral
  · exact noPoint numeral
  · exact not_mem_cons_of_ne_of_not_mem (by decide) (noPoint numeral)
  · exact not_mem_cons_of_ne_of_not_mem (by decide) (noPoint numeral)

theorem SignedNumeral.toNat_ofNat {n : ℕ} {text : Bytes}
    (numeral : SignedNumeral 255 text n) : (UInt8.ofNat n).toNat = n := by
  have fits : n ≤ 255 := by
    rcases numeral with ⟨-, fits⟩ | ⟨-, fits⟩ | -
    · exact fits
    · exact fits
    · exact Nat.zero_le _
  exact UInt8.toNat_ofNat_of_lt' (Nat.lt_succ_of_le fits)

theorem forall₂_of_mapM {read : Bytes → Option ℕ} {texts : List Bytes} {numbers : List ℕ}
    (found : texts.mapM read = some numbers) :
    List.Forall₂ (fun text n => read text = some n) texts numbers := by
  induction texts generalizing numbers with
  | nil =>
    cases found
    exact .nil
  | cons text texts ih =>
    rw [mapM_cons] at found
    obtain ⟨n, isFirst, found⟩ := Option.bind_eq_some_iff.mp found
    obtain ⟨others, areOthers, same⟩ := Option.bind_eq_some_iff.mp found
    cases same
    exact .cons isFirst (ih areOthers)

theorem parseIPv4_eq_some_iff {text : Bytes} {ip : Ip4} :
    parseIPv4 text = some ip ↔ SpellsIp4 text ip := by
  constructor
  · intro read
    rw [parseIPv4] at read
    split at read
    next a b c d found =>
      cases read
      have joined : [46].intercalate (text.splitOn 46) = text := intercalate_splitOn 46
      generalize text.splitOn 46 = parts at found joined
      obtain _ | ⟨first, _ | ⟨second, _ | ⟨third, _ | ⟨fourth, _ | _⟩⟩⟩⟩ := forall₂_of_mapM found
      rw [parseInt_eq_some_iff] at first second third fourth
      refine ⟨_, _, _, _, joined.symm, ?_⟩
      simp only [first.toNat_ofNat, second.toNat_ofNat, third.toNat_ofNat, fourth.toNat_ofNat]
      exact ⟨first, second, third, fourth⟩
    next => cases read
  · rintro ⟨a, b, c, d, rfl, first, second, third, fourth⟩
    have cut : ([46].intercalate [a, b, c, d]).splitOn 46 = [a, b, c, d] := by
      apply splitOn_intercalate
      · simp [first.point_not_mem, second.point_not_mem, third.point_not_mem, fourth.point_not_mem]
      · exact cons_ne_nil _ _
    rw [parseIPv4, cut]
    simp [parseInt_eq_some_iff.mpr first, parseInt_eq_some_iff.mpr second,
      parseInt_eq_some_iff.mpr third, parseInt_eq_some_iff.mpr fourth]

end Gengo.Network
