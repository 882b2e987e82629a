import Gengo.Maps.Keys

/-!
# Hashes against equality

Two values that are equal as keys have to have one hash. Equality looks through the
representations: an integer equals a float or a big integer of the same number, the zeros are
equal, big integers are compared by their digits, and an inline variant equals a variant object.
The hash takes the bits of a number, the address of a big integer, the ordinal of an inline
variant and the name of the arm of a variant object. The ordinal of an enum is taken as an
unsigned number, and a negative one stops the program.
-/

namespace Gengo.Maps

open Bool
open Bytecode (Bytes)

variable (types : Types)

/-- Both values have a hash, and the same one if they are equal. -/
def HashesAgree (first second : Value) : Prop :=
  (mapHashValue types first).isSome ∧ (mapHashValue types second).isSome ∧
    (mapKeyEquals types first second = true → mapHashValue types first = mapHashValue types second)

/-- The enum in the value, under names and payloads, has no negative ordinal. -/
def Hashable : Value → Prop
  | .enumValue _ _ ordinal => 0 ≤ ordinal
  | .namedValue _ _ value => Hashable value
  | .variantValue _ _ _ payload _ _ => Hashable payload
  | _ => True

/-- The words of two equal payloads make up for the difference between the ordinal of the inline
variant and the name of the arm. -/
def ArmsAlike (variant : InlineVariant) (typ : UInt64) (ordinal : ℕ) (payload : Value) : Prop :=
  let arm := UInt64.ofNat variant.ordinal.toNat * hashMultiplier
  let tag := hashBytes (types.armName typ ordinal) * hashMultiplier
  match inlineVariantPayload variant, payload with
  | .int value, .float bits => arm + value.toUInt64 = tag + bits
  | .int value, .bigint address _ => arm + value.toUInt64 = tag + address
  | _, _ => arm = tag

/-- Two equal values are of one representation, down to their payloads, or their words happen to
be the same: the bits of a float those of the integer, the address of a big integer that number. -/
def Alike : Value → Value → Prop
  | .int value, .float bits => value.toUInt64 = bits
  | .float bits, .int value => bits = value.toUInt64
  | .float bits, .float bits' => bits = bits'
  | .int value, .bigint address _ => value.toUInt64 = address
  | .bigint address _, .int value => address = value.toUInt64
  | .bigint address _, .bigint address' _ => address = address'
  | .namedValue _ _ value, .namedValue _ _ value' => Alike value value'
  | .variantValue _ _ _ payload _ _, .variantValue _ _ _ payload' _ _ => Alike payload payload'
  | .inlineVariant variant, .variantValue _ typ ordinal payload _ _ =>
    ArmsAlike types variant typ ordinal payload
  | .variantValue _ typ ordinal payload _ _, .inlineVariant variant =>
    ArmsAlike types variant typ ordinal payload
  | _, _ => True

theorem mapHashLeaf_of_stringBytes {value : Value} {bytes : Bytes}
    (isString : stringBytes? value = some bytes) : mapHashLeaf value = some (hashBytes bytes) := by
  cases value <;> cases isString <;> rw [mapHashLeaf]

variable {first second : Value}

theorem equals_of_stringBytes {bytes others : Bytes} (isString : stringBytes? first = some bytes)
    (isOther : stringBytes? second = some others) :
    equals types first second = (bytes == others) := by
  cases first <;> cases second <;>
    simp_all [stringBytes?, equals, equalsLeaf]

theorem mapKeyEquals_eq_equals (first second : Value) :
    mapKeyEquals types first second = equals types first second := by
  rw [mapKeyEquals]
  cases isString : stringBytes? first with
  | none => rfl
  | some bytes =>
    cases isOther : stringBytes? second with
    | none => rfl
    | some others => exact (equals_of_stringBytes types isString isOther).symm

variable (variant : InlineVariant)

theorem isSome_mapHashLeaf_payload : (mapHashLeaf (inlineVariantPayload variant)).isSome := by
  rw [inlineVariantPayload]
  split <;> rfl

theorem isSome_mapHashValue_iff (value : Value) :
    (mapHashValue types value).isSome ↔ Hashable value := by
  match value with
  | .namedValue _ typ value =>
    have inner := isSome_mapHashValue_iff value
    rw [Hashable, mapHashValue, ← inner]
    cases mapHashValue types value <;> simp
  | .variantValue _ typ ordinal payload _ _ =>
    have inner := isSome_mapHashValue_iff payload
    rw [Hashable, mapHashValue, ← inner]
    cases mapHashValue types payload <;> simp
  | .inlineVariant variant =>
    have inner := isSome_mapHashLeaf_payload variant
    rw [mapHashValue]
    cases hash : mapHashLeaf (inlineVariantPayload variant) with
    | none => simp [hash] at inner
    | some _ => simp [Hashable]
  | .enumValue _ typ ordinal =>
    rw [mapHashValue, mapHashLeaf, Hashable]
    · split <;> simp_all
    all_goals simp
  | .int _ | .float _ | .decimal _ | .rune _ | .boolean _ | .string _ | .errorValue _ | .null
  | .actorRef _ _ | .dynString _ _ | .stringView _ _ | .bigint _ _ | .otherObject _ =>
    exact iff_of_true rfl trivial

theorem mul_hashMultiplier_inj {first second : UInt64} :
    first * hashMultiplier = second * hashMultiplier ↔ first = second := by
  constructor
  · intro same
    have inverse : hashMultiplier * 0xf1de83e19937733d = 1 := by decide +kernel
    have cancelled := congrArg (· * 0xf1de83e19937733d) same
    simpa only [mul_assoc, inverse, mul_one] using cancelled
  · exact congrArg (· * hashMultiplier)

theorem hashMix64_right_inj {first second other : UInt64} :
    hashMix64 first second = hashMix64 first other ↔ second = other :=
  add_right_inj _

variable {typ : UInt64}

theorem hashMix64_eq_iff {arm tag first second : UInt64} :
    hashMix64 (hashMix64 typ arm) first = hashMix64 (hashMix64 typ tag) second ↔
      arm * hashMultiplier + first = tag * hashMultiplier + second := by
  rw [hashMix64, hashMix64, hashMix64, hashMix64, add_mul, add_mul, add_assoc, add_assoc,
    add_right_inj]

theorem mapHashValue_namedValue (address typ : UInt64) (value : Value) :
    mapHashValue types (.namedValue address typ value) =
      (mapHashValue types value).map (hashMix64 typ) := by
  rw [mapHashValue]
  cases mapHashValue types value <;> simp

theorem mapHashValue_variantValue (address typ : UInt64) (ordinal : ℕ) (payload : Value)
    (sharedValues armFields : List Value) :
    mapHashValue types (.variantValue address typ ordinal payload sharedValues armFields) =
      (mapHashValue types payload).map
        (hashMix64 (hashMix64 typ (hashBytes (types.armName typ ordinal)))) := by
  rw [mapHashValue]
  cases mapHashValue types payload <;> simp

theorem mapHashValue_inlineVariant :
    mapHashValue types (.inlineVariant variant) =
      (mapHashLeaf (inlineVariantPayload variant)).map
        (hashMix64 (hashMix64 (types.objectAtIdx variant.typIdx)
          (UInt64.ofNat variant.ordinal.toNat))) := by
  rw [mapHashValue]
  cases mapHashLeaf (inlineVariantPayload variant) <;> simp

theorem map_hashMix64_eq_iff {first second : Option UInt64} :
    first.map (hashMix64 typ) = second.map (hashMix64 typ) ↔ first = second :=
  (Option.map_injective fun _ _ => hashMix64_right_inj.mp).eq_iff

/-- Equal values without a name or an arm have one hash if they are alike. -/
theorem mapHashLeaf_eq_iff (equal : equalsLeaf first second = true) :
    mapHashLeaf first = mapHashLeaf second ↔ Alike types first second := by
  unfold equalsLeaf at equal
  split at equal
  · next bytes others isString isOther =>
      rw [beq_iff_eq] at equal
      subst equal
      rw [mapHashLeaf_of_stringBytes isString, mapHashLeaf_of_stringBytes isOther]
      refine iff_of_true rfl ?_
      cases first <;> cases isString <;> cases second <;> cases isOther <;> trivial
  · split at equal <;> simp_all [mapHashLeaf, Alike]

theorem inlineVariantPayload_cases :
    (∃ value, inlineVariantPayload variant = .int value) ∨
      (∃ value, inlineVariantPayload variant = .boolean value) ∨
      (∃ value, inlineVariantPayload variant = .rune value) ∨
      (∃ value, inlineVariantPayload variant = .decimal value) ∨
      inlineVariantPayload variant = .null := by
  rw [inlineVariantPayload]
  split
  · exact .inl ⟨_, rfl⟩
  · exact .inr (.inl ⟨_, rfl⟩)
  · exact .inr (.inr (.inl ⟨_, rfl⟩))
  · exact .inr (.inr (.inr (.inl ⟨_, rfl⟩)))
  · exact .inr (.inr (.inr (.inr rfl)))

theorem inlineVariant_eq_variantValue_iff {variant : InlineVariant} {ordinal : ℕ}
    {payload : Value} (equal : equalsLeaf (inlineVariantPayload variant) payload = true ∨
      equalsLeaf payload (inlineVariantPayload variant) = true) :
    (mapHashLeaf (inlineVariantPayload variant)).map
        (hashMix64 (hashMix64 typ (UInt64.ofNat variant.ordinal.toNat))) =
      (mapHashValue types payload).map
        (hashMix64 (hashMix64 typ (hashBytes (types.armName typ ordinal)))) ↔
    ArmsAlike types variant typ ordinal payload := by
  unfold ArmsAlike
  rcases inlineVariantPayload_cases variant with
    ⟨value, is⟩ | ⟨value, is⟩ | ⟨value, is⟩ | ⟨value, is⟩ | is
  all_goals
    rw [is] at equal ⊢
    rcases equal with equal | equal <;> cases payload <;>
      simp [equalsLeaf, stringBytes?] at equal <;>
      simp [mapHashValue, mapHashLeaf, hashMix64_eq_iff, equal, mul_hashMultiplier_inj]

theorem equals_inlineVariantPayload (payload : Value) (variant : InlineVariant) :
    equals types payload (inlineVariantPayload variant) =
      equalsLeaf payload (inlineVariantPayload variant) := by
  rcases inlineVariantPayload_cases variant with
    ⟨value, is⟩ | ⟨value, is⟩ | ⟨value, is⟩ | ⟨value, is⟩ | is
  all_goals
    rw [is]
    cases payload <;> rfl

theorem mapHashValue_of_equalsLeaf (equal : equalsLeaf first second = true) :
    mapHashValue types first = mapHashLeaf first ∧
      mapHashValue types second = mapHashLeaf second := by
  unfold equalsLeaf at equal
  split at equal
  · next bytes others isString isOther =>
      cases first <;> cases isString <;> cases second <;> cases isOther <;> exact ⟨rfl, rfl⟩
  · split at equal <;> simp_all [mapHashValue]

include types in
theorem mapHashLeaf_payload_eq {first second : InlineVariant}
    (equal : equalsLeaf (inlineVariantPayload first) (inlineVariantPayload second) = true) :
    mapHashLeaf (inlineVariantPayload first) = mapHashLeaf (inlineVariantPayload second) := by
  rw [mapHashLeaf_eq_iff types equal]
  rcases inlineVariantPayload_cases second with
    ⟨value, shape⟩ | ⟨value, shape⟩ | ⟨value, shape⟩ | ⟨value, shape⟩ | shape <;>
    rw [shape] <;>
    rcases inlineVariantPayload_cases first with
      ⟨value', shape'⟩ | ⟨value', shape'⟩ | ⟨value', shape'⟩ | ⟨value', shape'⟩ | shape' <;>
    rw [shape'] <;> trivial

/-- Equal values have one hash exactly if they are alike. The recursion is on the first value,
through names and payloads. -/
theorem mapHashValue_eq_iff (first second : Value) (equal : equals types first second = true) :
    mapHashValue types first = mapHashValue types second ↔ Alike types first second := by
  have ofLeaf (leaf : equalsLeaf first second = true) :
      mapHashValue types first = mapHashValue types second ↔ Alike types first second := by
    rcases mapHashValue_of_equalsLeaf types leaf with ⟨hash, hash'⟩
    rw [hash, hash']
    exact mapHashLeaf_eq_iff types leaf
  match first with
  | .namedValue address typ value =>
    cases second with
    | namedValue address' typ' value' =>
      rw [equals, and_eq_true, beq_iff_eq] at equal
      rcases equal with ⟨sameType, sameValue⟩
      subst sameType
      rw [mapHashValue_namedValue, mapHashValue_namedValue, map_hashMix64_eq_iff, Alike]
      exact mapHashValue_eq_iff value value' sameValue
    | _ => exact ofLeaf equal
  | .variantValue address typ ordinal payload _ _ =>
    cases second with
    | variantValue address' typ' ordinal' payload' _ _ =>
      rw [equals] at equal
      simp only [and_eq_true, beq_iff_eq] at equal
      rcases equal with ⟨⟨⟨⟨sameType, sameOrdinal⟩, samePayload⟩, _⟩, _⟩
      subst sameType sameOrdinal
      rw [mapHashValue_variantValue, mapHashValue_variantValue, map_hashMix64_eq_iff, Alike]
      exact mapHashValue_eq_iff payload payload' samePayload
    | inlineVariant variant =>
      rw [equals] at equal
      simp only [and_eq_true, beq_iff_eq] at equal
      rcases equal with ⟨⟨sameType, _⟩, samePayload⟩
      rw [equals_inlineVariantPayload] at samePayload
      rw [mapHashValue_variantValue, mapHashValue_inlineVariant, ← sameType, eq_comm, Alike]
      exact inlineVariant_eq_variantValue_iff types (.inr samePayload)
    | _ => exact ofLeaf equal
  | .inlineVariant variant =>
    cases second with
    | variantValue address typ ordinal payload _ _ =>
      rw [equals] at equal
      simp only [and_eq_true, beq_iff_eq] at equal
      rcases equal with ⟨⟨sameType, _⟩, samePayload⟩
      rw [mapHashValue_variantValue, mapHashValue_inlineVariant, sameType, Alike]
      exact inlineVariant_eq_variantValue_iff types (.inl samePayload)
    | inlineVariant variant' =>
      rw [equals] at equal
      simp only [and_eq_true, beq_iff_eq] at equal
      rcases equal with ⟨⟨sameType, sameOrdinal⟩, samePayload⟩
      rw [mapHashValue_inlineVariant, mapHashValue_inlineVariant, sameType, sameOrdinal,
        mapHashLeaf_payload_eq types samePayload]
      exact iff_of_true rfl trivial
    | _ => exact ofLeaf equal
  | .int _ | .float _ | .decimal _ | .rune _ | .boolean _ | .string _ | .errorValue _ | .null
  | .actorRef _ _ | .dynString _ _ | .stringView _ _ | .bigint _ _ | .enumValue _ _ _
  | .otherObject _ => exact ofLeaf (by cases second <;> exact equal)

/-- The hashes of two values agree exactly if there are hashes, and the values are alike when they
are equal. -/
theorem hashesAgree_iff (first second : Value) :
    HashesAgree types first second ↔
      Hashable first ∧ Hashable second ∧
        (mapKeyEquals types first second = true → Alike types first second) := by
  rw [HashesAgree, isSome_mapHashValue_iff, isSome_mapHashValue_iff, mapKeyEquals_eq_equals]
  refine and_congr_right fun _ => and_congr_right fun _ => ?_
  constructor
  · intro agree equal
    exact (mapHashValue_eq_iff types first second equal).mp (agree equal)
  · intro alike equal
    exact (mapHashValue_eq_iff types first second equal).mpr (alike equal)

/-- The integer 1 and the float 1.0 are equal keys with two hashes. -/
theorem not_hashesAgree :
    ¬∀ (types : Types) (first second : Value), HashesAgree types first second := by
  intro agree
  have ofOne := (agree ⟨fun _ => 0, fun _ _ => []⟩ (.int 1) (.float 0x3FF0000000000000)).2.2
  revert ofOne
  decide +kernel

end Gengo.Maps
