import Bdns.Consensus.Pos

/-!
# Leaders have stake

The walk of `GetSlotLeaderUtil` over exact fractions. It stops at the first key at which the
cumulative weight reaches the seed. A positive seed lies above the weight before that key, so the
key has a weight of its own. The seed zero is reached by the first key, whatever its stake.
-/

namespace Bdns.Consensus

open Lib Blockchain

/-! ## The walk over an ordered monoid -/

section Walk

variable {F : Type} [AddCommMonoid F] [LinearOrder F] {probs : Bytes → F} {keys : List Bytes}
  {key : Bytes} {seed start : F}

/-- The walk ends at a key if the weights add up to the seed. -/
theorem walk_isSome_of_le_sum (hKeys : keys ≠ [])
    (hSum : seed ≤ start + (keys.map fun key => probs (hexEncode key)).sum) :
    (walk seed keys (cumulativeWeights probs start keys)).isSome := by
  induction keys generalizing start with
  | nil => exact absurd rfl hKeys
  | cons key keys ih =>
    rw [cumulativeWeights, walk_cons]
    split
    · rfl
    · rename_i hBelow
      rw [List.map_cons, List.sum_cons, ← add_assoc] at hSum
      apply ih _ hSum
      rintro rfl
      rw [List.map_nil, List.sum_nil, add_zero] at hSum
      exact hBelow hSum

/-- From below the seed the walk ends at a key with a positive weight. -/
theorem weight_pos_of_walk [IsOrderedCancelAddMonoid F] (hStart : start < seed)
    (hWalk : walk seed keys (cumulativeWeights probs start keys) = some key) :
    0 < probs (hexEncode key) := by
  induction keys generalizing start with
  | nil => simp [walk] at hWalk
  | cons first keys ih =>
    rw [cumulativeWeights, walk_cons] at hWalk
    split at hWalk
    · rename_i hReached
      obtain rfl := Option.some.inj hWalk
      exact pos_of_lt_add_right (hStart.trans_le hReached)
    · rename_i hBelow
      exact ih (not_le.mp hBelow) hWalk

end Walk

/-! ## Stakes -/

/-- The stake of a registry key, zero for a missing one. -/
def stakeOf (stakeData : Std.ExtTreeMap Bytes UInt64 compare) (key : Bytes) : UInt64 :=
  (stakeData[hexEncode key]?).getD 0

/-- The stakes of the registry keys, added without overflow. -/
def totalStake (registryKeys : List Bytes) (stakeData : Std.ExtTreeMap Bytes UInt64 compare) : Nat :=
  (registryKeys.map fun key => (stakeOf stakeData key).toNat).sum

section Stakes

variable {keys : List Bytes} {stakeData : Std.ExtTreeMap Bytes UInt64 compare}

theorem toNat_stakeSum (hFits : totalStake keys stakeData < 2 ^ 64) :
    (stakeSum keys stakeData).toNat = totalStake keys stakeData := by
  induction keys using List.reverseRecOn with
  | nil => rfl
  | append_singleton keys key ih =>
    have hSum : totalStake (keys ++ [key]) stakeData =
        totalStake keys stakeData + (stakeOf stakeData key).toNat := by
      simp [totalStake]
    have hStep : stakeSum (keys ++ [key]) stakeData =
        stakeSum keys stakeData + stakeOf stakeData key := by
      simp [stakeSum, stakeOf]
    rw [hSum] at hFits ⊢
    rw [hStep, UInt64.toNat_add, ih (by omega), Nat.mod_eq_of_lt hFits]

/-- The weight of a registry key is its part of the stake. -/
theorem getStakes_eq (hPositive : 0 < totalStake keys stakeData)
    (hFits : totalStake keys stakeData < 2 ^ 64) {key : Bytes} (hKey : key ∈ keys) :
    getStakes ℚ keys stakeData (hexEncode key) =
      (stakeOf stakeData key).toNat / totalStake keys stakeData := by
  have hSum := toNat_stakeSum hFits
  have hNonzero : stakeSum keys stakeData ≠ 0 := by
    intro hZero
    rw [hZero] at hSum
    exact hPositive.ne hSum
  rw [getStakes, foldl_update_of_mem (stakeWeight ℚ keys stakeData) _ hKey, stakeWeight,
    if_neg hNonzero, hSum]
  rfl

theorem sum_getStakes (hPositive : 0 < totalStake keys stakeData)
    (hFits : totalStake keys stakeData < 2 ^ 64) :
    (keys.map fun key => getStakes ℚ keys stakeData (hexEncode key)).sum = 1 := by
  have hParts : (keys.map fun key => getStakes ℚ keys stakeData (hexEncode key)) =
      keys.map fun key => (stakeOf stakeData key).toNat * (totalStake keys stakeData : ℚ)⁻¹ :=
    List.map_congr_left fun key hKey => by
      rw [getStakes_eq hPositive hFits hKey, div_eq_mul_inv]
  have hTotal : (keys.map fun key => ((stakeOf stakeData key).toNat : ℚ)).sum =
      totalStake keys stakeData := by
    rw [totalStake, Nat.cast_list_sum, List.map_map]
    rfl
  have hNonzero : (totalStake keys stakeData : ℚ) ≠ 0 := by
    exact_mod_cast hPositive.ne'
  rw [hParts, List.sum_map_mul_right, hTotal, mul_inv_cancel₀ hNonzero]

end Stakes

/-! ## The election -/

/-- The bytes from which the seed is read: the reveals, or without any the mock seed. -/
def seedBytesOf (registryKeys : List Bytes) (epochRandoms : Std.ExtTreeMap Bytes Bytes compare)
    (slot : Int64) : Go Bytes :=
  if 0 < epochRandoms.size then pure (xorReveals epochRandoms) else drgMockSeed registryKeys slot

/-- The key that a seed value elects. -/
def electedKey (registryKeys : List Bytes) (stakeData : Std.ExtTreeMap Bytes UInt64 compare)
    (v : UInt64) : Option Bytes :=
  registryKeys.getLast?.map fun last =>
    (walk ((v.toNat : ℚ) / ((2 ^ 64 - 1 : Nat) : ℚ)) registryKeys
      (cumulativeWeights (getStakes ℚ registryKeys stakeData) 0 registryKeys)).getD last

section Election

variable {keys : List Bytes} {stakeData : Std.ExtTreeMap Bytes UInt64 compare}

/-- The election with exact fractions elects the key of its seed value. -/
theorem getSlotLeaderUtil_eq {epochRandoms : Std.ExtTreeMap Bytes Bytes compare} {slot : Int64}
    {seedBytes key : Bytes} {v : UInt64} (hSeed : seedBytesOf keys epochRandoms slot = .ok seedBytes)
    (hValue : beNat (seedBytes.take 8) = v.toNat) (hKey : electedKey keys stakeData v = some key)
    (prevBlockHash : Bytes) :
    getSlotLeaderUtil ℚ keys stakeData epochRandoms prevBlockHash slot =
      .ok (hexEncode key, (v.toNat : ℚ) / ((2 ^ 64 - 1 : Nat) : ℚ)) := by
  obtain ⟨last, hLast, rfl⟩ := Option.map_eq_some_iff.mp hKey
  have hUnit : unitSeed ℚ seedBytes = (v.toNat : ℚ) / ((2 ^ 64 - 1 : Nat) : ℚ) := by
    rw [unitSeed, hValue]
  unfold seedBytesOf at hSeed
  rw [getSlotLeaderUtil, hLast, ← hUnit]
  by_cases hReveals : 0 < epochRandoms.size
  · rw [if_pos hReveals] at hSeed
    obtain rfl := pure_eq_ok.mp hSeed
    exact if_pos hReveals
  · rw [if_neg hReveals] at hSeed
    apply (if_neg hReveals).trans
    rw [hSeed]
    rfl

/-- A value elects a key with stake, unless it is zero and the first key has none. -/
theorem electedKey_eq (hPositive : 0 < totalStake keys stakeData)
    (hFits : totalStake keys stakeData < 2 ^ 64) (v : UInt64) :
    ∃ key ∈ keys, electedKey keys stakeData v = some key ∧
      (0 < stakeOf stakeData key ↔ v ≠ 0 ∨ ∃ first ∈ keys.head?, 0 < stakeOf stakeData first) := by
  obtain ⟨first, rest, rfl⟩ : ∃ first rest, keys = first :: rest := by
    apply List.exists_cons_of_ne_nil
    rintro rfl
    simp [totalStake] at hPositive
  set keys := first :: rest with hKeys
  set seed : ℚ := (v.toNat : ℚ) / ((2 ^ 64 - 1 : Nat) : ℚ) with hSeed
  have hGreatest : (0 : ℚ) < ((2 ^ 64 - 1 : Nat) : ℚ) := by
    norm_num
  have hLe : seed ≤ 0 + (keys.map fun key => getStakes ℚ keys stakeData (hexEncode key)).sum := by
    rw [sum_getStakes hPositive hFits, zero_add, hSeed, div_le_one hGreatest]
    have hMax := v.toNat_lt
    exact_mod_cast (by omega : v.toNat ≤ 2 ^ 64 - 1)
  obtain ⟨key, hWalk⟩ := Option.isSome_iff_exists.mp
    (walk_isSome_of_le_sum (by simp [hKeys]) hLe)
  have hMem : key ∈ keys := mem_of_walk hWalk
  refine ⟨key, hMem, ?_, ?_⟩
  · obtain ⟨last, hLast⟩ : ∃ last, keys.getLast? = some last :=
      ⟨_, List.getLast?_eq_some_getLast (by simp [hKeys])⟩
    rw [electedKey, hLast, Option.map_some, hWalk, Option.getD_some]
  · by_cases hZero : v = 0
    · -- the first key reaches the seed zero
      have hFirst : key = first := by
        have hNonneg : (0 : ℚ) ≤ 0 + getStakes ℚ keys stakeData (hexEncode first) := by
          rw [getStakes_eq hPositive hFits (by simp [hKeys]), zero_add]
          positivity
        have hSeedZero : seed = 0 := by
          rw [hSeed, hZero]
          simp
        rw [hKeys, cumulativeWeights, walk_cons, ← hKeys, hSeedZero, if_pos hNonneg] at hWalk
        exact (Option.some.inj hWalk).symm
      simp [hZero, hFirst, hKeys]
    · have hAbove : 0 < seed := by
        have hPos : 0 < v.toNat := by
          rw [Nat.pos_iff_ne_zero]
          exact fun h => hZero (UInt64.toNat_inj.mp h)
        exact div_pos (by exact_mod_cast hPos) hGreatest
      have hWeight := weight_pos_of_walk hAbove hWalk
      rw [getStakes_eq hPositive hFits hMem] at hWeight
      have hStake : 0 < (stakeOf stakeData key).toNat := by
        by_contra hNone
        rw [Nat.eq_zero_of_not_pos hNone] at hWeight
        simp at hWeight
      simp only [ne_eq, hZero, not_false_eq_true, true_or, iff_true]
      exact UInt64.lt_iff_toNat_lt.mpr hStake

end Election

/-- **When the elected leader has stake.** With exact fractions, every seed value elects a registry
key, by reveals or by the mock seed. The key has stake if and only if the value is not zero or the
first registry key has stake. -/
theorem leader_has_stake_iff {keys : List Bytes} {stakeData : Std.ExtTreeMap Bytes UInt64 compare}
    (hPositive : 0 < totalStake keys stakeData) (hFits : totalStake keys stakeData < 2 ^ 64)
    (v : UInt64) :
    ∃ key ∈ keys,
      (∀ epochRandoms prevBlockHash slot seedBytes,
        seedBytesOf keys epochRandoms slot = .ok seedBytes →
        beNat (seedBytes.take 8) = v.toNat →
        getSlotLeaderUtil ℚ keys stakeData epochRandoms prevBlockHash slot =
          .ok (hexEncode key, (v.toNat : ℚ) / ((2 ^ 64 - 1 : Nat) : ℚ))) ∧
      (0 < stakeOf stakeData key ↔
        v ≠ 0 ∨ ∃ first ∈ keys.head?, 0 < stakeOf stakeData first) := by
  obtain ⟨key, hMem, hElected, hStake⟩ := electedKey_eq hPositive hFits v
  refine ⟨key, hMem, ?_, hStake⟩
  intro epochRandoms prevBlockHash slot seedBytes hSeed hValue
  exact getSlotLeaderUtil_eq hSeed hValue hElected prevBlockHash

namespace StandIn

/-- Two registry keys, of which the second one has stake. -/
def secondStaked : Std.ExtTreeMap Bytes UInt64 compare := {(hexEncode [2], 5)}

/-- One reveal, with the last of its first eight bytes given. -/
def revealOf (b : UInt8) : Std.ExtTreeMap Bytes Bytes compare :=
  {(utf8 "a", List.replicate 7 0 ++ [b] ++ List.replicate 24 0)}

end StandIn

open StandIn in
theorem leader_has_stake_iff_second :
    ∃ key ∈ [[1], [2]], (∃ seed, getSlotLeaderUtil ℚ [[1], [2]] secondStaked (revealOf 1) [] 0 =
      .ok (hexEncode key, seed)) ∧ 0 < stakeOf secondStaked key := by
  obtain ⟨key, hMem, hLeader, hStake⟩ := @leader_has_stake_iff [[1], [2]] secondStaked
    (by decide +kernel) (by decide +kernel) 1
  refine ⟨key, hMem, ⟨_, hLeader (revealOf 1) [] 0 (xorReveals (revealOf 1)) ?_ ?_⟩,
    hStake.mpr (.inl (by decide))⟩
  · exact if_pos (by decide +kernel)
  · decide +kernel

open StandIn in
/-- A reveal that begins with eight zero bytes elects the first key, which has no stake. -/
theorem zero_seed_elects_without_stake :
    0 < totalStake [[1], [2]] secondStaked ∧ totalStake [[1], [2]] secondStaked < 2 ^ 64 ∧
      getSlotLeaderUtil ℚ [[1], [2]] secondStaked (revealOf 0) [] 0 = .ok (hexEncode [1], 0) ∧
      stakeOf secondStaked [1] = 0 := by
  decide +kernel

end Bdns.Consensus
