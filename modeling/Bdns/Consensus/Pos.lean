import Bdns.Blockchain.Config
import Bdns.Lib.Binary64
import Bdns.Lib.Outcome

/-!
# Leader election by stake

`pos.go`. A seed in the unit interval selects a registry key by a walk along the cumulative
stake fractions. The type `F` of the fractions is a parameter; the program runs the functions
with `F := Float`.
-/

namespace Bdns.Consensus

open Lib Blockchain

/-! ## Seeds -/

/-- `seed[i] ^= mask(i)` for every position of the seed. -/
def xorWith (mask : Nat → UInt8) (seed : Bytes) : Bytes := seed.mapIdx fun i b => b ^^^ mask i

/-- One public key enters the seed, repeated over its length. -/
def xorKey (seed pubkey : Bytes) : Go Bytes :=
  if pubkey.length = 0 then throw .divideByZero
  else pure (xorWith (fun i => pubkey.getD (i % pubkey.length) 0) seed)

/-- `DRGMockSeed`: all keys and the slot number. -/
def drgMockSeed (validators : List Bytes) (slot : Int64) : Go Bytes := do
  let seed ← validators.foldlM xorKey (List.replicate 32 0)
  pure (xorWith (fun i => (intToByteArr slot).getD i 0) seed)

/-- The exclusive or of the 32-byte values that were revealed. -/
def xorReveals (epochRandoms : Std.ExtTreeMap Bytes Bytes compare) : Bytes :=
  epochRandoms.toList.foldl
    (fun xored entry =>
      if entry.2.length = 32 then xorWith (fun i => entry.2.getD i 0) xored else xored)
    (List.replicate 32 0)

section Walk

variable (F : Type) [NatCast F] [Zero F] [One F] [Add F] [Div F] [LE F] [DecidableLE F]

/-- The first eight bytes as a fraction of the greatest `uint64`. -/
def unitSeed (seedBytes : Bytes) : F := (beNat (seedBytes.take 8) : F) / ((2 ^ 64 - 1 : Nat) : F)

/-! ## Weights -/

/-- The running `uint64` sum of the stakes of the registry keys. -/
def stakeSum (registryKeys : List Bytes) (stakeData : Std.ExtTreeMap Bytes UInt64 compare) :
    UInt64 :=
  registryKeys.foldl (fun sum key => sum + (stakeData[hexEncode key]?).getD 0) 0

/-- The weight of one key. Without any stake the registry keys have equal weights. -/
def stakeWeight (registryKeys : List Bytes) (stakeData : Std.ExtTreeMap Bytes UInt64 compare)
    (keyHex : Bytes) : F :=
  let sum := stakeSum registryKeys stakeData
  if sum = 0 then 1 / (registryKeys.length : F)
  else (((stakeData[keyHex]?).getD 0).toNat : F) / (sum.toNat : F)

/-- `GetStakes`: the weights of the registry keys, by their hexadecimal texts. -/
def getStakes (registryKeys : List Bytes) (stakeData : Std.ExtTreeMap Bytes UInt64 compare) :
    Bytes → F :=
  registryKeys.foldl
    (fun stakeProbs key => Function.update stakeProbs (hexEncode key)
      (stakeWeight F registryKeys stakeData (hexEncode key)))
    fun _ => 0

variable {F}

/-- The cumulative weights, one for every key. -/
def cumulativeWeights (probs : Bytes → F) : F → List Bytes → List F
  | _, [] => []
  | cumulative, key :: keys =>
    (cumulative + probs (hexEncode key)) ::
      cumulativeWeights probs (cumulative + probs (hexEncode key)) keys

/-- The first key whose cumulative weight reaches the seed. -/
def walk (seed : F) (registryKeys : List Bytes) (cdf : List F) : Option Bytes :=
  ((registryKeys.zip cdf).find? fun entry => decide (seed ≤ entry.2)).map (·.1)

variable (F)

/-- `GetSlotLeaderUtil`. The hash of the latest block is passed but does not enter the seed. -/
def getSlotLeaderUtil (registryKeys : List Bytes)
    (stakeData : Std.ExtTreeMap Bytes UInt64 compare)
    (epochRandoms : Std.ExtTreeMap Bytes Bytes compare) (_prevBlockHash : Bytes) (slot : Int64) :
    Go (Bytes × F) :=
  match registryKeys.getLast? with
  | none => pure ([], 0)
  | some last => do
    let cdf := cumulativeWeights (getStakes F registryKeys stakeData) 0 registryKeys
    let seedBytes ←
      if 0 < epochRandoms.size then pure (xorReveals epochRandoms)
      else drgMockSeed registryKeys slot
    let seed : F := unitSeed F seedBytes
    pure (hexEncode ((walk seed registryKeys cdf).getD last), seed)

end Walk

/-! ## The walk -/

section Walk

variable {F : Type} {keys : List Bytes} {key : Bytes}

theorem walk_cons [LE F] [DecidableLE F] {seed c : F} {cs : List F} :
    walk seed (key :: keys) (c :: cs) = if seed ≤ c then some key else walk seed keys cs := by
  by_cases h : seed ≤ c <;> simp [walk, h]

theorem mem_of_walk [LE F] [DecidableLE F] {seed : F} {cs : List F}
    (h : walk seed keys cs = some key) : key ∈ keys := by
  obtain ⟨entry, hFind, rfl⟩ := Option.map_eq_some_iff.mp h
  exact (List.of_mem_zip (List.mem_of_find?_eq_some hFind)).1

theorem stakeSum_empty (keys : List Bytes) : stakeSum keys ∅ = 0 := by
  unfold stakeSum
  induction keys with
  | nil => rfl
  | cons key keys ih => simp

/-- The weights are stored for every registry key. -/
theorem foldl_update_of_mem (weight : Bytes → F) (start : Bytes → F) (hKey : key ∈ keys) :
    keys.foldl (fun probs key => Function.update probs (hexEncode key) (weight (hexEncode key)))
      start (hexEncode key) = weight (hexEncode key) := by
  induction keys using List.reverseRecOn with
  | nil => simp at hKey
  | append_singleton keys last ih =>
    rw [List.foldl_append, List.foldl_cons, List.foldl_nil]
    by_cases hLast : key = last
    · rw [hLast, Function.update_self]
    · rw [Function.update_of_ne (by simpa using hLast)]
      exact ih (by simpa [hLast] using hKey)

/-- Without stake every registry key has the same weight. -/
theorem getStakes_empty [NatCast F] [Zero F] [One F] [Div F] (hKey : key ∈ keys) :
    getStakes F keys ∅ (hexEncode key) = 1 / (keys.length : F) := by
  rw [getStakes, foldl_update_of_mem (stakeWeight F keys ∅) _ hKey, stakeWeight, stakeSum_empty,
    if_pos rfl]

end Walk

/-! ## Seeds from encoded keys -/

theorem getElem?_xorWith (mask : Nat → UInt8) (b : Bytes) (i : Nat) :
    (xorWith mask b)[i]? = b[i]?.map (· ^^^ mask i) :=
  List.getElem?_mapIdx

/-- The first bytes depend on the first bytes of the mask. -/
theorem take_xorWith {mask mask' : Nat → UInt8} {n : Nat} (h : ∀ i < n, mask i = mask' i)
    (b : Bytes) : (xorWith mask b).take n = xorWith mask' (b.take n) := by
  ext1 i
  rw [List.getElem?_take, getElem?_xorWith, getElem?_xorWith, List.getElem?_take]
  split
  · rename_i hi
    rw [h i hi]
  · rfl

theorem xorWith_xorWith (mask : Nat → UInt8) (b : Bytes) : xorWith mask (xorWith mask b) = b := by
  ext1 i
  rw [getElem?_xorWith, getElem?_xorWith, Option.map_map]
  cases b[i]? with
  | none => rfl
  | some x => exact congrArg some (by simp)

/-- The bytes with which the PKIX encoding of every P-256 key begins. -/
def pkixPrefix : Bytes := [0x30, 0x59, 0x30, 0x13, 0x06, 0x07, 0x2a, 0x86]

/-- Each encoded key flips the first eight bytes of the seed in the same way. -/
theorem xorKey_of_pkix {key : Bytes} (hKey : pkixPrefix <+: key) (seed : Bytes) :
    ∃ seed', xorKey seed key = .ok seed' ∧
      seed'.take 8 = xorWith (fun i => pkixPrefix.getD i 0) (seed.take 8) := by
  obtain ⟨rest, rfl⟩ := hKey
  refine ⟨_, if_neg (by simp [pkixPrefix]), take_xorWith ?_ seed⟩
  intro i hi
  have hLength : pkixPrefix.length = 8 := rfl
  rw [Nat.mod_eq_of_lt (by rw [List.length_append]; omega), List.getD_append _ _ _ _ (by omega)]

/-- Keys in pairs leave the first eight bytes of the seed alone. -/
theorem foldlM_xorKey_of_pkix {keys : List Bytes} (hKeys : ∀ key ∈ keys, pkixPrefix <+: key)
    (seed : Bytes) :
    ∃ seed', keys.foldlM xorKey seed = .ok seed' ∧
      seed'.take 8 = if Even keys.length then seed.take 8
        else xorWith (fun i => pkixPrefix.getD i 0) (seed.take 8) := by
  induction keys generalizing seed with
  | nil => exact ⟨seed, rfl, by simp⟩
  | cons key keys ih =>
    obtain ⟨seed₁, hKey, hTake₁⟩ := xorKey_of_pkix (hKeys key List.mem_cons_self) seed
    obtain ⟨seed₂, hRest, hTake₂⟩ := ih (fun k hk => hKeys k (List.mem_cons_of_mem _ hk)) seed₁
    refine ⟨seed₂, by rw [List.foldlM_cons, hKey]; exact hRest, ?_⟩
    rw [hTake₂, hTake₁]
    by_cases hEven : Even keys.length
    · simp [hEven, Nat.even_add_one]
    · simp [hEven, Nat.even_add_one, xorWith_xorWith]

/-- At slot 0 the seed of an even number of keys begins with zeros, that of an odd number with
the common bytes. -/
theorem drgMockSeed_of_pkix {keys : List Bytes} (hKeys : ∀ key ∈ keys, pkixPrefix <+: key) :
    ∃ seed, drgMockSeed keys 0 = .ok seed ∧
      seed.take 8 = if Even keys.length then List.replicate 8 0 else pkixPrefix := by
  obtain ⟨seed, hFold, hTake⟩ := foldlM_xorKey_of_pkix hKeys (List.replicate 32 0)
  refine ⟨xorWith (fun i => (intToByteArr 0).getD i 0) seed, ?_, ?_⟩
  · rw [drgMockSeed, hFold]
    rfl
  · have hZero : ∀ i < 8, (intToByteArr 0).getD i 0 = 0 := by decide +kernel
    rw [take_xorWith hZero, hTake]
    split <;> rfl

/-! ## The first election -/

/-- The seed of an even number of encoded keys. -/
theorem unitSeed_zeros {seedBytes : Bytes} (h : seedBytes.take 8 = List.replicate 8 0) :
    unitSeed Float seedBytes = 0 := by
  rw [unitSeed, h]
  rfl

/-- The seed of an odd number of encoded keys, about 0.189. -/
def pkixSeed : Float := ((beNat pkixPrefix : Nat) : Float) / ((2 ^ 64 - 1 : Nat) : Float)

theorem above_pkixSeed : Binary64.Above (-3) pkixSeed.toModel.unpack := by
  have hUnpack : pkixSeed.toModel.unpack =
    .finite .positive 6804430947287957 (-55) (by decide) := rfl
  rw [hUnpack]
  exact .finite _ (by decide) (by decide) (by decide) (by decide)

theorem below_firstWeight {n j : Nat} (hPow : 2 ^ j ≤ n) (hMax : j ≤ 1000) :
    Binary64.Below (1 - j) (0 + 1 / (n : Float)).toModel.unpack := by
  have hAbove := Binary64.above_natCast hPow
  exact Binary64.below_zero_add (by omega) (Binary64.below_one_div (by omega) (by omega) hAbove)

theorem zero_le_firstWeight {n : Nat} (hn : 1 ≤ n) : (0 : Float) ≤ 0 + 1 / (n : Float) :=
  Binary64.zero_le_of_below (below_firstWeight (j := 0) hn (by decide))

/-- The seed of an odd number of encoded keys lies in the first of `n` equal parts up to `n = 5`
only. -/
theorem pkixSeed_le_iff {n : Nat} (hOdd : Odd n) :
    pkixSeed ≤ 0 + 1 / (n : Float) ↔ n ≤ 5 := by
  constructor
  · intro hLe
    by_contra hMany
    have hSmall : n < 16 := by
      by_contra hLarge
      exact Binary64.not_le_of_below above_pkixSeed
        (below_firstWeight (n := n) (j := 4) (by omega) (by decide)) hLe
    have hCases : n = 7 ∨ n = 9 ∨ n = 11 ∨ n = 13 ∨ n = 15 := by
      obtain ⟨m, rfl⟩ := hOdd
      omega
    rcases hCases with rfl | rfl | rfl | rfl | rfl <;> exact absurd hLe (by decide +kernel)
  · intro hFew
    have hCases : n = 1 ∨ n = 3 ∨ n = 5 := by
      obtain ⟨m, rfl⟩ := hOdd
      omega
    rcases hCases with rfl | rfl | rfl <;> decide +kernel

/-- The election of a node without stake, reveals or blocks selects the first key exactly for an
even number of keys and for at most five. -/
theorem getSlotLeaderUtil_of_pkix {first : Bytes} {rest : List Bytes}
    (hKeys : ∀ key ∈ first :: rest, pkixPrefix <+: key) (prevBlockHash : Bytes) :
    ∃ leader seed,
      getSlotLeaderUtil Float (first :: rest) ∅ ∅ prevBlockHash 0 = .ok (hexEncode leader, seed) ∧
      if Even (rest.length + 1) ∨ rest.length + 1 ≤ 5 then leader = first else leader ∈ rest := by
  obtain ⟨seedBytes, hSeed, hTake⟩ := drgMockSeed_of_pkix hKeys
  have hCdf : cumulativeWeights (getStakes Float (first :: rest) ∅) 0 (first :: rest) =
      (0 + 1 / ((rest.length + 1 : Nat) : Float)) ::
        cumulativeWeights (getStakes Float (first :: rest) ∅)
          (0 + 1 / ((rest.length + 1 : Nat) : Float)) rest := by
    rw [cumulativeWeights, getStakes_empty List.mem_cons_self, List.length_cons]
  refine ⟨(walk (unitSeed Float seedBytes) (first :: rest)
    (cumulativeWeights (getStakes Float (first :: rest) ∅) 0 (first :: rest))).getD
      (rest.getLast?.getD first), unitSeed Float seedBytes, ?_, ?_⟩
  · rw [getSlotLeaderUtil, List.getLast?_cons]
    dsimp only
    rw [if_neg (by simp), hSeed]
    rfl
  · rw [hCdf, walk_cons]
    by_cases hEven : Even (rest.length + 1)
    · have hLe : unitSeed Float seedBytes ≤ 0 + 1 / ((rest.length + 1 : Nat) : Float) := by
        rw [unitSeed_zeros (hTake.trans (if_pos hEven))]
        exact zero_le_firstWeight (by omega)
      rw [if_pos hLe, if_pos (.inl hEven)]
      rfl
    · have hIff : unitSeed Float seedBytes ≤ 0 + 1 / ((rest.length + 1 : Nat) : Float) ↔
          rest.length + 1 ≤ 5 := by
        rw [unitSeed, hTake.trans (if_neg hEven)]
        exact pkixSeed_le_iff (Nat.not_even_iff_odd.mp hEven)
      by_cases hFew : rest.length + 1 ≤ 5
      · rw [if_pos (hIff.mpr hFew), if_pos (.inr hFew)]
        rfl
      · rw [if_neg (mt hIff.mp hFew), if_neg (by simp [hEven, hFew])]
        cases hWalk : walk (unitSeed Float seedBytes) rest _ with
        | some key => exact mem_of_walk hWalk
        | none =>
          have hRest : rest ≠ [] := by rintro rfl; simp at hFew
          rw [Option.getD_none, List.getLast?_eq_some_getLast hRest]
          exact List.getLast_mem hRest

end Bdns.Consensus
