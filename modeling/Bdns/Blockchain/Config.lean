import Bdns.Lib.Bytes

/-!
# Protocol constants and the life of a domain

`config.go` and the integer encoding of `utils.go`. A domain is active up to its expiry
slot, then in grace for `gracePeriodDays` days of slots, then purged.
-/

namespace Bdns.Blockchain

open Lib

/-- `IntToByteArr`: an `int64` as eight bytes, most significant first. -/
def intToByteArr (num : Int64) : Bytes := beBytes 8 num.toUInt64.toNat

@[simp] theorem length_intToByteArr (num : Int64) : (intToByteArr num).length = 8 :=
  length_beBytes 8 _

theorem intToByteArr_injective : Function.Injective intToByteArr := by
  intro m n h
  have hNat := beBytes_inj (by simpa using m.toUInt64.toNat_lt) (by simpa using n.toUInt64.toNat_lt) h
  have hUInt := UInt64.toNat_inj.mp hNat
  rw [← Int64.toInt64_toUInt64 m, hUInt, Int64.toInt64_toUInt64]

theorem intToByteArr_append_inj {a b : Int64} {x y : Bytes}
    (h : intToByteArr a ++ x = intToByteArr b ++ y) : a = b ∧ x = y := by
  obtain ⟨hInt, hRest⟩ := List.append_inj h (by simp)
  exact ⟨intToByteArr_injective hInt, hRest⟩

theorem uint64_append_inj {a b : UInt64} {x y : Bytes}
    (h : intToByteArr a.toInt64 ++ x = intToByteArr b.toInt64 ++ y) : a = b ∧ x = y := by
  obtain ⟨hInt, hRest⟩ := intToByteArr_append_inj h
  exact ⟨congrArg Int64.toUInt64 hInt, hRest⟩

def gracePeriodDays : Int64 := 30

/-- The coins a key must stake to become a validator. -/
def minStakeThreshold : UInt64 := 100

/-- The slots before unstaked coins become liquid. -/
def unstakeDelaySlots : UInt64 := 1000

def slashingPercent : UInt64 := 100

def maxEvidenceBlockBytes : Nat := 2 * 1024 * 1024

def commitMinDelay : Int64 := 3

def commitMaxWindow : Int64 := 100

def computeSlashAmount (stake percent : UInt64) : UInt64 :=
  if percent = 0 then 0
  else if stake > 0xFFFFFFFFFFFFFFFF / percent then stake
  else stake * percent / 100

/-- At a slashing rate of 100% the whole stake is slashed, also where the product with the
rate would overflow. -/
theorem computeSlashAmount_slashingPercent (stake : UInt64) :
    computeSlashAmount stake slashingPercent = stake := by
  unfold computeSlashAmount slashingPercent
  split
  · rename_i h
    exact absurd h (by decide)
  · split
    · rfl
    · rename_i h
      have hLe : stake.toNat ≤ 184467440737095516 := by
        simpa [UInt64.lt_iff_toNat_lt] using h
      apply UInt64.toNat_inj.mp
      have hMul : (stake * 100).toNat = stake.toNat * 100 := by
        rw [UInt64.toNat_mul]
        exact Nat.mod_eq_of_lt (by simp; omega)
      rw [UInt64.toNat_div, hMul]
      exact Nat.mul_div_cancel _ (by decide)

/-- `IsRegistryKey`, with the global list of trusted registries as an argument. -/
def isRegistryKey (trustedRegistries : List Bytes) (pubKey : Bytes) : Bool :=
  trustedRegistries.any fun regKey => regKey == pubKey

inductive Phase
  | active
  | grace
  | purged
  deriving DecidableEq

/-- The phase as the source writes it. -/
def Phase.text : Phase → Bytes
  | .active => utf8 "active"
  | .grace => utf8 "grace"
  | .purged => utf8 "purged"

/-- The slot at which a domain is auto-revoked. -/
def computePurgeSlot (expirySlot slotsPerDay : Int64) : Int64 :=
  expirySlot + gracePeriodDays * slotsPerDay

def getDomainPhase (currentSlot expirySlot slotsPerDay : Int64) : Phase :=
  if currentSlot < expirySlot then .active
  else if currentSlot < computePurgeSlot expirySlot slotsPerDay then .grace
  else .purged

theorem getDomainPhase_eq_active {currentSlot expirySlot slotsPerDay : Int64} :
    getDomainPhase currentSlot expirySlot slotsPerDay = .active ↔ currentSlot < expirySlot := by
  unfold getDomainPhase
  split
  · simp_all
  · split <;> simp_all

end Bdns.Blockchain
