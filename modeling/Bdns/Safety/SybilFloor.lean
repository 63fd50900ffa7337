import Bdns.Safety.StakeAccounts
import Bdns.Network.Chain

/-!
# The least stake of a validator

The gates of STAKE and UNSTAKE keep a stake at zero or at `minStakeThreshold` and more, but they look
at the stakes that validation counts. Where a proof follows an UNSTAKE of its offender these are
not the stakes of the map, and a validator with a small stake can remain.
-/

namespace Bdns.Safety

open Lib Blockchain Validation Network

/-- Every entry holds at least the threshold. -/
def Floor (sm : StakeMap) : Prop :=
  ∀ (v : Bytes) (r : StakeRecord), sm.entries[v]? = some r → minStakeThreshold ≤ r.stakedBalance

/-! ## The gates -/

section Gates

variable {V : Validation} {tx : Transaction} {sh sh' : Shadow}

/-- The gates on stakes see the shadow of coins before the transaction. -/
theorem checkStakeGates_of_validateTx (h : V.validateTx sh tx = .ok sh')
    (hType : tx.type ≠ .revoke) : ∃ balance coins,
      V.checkStakeGates sh.coins tx (hexEncode tx.ownerKey) balance = .ok coins := by
  obtain ⟨domains, -, ⟨hKey, -, -⟩ | ⟨-, -, balance, -, coins, -, -, hStakes, -⟩⟩ :=
    validateTx_eq_ok h
  · exact absurd (type_of_ownerless h hKey) hType
  · exact ⟨balance, coins, hStakes⟩

/-- A first stake is not below the threshold. -/
theorem firstStake_of_validateTx (h : V.validateTx sh tx = .ok sh') (hType : tx.type = .stake)
    (hFirst : V.runningStake sh.coins (hexEncode tx.ownerKey) = 0) :
    minStakeThreshold ≤ tx.stakeAmount := by
  obtain ⟨balance, coins, hGates⟩ := checkStakeGates_of_validateTx h (by simp [hType])
  obtain ⟨_, hStake, -⟩ := bind_eq_ok.mp hGates
  rw [checkStake, if_pos hType] at hStake
  obtain ⟨_, -, hStake⟩ := bind_eq_ok.mp hStake
  obtain ⟨_, hEnough, -⟩ := bind_eq_ok.mp hStake
  rw [require_eq_ok] at hEnough
  exact UInt64.not_lt.mp fun hLt => hEnough ⟨hFirst, hLt⟩

/-- What an UNSTAKE leaves is nothing or not below the threshold. -/
theorem remaining_of_validateTx (h : V.validateTx sh tx = .ok sh') (hType : tx.type = .unstake) :
    V.runningStake sh.coins (hexEncode tx.ownerKey) - tx.stakeAmount = 0 ∨
      minStakeThreshold ≤ V.runningStake sh.coins (hexEncode tx.ownerKey) - tx.stakeAmount := by
  obtain ⟨balance, coins, hGates⟩ := checkStakeGates_of_validateTx h (by simp [hType])
  obtain ⟨⟨_, mid⟩, hStake, hGates⟩ := bind_eq_ok.mp hGates
  rw [checkStake, if_neg (by simp [hType])] at hStake
  obtain ⟨-, rfl⟩ := Prod.mk.inj (pure_eq_ok.mp hStake)
  obtain ⟨_, hUnstake, -⟩ := bind_eq_ok.mp hGates
  rw [checkUnstake, if_pos hType] at hUnstake
  obtain ⟨_, -, hUnstake⟩ := bind_eq_ok.mp hUnstake
  obtain ⟨_, -, hUnstake⟩ := bind_eq_ok.mp hUnstake
  obtain ⟨_, hLeft, -⟩ := bind_eq_ok.mp hUnstake
  rw [require_eq_ok] at hLeft
  by_cases hZero : V.runningStake sh.coins (hexEncode tx.ownerKey) - tx.stakeAmount = 0
  · exact .inl hZero
  · exact .inr (UInt64.not_lt.mp fun hLt => hLeft ⟨UInt64.pos_iff_ne_zero.mpr hZero, hLt⟩)

end Gates

/-! ## The map -/

/-- An entry of the map after a top-up. -/
theorem floor_addStake {sm : StakeMap} (h : Floor sm) {v : Bytes} {amount : UInt64}
    (hNew : minStakeThreshold ≤ sm.getStake v + amount) : Floor (sm.addStake v amount) := by
  intro v' r hr
  simp only [StakeMap.addStake, getElem?_insert_eq_ite] at hr
  split at hr
  · obtain rfl := Option.some.inj hr
    exact hNew
  · exact h v' r hr

/-- An entry of the map after a reduction, which is deleted if nothing is left. -/
theorem floor_reduceStake {sm : StakeMap} (h : Floor sm) {v : Bytes} {amount : UInt64}
    (hLeft : sm.getStake v ≤ amount ∨ minStakeThreshold ≤ sm.getStake v - amount) :
    Floor (sm.reduceStake v amount) := by
  intro v' r hr
  unfold StakeMap.reduceStake at hr
  split at hr
  · exact h v' r hr
  · rename_i record hRecord
    have hStake : sm.getStake v = record.stakedBalance := by simp [StakeMap.getStake, hRecord]
    rw [hStake] at hLeft
    split at hr
    · simp only [getElem?_erase_eq_ite] at hr
      split at hr
      · exact absurd hr (by simp)
      · exact h v' r hr
    · rename_i hMore
      simp only [getElem?_insert_eq_ite] at hr
      split at hr
      · obtain rfl := Option.some.inj hr
        exact hLeft.resolve_left hMore
      · exact h v' r hr

/-- A stake in the map is zero or not below the threshold. -/
theorem Floor.getStake {sm : StakeMap} (h : Floor sm) (v : Bytes) :
    sm.getStake v = 0 ∨ minStakeThreshold ≤ sm.getStake v := by
  unfold StakeMap.getStake
  cases hv : sm.entries[v]? with
  | none => exact .inl rfl
  | some r => exact .inr (h v r hv)

/-- A slash deletes the entry of the offender. -/
theorem floor_slash {s : StakeState} (h : Floor s.stakeMap) {v : Bytes}
    (hFit : (s.stakeMap.getStake v).toNat + (s.unstakeQueue.getPendingStake v).toNat < 2 ^ 64) :
    Floor (slash v s).stakeMap := by
  have hLe : s.stakeMap.getStake v ≤
      s.stakeMap.getStake v + s.unstakeQueue.getPendingStake v := by
    rw [UInt64.le_iff_toNat_le, UInt64.toNat_add, Nat.mod_eq_of_lt hFit]
    exact Nat.le_add_right _ _
  unfold slash
  simp only [computeSlashAmount_slashingPercent]
  split
  · exact floor_reduceStake h (.inl hLe)
  · exact floor_reduceStake h (.inl (UInt64.le_refl _))

/-! ## One transaction -/

section Step

variable {V : Validation} {before : List Transaction} {tx : Transaction} {sh sh' : Shadow}
  {mid : CoinShadow} {s s' : StakeState}

/-- Validation takes the whole stake of an offender that has unstaked nothing before. -/
theorem runningStake_slashShadow_self (hOrderly : Orderly V before sh.coins)
    (hFits : Fits V) (hRun : V.run before = .ok sh) {v : Bytes} (hNone : unstaked v before = 0) :
    V.runningStake (V.slashShadow sh.coins v) v = 0 := by
  have hFit := fits_of_run hFits hRun v
  have hPending : sh.coins.pendingStake v = 0 := (hOrderly.pending v).trans hNone
  have hQueue : (queuePart V sh.coins v).toNat ≤ (V.unstakeQueue.getPendingStake v).toNat := by
    rw [queuePart, hPending, UInt64.add_zero]
    rcases hOrderly.burned v with hBurned | hBurned
    · rw [hBurned, UInt64.sub_zero]
    · rw [hBurned, UInt64.sub_self]
      exact Nat.zero_le _
  rw [runningStake_slashShadow, if_pos rfl]
  split
  · rename_i hLe
    rw [UInt64.le_iff_toNat_le, UInt64.toNat_add, Nat.mod_eq_of_lt (by omega)] at hLe
    have hZero : queuePart V sh.coins v = 0 := UInt64.toNat_inj.mp (by
      rw [UInt64.toNat_zero]
      omega)
    rw [hZero, UInt64.add_zero, UInt64.sub_self]
  · rfl

/-- The stakes of the map fit in 64 bits, together with the queue. -/
theorem applied_fits (hFits : Fits V) (hRun : V.run before = .ok sh)
    (hPass : stakePass V.E V.currentSlot before (openedStakes V) = .ok s) (v : Bytes) :
    (s.stakeMap.getStake v).toNat + (s.unstakeQueue.getPendingStake v).toNat < 2 ^ 64 := by
  obtain ⟨⟨ledger, s₁⟩, hLeader, hCovered⟩ := covered_of_run hFits hRun V.currentSlot
  obtain ⟨-, hStakes⟩ := leaderPass_eq_ok.mp hLeader
  obtain rfl : s = s₁ := Except.ok.inj (hPass.symm.trans hStakes)
  have hTotal := hCovered.total
  have hStaked := s.stakeMap.getStake_le_staked v
  have hQueued := s.unstakeQueue.queuedBy_le_queued v
  have hPending : (s.unstakeQueue.getPendingStake v).toNat ≤ s.unstakeQueue.queuedBy v := by
    rw [UnstakeQueue.getPendingStake_eq, UInt64.toNat_ofNat']
    exact Nat.mod_le _ _
  unfold coins at hTotal
  unfold Fits at hFits
  dsimp only at hTotal
  omega

/-- A top-up does not wrap around. -/
theorem le_add_of_stake (hFits : Fits V) (hRun : V.run before = .ok sh)
    (hTx : V.validateTx sh tx = .ok sh') (hType : tx.type = .stake) (v : Bytes) :
    V.runningStake sh.coins v ≤ V.runningStake sh.coins v + tx.stakeAmount := by
  obtain ⟨acc, -, hCovered⟩ :=
    covered_of_run hFits (run_concat.mpr ⟨sh, hRun, hTx⟩) V.currentSlot
  have hPaid := hCovered.paid
  have hHeld := held_of_run hRun v
  have hStaked := V.stakeMap.getStake_le_staked v
  have hBonded : bonded tx = tx.stakeAmount.toNat := by simp [bonded, hType]
  rw [bondedBy_concat, hBonded] at hPaid
  unfold Fits at hFits
  rw [UInt64.le_iff_toNat_le, UInt64.toNat_add, Nat.mod_eq_of_lt (by omega)]
  exact Nat.le_add_right _ _

theorem floor_step (hFits : Fits V) (hRun : V.run before = .ok sh)
    (hTx : V.validateTx sh tx = .ok sh')
    (hApplied : ∀ v, (s.stakeMap.getStake v).toNat + (s.unstakeQueue.getPendingStake v).toNat <
      2 ^ 64)
    (hStakes : ∀ v, V.runningStake sh.coins v = s.stakeMap.getStake v)
    (hStep : BothStep V V.currentSlot sh.coins s tx mid s') (hFloor : Floor s.stakeMap) :
    Floor s'.stakeMap := by
  cases hStep with
  | stake hType =>
    refine floor_addStake hFloor ?_
    rw [← hStakes]
    rcases hFloor.getStake (hexEncode tx.ownerKey) with hZero | hEnough
    · rw [← hStakes] at hZero
      rw [hZero, UInt64.zero_add]
      exact firstStake_of_validateTx hTx hType hZero
    · rw [← hStakes] at hEnough
      exact UInt64.le_trans hEnough (le_add_of_stake hFits hRun hTx hType _)
  | unstake hType hCovered =>
    refine floor_reduceStake hFloor ?_
    rw [← hStakes]
    rcases remaining_of_validateTx hTx hType with hZero | hEnough
    · have hEq : V.runningStake sh.coins (hexEncode tx.ownerKey) = tx.stakeAmount := by grind
      exact .inl (hEq ▸ UInt64.le_refl _)
    · exact .inr hEnough
  | proof hType blockA hDecode =>
    exact floor_slash hFloor (hApplied (hexEncode blockA.slotLeader))
  | other hStake hUnstake hProof => exact hFloor

end Step

/-! ## Blocks and chains -/

/-- An accepted list without a proof after an UNSTAKE of its offender keeps the floor. -/
theorem floor_of_run {V : Validation} {txs : List Transaction} {sh : Shadow} (hFits : Fits V)
    (hFloor : Floor V.stakeMap) (hRun : V.run txs = .ok sh) (hFirst : ProofsFirst V.E txs) :
    ∃ s, stakePass V.E V.currentSlot txs (openedStakes V) = .ok s ∧
      (∀ v, V.runningStake sh.coins v = s.stakeMap.getStake v) ∧ Floor s.stakeMap := by
  induction txs using List.reverseRecOn generalizing sh with
  | nil =>
    obtain rfl : ({} : Shadow) = sh := by simpa [run] using hRun
    exact ⟨openedStakes V, rfl, fun _ => rfl, hFloor⟩
  | append_singleton before tx ih =>
    obtain ⟨sh₁, hRun₁, hTx⟩ := run_concat.mp hRun
    obtain ⟨s₁, hPass₁, hStakes, hFloor₁⟩ := ih hRun₁ hFirst.of_append
    obtain ⟨s, hPass, hOrderly, hEvidence, -⟩ := both_of_run hRun₁ hFirst.of_append
    obtain rfl : s₁ = s := Except.ok.inj (hPass₁.symm.trans hPass)
    obtain ⟨mid, s', nonce, balance, hApply, hStep, hCoins⟩ :
        ∃ mid s' nonce balance, applyStakeMutations V.E V.currentSlot tx s₁ = .ok s' ∧ _ ∧ _ :=
      bothStep_of_validateTx hEvidence hTx
    have hApplied := applied_fits hFits hRun₁ hPass₁
    have hMid : ∀ v, V.runningStake mid v = s'.stakeMap.getStake v := by
      refine hStep.stake_eq hStakes fun blockA hType hDecode => ?_
      rw [runningStake_slashShadow_self hOrderly hFits hRun₁ (hFirst.last hType hDecode),
        getStake_slash_self (hApplied _)]
    refine ⟨s', foldlM_concat_eq_ok.mpr ⟨s₁, hPass₁, hApply⟩, ?_,
      floor_step hFits hRun₁ hTx hApplied hStakes hStep hFloor₁⟩
    rw [hCoins]
    exact hMid

/-- A block whose proofs come before the UNSTAKEs of their offenders and whose fees are paid by
senders. -/
structure Orderable (E : External) (b : Block) : Prop where
  proofsFirst : ProofsFirst E b.transactions
  paid : (totalFees b.transactions).toNat ≤ signedFees b.transactions

/-- One such block keeps the floor, and the supply does not grow. -/
theorem floor_of_block {env : Env} {order : JournalOrder} {s : ChainState} {b oldBlock : Block}
    {slotLeader : Bytes} {staged : Staged}
    (hAccepted : validateBlock env order s b oldBlock slotLeader = .ok staged)
    (hFits : coins s.ledger s.stakes < 2 ^ 64) (hBlock : Orderable env.E b)
    (hFloor : Floor s.stakes.stakeMap) :
    Floor staged.stakes.stakeMap ∧ coins staged.ledger staged.stakes < 2 ^ 64 := by
  obtain ⟨-, ⟨sh, hRun⟩, hStages⟩ := validateBlock_eq_ok hAccepted
  obtain ⟨stakes, hPass, -, hNext⟩ :=
    floor_of_run (V := blockValidation env s b) hFits hFloor hRun hBlock.proofsFirst
  obtain rfl : staged.stakes = stakes := Except.ok.inj (hStages.stakes.symm.trans hPass)
  obtain ⟨_, -, -, hCoins⟩ := coins_after_block hAccepted hFits
  have hPaid := hBlock.paid
  exact ⟨hNext, by omega⟩

/-- Along a chain of such blocks every validator has at least the least stake. -/
theorem floor_of_chain {env : Env} {blocks : List Block} {s : ChainState}
    (hChain : Chain env blocks s)
    (hSupply : coins (genesisState env).ledger (genesisState env).stakes < 2 ^ 64)
    (hBlocks : ∀ b ∈ blocks.tail, Orderable env.E b) : Floor s.stakes.stakeMap := by
  suffices h : Floor s.stakes.stakeMap ∧ coins s.ledger s.stakes < 2 ^ 64 from h.1
  induction hChain with
  | genesis block => exact ⟨fun v r hr => by simp [genesisState] at hr, hSupply⟩
  | @add blocks s latest b _ _ staged chain tip accepted ih =>
    have hNonempty : blocks ≠ [] := by
      rintro rfl
      simp at tip
    rw [List.tail_append_of_ne_nil hNonempty] at hBlocks
    obtain ⟨hFloor, hFits⟩ := ih fun b' hb' => hBlocks b' (List.mem_append_left _ hb')
    exact floor_of_block accepted hFits (hBlocks b (by simp)) hFloor

/-! ## Two chains -/

/-- Two more blocks that the validator signs, at the next height. -/
def secondOffence (now : Int64) : Block :=
  StandIn.sealed (slashingEnv []) (StandIn.leader (utf8 "validator") now) 2
    [StandIn.signAs (utf8 "validator")
      { tid := 9, type := .stake, ownerKey := utf8 "validator", fee := 1, nonce := 1
        stakeAmount := 1 }]
    slashingNode

/-- Evidence of two offences of the validator. -/
def sybilEnv : Env :=
  slashingEnv [([1], slashingBlock 5), ([2], slashingBlock 6), ([3], secondOffence 7),
    ([4], secondOffence 8)]

def sybilGenesis : Block :=
  ((StandIn.genesis (slashingEnv []) (utf8 "validator")).blockchain.getLatestBlock).getD
    { index := 0, slotNumber := 0, slotLeader := [], transactions := [], prevHash := [] }

/-- The state in which the validator has staked 500 coins. -/
def sybilState : ChainState :=
  StandIn.accept sybilEnv (utf8 "validator") (slashingBlock 5) (genesisState sybilEnv) sybilGenesis

/-- A block of the registry on top of it. -/
def sybilBlock (txs : List Transaction) : Block :=
  StandIn.extend sybilEnv (StandIn.leader (utf8 "registry") 9) 2 txs sybilState (slashingBlock 5)

theorem chain_sybilBlock (txs : List Transaction)
    (hAccepted : (validateBlock sybilEnv (.ascending _ _) sybilState (sybilBlock txs)
      (slashingBlock 5) (utf8 "registry")).isOk = true) :
    Chain sybilEnv [sybilGenesis, slashingBlock 5, sybilBlock txs]
      (StandIn.accept sybilEnv (utf8 "registry") (sybilBlock txs) sybilState
        (slashingBlock 5)) := by
  have hFirst : Chain sybilEnv [sybilGenesis, slashingBlock 5] sybilState :=
    StandIn.chain_accept (.genesis sybilGenesis) rfl (by decide +kernel)
  exact StandIn.chain_accept hFirst rfl hAccepted

/-- A later stake of the validator. -/
def restake (tid : Int64) (nonce stakeAmount : UInt64) : Transaction :=
  StandIn.signAs (utf8 "validator")
    { tid, type := .stake, ownerKey := utf8 "validator", fee := 1, nonce, stakeAmount }

/-- The proof of the second offence. -/
def secondProof : Transaction :=
  StandIn.signAs (utf8 "registry")
    { tid := 5, type := .equivocationProof, ownerKey := utf8 "registry", fee := 1, nonce := 1
      equivBlockA := [3], equivBlockB := [4] }

/-- The validator is slashed and stakes again. -/
theorem floor_of_chain_restake :
    ∃ s, Chain sybilEnv [sybilGenesis, slashingBlock 5, sybilBlock [slashingProof, restake 3 1 150]]
        s ∧ s.stakes.stakeMap.getStake (hexEncode (utf8 "validator")) = 150 ∧
      Floor s.stakes.stakeMap := by
  obtain ⟨hAccepted, hStake, hUnstakes, hPaid⟩ :
      (validateBlock sybilEnv (.ascending _ _) sybilState
          (sybilBlock [slashingProof, restake 3 1 150]) (slashingBlock 5)
          (utf8 "registry")).isOk = true ∧
        (StandIn.accept sybilEnv (utf8 "registry") (sybilBlock [slashingProof, restake 3 1 150])
          sybilState (slashingBlock 5)).stakes.stakeMap.getStake
            (hexEncode (utf8 "validator")) = 150 ∧
        (∀ b ∈ [slashingBlock 5, sybilBlock [slashingProof, restake 3 1 150]],
          ∀ tx ∈ b.transactions, tx.type ≠ .unstake) ∧
        ∀ b ∈ [slashingBlock 5, sybilBlock [slashingProof, restake 3 1 150]],
          (totalFees b.transactions).toNat ≤ signedFees b.transactions := by
    decide +kernel
  have hChain := chain_sybilBlock [slashingProof, restake 3 1 150] hAccepted
  refine ⟨_, hChain, hStake, floor_of_chain hChain (by decide +kernel) fun b hb => ?_⟩
  exact ⟨proofsFirst_of_no_unstake (hUnstakes b hb), hPaid b hb⟩

/-- The stake of 1 coin passes because validation still counts 100 coins of a validator that has
lost everything. -/
theorem stake_below_threshold :
    ∃ s, Chain sybilEnv [sybilGenesis, slashingBlock 5,
        sybilBlock [earlyUnstake, slashingProof, restake 4 2 150, secondProof, restake 6 3 1]] s ∧
      s.stakes.stakeMap.entries[hexEncode (utf8 "validator")]? = some ⟨1⟩ ∧
      ¬ minStakeThreshold ≤ 1 := by
  obtain ⟨hAccepted, hStake⟩ :
      (validateBlock sybilEnv (.ascending _ _) sybilState
          (sybilBlock [earlyUnstake, slashingProof, restake 4 2 150, secondProof, restake 6 3 1])
          (slashingBlock 5) (utf8 "registry")).isOk = true ∧
        (StandIn.accept sybilEnv (utf8 "registry")
          (sybilBlock [earlyUnstake, slashingProof, restake 4 2 150, secondProof, restake 6 3 1])
          sybilState (slashingBlock 5)).stakes.stakeMap.entries[hexEncode (utf8 "validator")]? =
            some ⟨1⟩ := by
    decide +kernel
  exact ⟨_, chain_sybilBlock _ hAccepted, hStake, by decide⟩

end Bdns.Safety
